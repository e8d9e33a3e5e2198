import Pcl.Htable.Table
import Mathlib.Tactic.Linarith

/-!
# Capacities

`roundCapacity` yields powers of two: the shifts copy the leading bit of the capacity into every bit
below it. A table doubles and halves its capacity, so it stays a power of two, and the conversions to
`float` of the load factor tests are exact.
-/

namespace Pcl

/-- `y` has the bits of `x`, each copied into the `n - 1` bits below it. -/
def Smeared (n x y : Nat) : Prop := ∀ i, y.testBit i = true ↔ ∃ j < n, x.testBit (i + j) = true

theorem Smeared.refl (x : Nat) : Smeared 1 x x := fun i => by
  simp

theorem Smeared.step {n x y : Nat} (h : Smeared n x y) : Smeared (2 * n) x (smear y n) := fun i => by
  simp only [smear, Nat.testBit_or, Nat.testBit_shiftRight, Bool.or_eq_true, h _]
  constructor
  · rintro (⟨j, hj, hx⟩ | ⟨j, hj, hx⟩)
    · exact ⟨j, by omega, hx⟩
    · exact ⟨n + j, by omega, by rwa [← Nat.add_assoc, Nat.add_comm i n]⟩
  · rintro ⟨j, hj, hx⟩
    by_cases hjn : j < n
    · exact .inl ⟨j, hjn, hx⟩
    · exact .inr ⟨j - n, by omega, by rwa [show n + i + (j - n) = i + j by omega]⟩

/-- Copied far enough, the bits of `x` fill everything below its leading bit. -/
theorem Smeared.eq_two_pow {n x y : Nat} (h : Smeared n x y) (h0 : x ≠ 0) (hx : x < 2 ^ n) :
    y + 1 = 2 ^ (x.log2 + 1) := by
  have hlog : x.log2 < n := (Nat.log2_lt h0).2 hx
  have hy : y = 2 ^ (x.log2 + 1) - 1 := Nat.eq_of_testBit_eq fun i => by
    rw [Nat.testBit_two_pow_sub_one]
    by_cases hi : i < x.log2 + 1
    · rw [decide_eq_true hi, h]
      exact ⟨x.log2 - i, by omega, by
        rw [show i + (x.log2 - i) = x.log2 by omega]; exact Nat.testBit_log2 h0⟩
    · rw [decide_eq_false hi, ← Bool.not_eq_true, h]
      rintro ⟨j, -, hj⟩
      have := (Nat.le_log2 h0).2 (Nat.ge_two_pow_of_testBit hj)
      omega
  have := Nat.two_pow_pos (x.log2 + 1)
  omega

theorem smear_eq_two_pow {x : Nat} (h0 : x ≠ 0) (hx : x < 2 ^ 32) :
    smear (smear (smear (smear (smear x 1) 2) 4) 8) 16 + 1 = 2 ^ (x.log2 + 1) :=
  Smeared.eq_two_pow (n := 32)
    ((((((Smeared.refl x).step).step).step).step).step) h0 hx

/-- The rounded capacity is a power of two with room for `c` entries. -/
theorem roundCapacity_spec {c : Nat} (hc : c < 2 ^ 32) :
    ∃ k, 3 ≤ k ∧ roundCapacity c = 2 ^ k ∧ c ≤ 2 ^ k := by
  unfold roundCapacity
  set m := max c minTblSize with hm
  have h8 : 2 ^ 3 ≤ m := by simp [hm, minTblSize]
  have hcm : c ≤ m := by omega
  have h0 : m ≠ 0 := by omega
  have hlt : m < 2 ^ 32 := by simp only [hm, minTblSize]; omega
  by_cases hp : m &&& (m - 1) = 0
  · obtain ⟨k, hk⟩ := (Nat.and_sub_one_eq_zero_iff_isPowerOfTwo h0).1 hp
    refine ⟨k, ?_, by simp only [hp, ne_eq, not_true_eq_false, ↓reduceIte]; exact hk, hk ▸ hcm⟩
    exact (Nat.pow_le_pow_iff_right (by decide)).1 (hk ▸ h8)
  · refine ⟨m.log2 + 1, ?_, by simp only [hp, ne_eq, not_false_eq_true, ↓reduceIte]; exact smear_eq_two_pow h0 hlt, ?_⟩
    · have := (Nat.le_log2 h0).2 h8
      omega
    · have := Nat.lt_log2_self (n := m)
      omega

theorem le_smear (x k : Nat) : x ≤ smear x k := Nat.left_le_or

theorem le_roundCapacity (c : Nat) : c ≤ roundCapacity c := by
  have hmax : c ≤ max c minTblSize := le_max_left _ _
  simp only [roundCapacity]
  split
  · have h1 := le_smear (max c minTblSize) 1
    have h2 := h1.trans (le_smear _ 2)
    have h3 := h2.trans (le_smear _ 4)
    have h4 := h3.trans (le_smear _ 8)
    have h5 := h4.trans (le_smear _ 16)
    omega
  · exact hmax

/-- A power of two is only raised to the smallest table size. -/
theorem roundCapacity_two_pow (k : Nat) : roundCapacity (2 ^ k) = max (2 ^ k) minTblSize := by
  have hp : max (2 ^ k) minTblSize &&& (max (2 ^ k) minTblSize - 1) = 0 := by
    refine (Nat.and_sub_one_eq_zero_iff_isPowerOfTwo (by simp [minTblSize])).2 ?_
    rcases Nat.le_total (2 ^ k) minTblSize with h | h
    · exact ⟨3, by rw [max_eq_right h]; rfl⟩
    · exact ⟨k, by rw [max_eq_left h]⟩
  simp [roundCapacity, hp]

/-- The mask of a power of two picks a bucket below it. -/
theorem and_mask_lt (c : UInt64) (k : Nat) : c.toNat &&& (2 ^ k - 1) < 2 ^ k := by
  rw [Nat.and_two_pow_sub_one_eq_mod]
  exact Nat.mod_lt _ (Nat.two_pow_pos k)

/-- `MAX_LOADFAC` times a capacity of at least `8` is exact, and below the capacity. -/
theorem maxLoadfac_threshold (c : Nat) : maxLoadfac.threshold c = 3 * c / 4 := rfl

/-- A factor of at most one half leaves room in half the capacity. -/
theorem LoadFac.threshold_le_half {f : LoadFac} (hf : 2 * f.num ≤ 2 ^ f.shift) (c : Nat) :
    f.threshold c ≤ c / 2 := by
  unfold threshold
  refine (Nat.le_div_iff_mul_le (by decide)).2 ?_
  have h1 : f.num * c / 2 ^ f.shift * 2 ^ f.shift ≤ f.num * c := Nat.div_mul_le_self _ _
  have h2 : 2 * f.num * c ≤ 2 ^ f.shift * c := Nat.mul_le_mul_right c hf
  have hpos := Nat.two_pow_pos f.shift
  refine Nat.le_of_mul_le_mul_left (c := 2 ^ f.shift) ?_ hpos
  linarith

theorem minLoadfac_le_half : 2 * minLoadfac.num ≤ 2 ^ minLoadfac.shift := by decide

end Pcl

import Mathlib.Algebra.GroupWithZero.Nat
import Mathlib.Data.Nat.Log
import Mathlib.Tactic.Common

/-!
# Integers as doubles

What becomes of an integer that is converted to an IEEE 754 double: it keeps 53 binary digits, and is rounded to the
nearest, on a tie to the even one.
-/

namespace Pcl

/-- The leading 53 digits of `n`, rounded, when `s` more follow them. -/
def roundedDigits (n s : Nat) : Nat :=
  let q := n / 2 ^ s
  let r := n % 2 ^ s
  if 2 ^ s < 2 * r ∨ 2 * r = 2 ^ s ∧ q % 2 = 1 then q + 1 else q

def roundDouble (n : Nat) : Nat :=
  if n < 2 ^ 53 then n else roundedDigits n (Nat.log 2 n - 52) * 2 ^ (Nat.log 2 n - 52)

/-- The conversion of an integer. -/
def toDouble (n : Int) : Int := if n < 0 then -roundDouble n.natAbs else roundDouble n.natAbs

theorem roundDouble_of_lt {n : Nat} (h : n < 2 ^ 53) : roundDouble n = n := if_pos h

theorem toDouble_natCast (n : Nat) : toDouble n = roundDouble n := by
  rw [toDouble, if_neg (by omega), Int.natAbs_natCast]

theorem toDouble_neg {n : Int} (h : n < 0) : toDouble n ≤ 0 := by
  rw [toDouble, if_pos h]
  omega

theorem roundedDigits_bounds (n s : Nat) : n / 2 ^ s ≤ roundedDigits n s ∧ roundedDigits n s ≤ n / 2 ^ s + 1 := by
  simp only [roundedDigits]
  split <;> omega

/-- A number of more than 53 digits is `2 ^ s` times its leading ones and a rest. -/
theorem digits_split {n : Nat} (h : 2 ^ 53 ≤ n) : 0 < Nat.log 2 n - 52 ∧ 2 ^ 52 ≤ n / 2 ^ (Nat.log 2 n - 52) ∧
    n / 2 ^ (Nat.log 2 n - 52) < 2 ^ 53 := by
  have hlog : 53 ≤ Nat.log 2 n := Nat.le_log_of_pow_le (by decide) h
  have hlow : 2 ^ Nat.log 2 n ≤ n := Nat.pow_log_le_self 2 (by omega)
  have hhigh : n < 2 ^ (Nat.log 2 n + 1) := Nat.lt_pow_succ_log_self (by decide) n
  refine ⟨by omega, (Nat.le_div_iff_mul_le (Nat.two_pow_pos _)).2 ?_, (Nat.div_lt_iff_lt_mul (Nat.two_pow_pos _)).2 ?_⟩
  · rwa [← Nat.pow_add, show 52 + (Nat.log 2 n - 52) = Nat.log 2 n by omega]
  · rwa [← Nat.pow_add, show 53 + (Nat.log 2 n - 52) = Nat.log 2 n + 1 by omega]

/-- The digits are rounded up to a power of two from half a unit below it. -/
theorem roundedDigits_lt_iff {n s : Nat} (hs : 0 < s) (hn : n / 2 ^ s < 2 ^ 53) :
    roundedDigits n s < 2 ^ 53 ↔ n + 2 ^ (s - 1) < 2 ^ (53 + s) := by
  obtain ⟨s, rfl⟩ := Nat.exists_eq_add_of_lt hs
  rw [show 0 + s + 1 - 1 = s by omega, show 0 + s + 1 = s + 1 by omega] at *
  have hpow : 2 ^ (53 + (s + 1)) = 2 ^ 53 * 2 ^ (s + 1) := Nat.pow_add _ _ _
  have hhalf : 2 ^ (s + 1) = 2 * 2 ^ s := by rw [Nat.pow_succ, Nat.mul_comm]
  have hsplit := Nat.div_add_mod n (2 ^ (s + 1))
  have hrest : n % 2 ^ (s + 1) < 2 ^ (s + 1) := Nat.mod_lt _ (Nat.two_pow_pos _)
  simp only [roundedDigits]
  by_cases hq : n / 2 ^ (s + 1) = 2 ^ 53 - 1
  · rw [hq] at hsplit ⊢
    constructor
    · intro h
      split at h <;> omega
    · intro h
      rw [if_neg (by omega)]
      decide
  · have hle : n / 2 ^ (s + 1) + 2 ≤ 2 ^ 53 := by omega
    have hmul := Nat.mul_le_mul_left (2 ^ (s + 1)) hle
    rw [Nat.mul_add, Nat.mul_comm _ (2 ^ 53)] at hmul
    refine iff_of_true ?_ (by omega)
    split <;> omega

/-- Below a power of two stay the numbers that are more than half a unit of the last digit below it. -/
theorem roundDouble_lt_two_pow {n k : Nat} (hk : 54 ≤ k) : roundDouble n < 2 ^ k ↔ n + 2 ^ (k - 54) < 2 ^ k := by
  have hunit : 2 ^ k = 2 ^ 54 * 2 ^ (k - 54) := by rw [← Nat.pow_add, Nat.add_sub_cancel' hk]
  have hpos : 0 < 2 ^ (k - 54) := Nat.two_pow_pos _
  by_cases hn : n < 2 ^ 53
  · rw [roundDouble_of_lt hn]
    exact iff_of_true (by omega) (by omega)
  · obtain ⟨hs, hlow, hhigh⟩ := digits_split (Nat.le_of_not_lt hn)
    rw [roundDouble, if_neg hn]
    generalize Nat.log 2 n - 52 = s at hs hlow hhigh
    obtain ⟨hge, hle⟩ := roundedDigits_bounds n s
    have hsplit := Nat.div_add_mod n (2 ^ s)
    have hrest : n % 2 ^ s < 2 ^ s := Nat.mod_lt _ (Nat.two_pow_pos _)
    rcases Nat.lt_trichotomy (53 + s) k with hlt | heq | hgt
    · have hdouble : 2 * 2 ^ (53 + s) ≤ 2 ^ k := by
        rw [← Nat.pow_succ']
        exact Nat.pow_le_pow_right (by decide) hlt
      have hmul := Nat.mul_le_mul_right (2 ^ s) (show roundedDigits n s ≤ 2 ^ 53 by omega)
      rw [← Nat.pow_add] at hmul
      have hn' := Nat.mul_le_mul_right (2 ^ s) (show n / 2 ^ s + 1 ≤ 2 ^ 53 by omega)
      rw [← Nat.pow_add, Nat.add_mul, Nat.mul_comm] at hn'
      have hone : 0 < 2 ^ (53 + s) := Nat.two_pow_pos _
      exact iff_of_true (by omega) (by omega)
    · have hdigits := roundedDigits_lt_iff hs hhigh
      rw [← heq, show 53 + s - 54 = s - 1 by omega, ← hdigits, Nat.pow_add]
      exact Nat.mul_lt_mul_right (Nat.two_pow_pos _)
    · have hpow : 2 ^ k ≤ 2 ^ 52 * 2 ^ s := by
        rw [← Nat.pow_add]
        exact Nat.pow_le_pow_right (by decide) (by omega)
      have hmul := Nat.mul_le_mul_right (2 ^ s) (show 2 ^ 52 ≤ roundedDigits n s by omega)
      have hn' := Nat.mul_le_mul_right (2 ^ s) hlow
      rw [Nat.mul_comm (n / 2 ^ s)] at hn'
      exact iff_of_false (by omega) (by omega)

/-- Below a power of two of at most 53 digits nothing changes. -/
theorem roundDouble_lt_small {n k : Nat} (hk : k ≤ 53) : roundDouble n < 2 ^ k ↔ n < 2 ^ k := by
  have hpow : 2 ^ k ≤ 2 ^ 53 := Nat.pow_le_pow_right (by decide) hk
  by_cases hn : n < 2 ^ 53
  · rw [roundDouble_of_lt hn]
  · obtain ⟨hs, hlow, -⟩ := digits_split (Nat.le_of_not_lt hn)
    have hge := (roundedDigits_bounds n (Nat.log 2 n - 52)).1
    have hlarge : 2 ^ 53 ≤ roundDouble n := by
      rw [roundDouble, if_neg hn]
      exact Nat.mul_le_mul (hlow.trans hge) (Nat.le_self_pow hs.ne' 2)
    exact iff_of_false (by omega) (by omega)

end Pcl

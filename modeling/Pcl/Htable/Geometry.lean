import Pcl.Htable.Run

/-!
# The size of a table

With the default load factors: the capacity stays a power of two between `minTblSize` and `maxTblSize` and the live
entries stay below three quarters of it, however puts, removes and clears follow each other. A table is halved when a
fifth of it is live, so the smaller one has room; a table is doubled up to the largest capacity.
-/

namespace Pcl

open HTable Shape

variable {K V : Type}

namespace HTable

/-- What the size of a table may be. -/
structure Geometry (ht : HTable K V) : Prop where
  capacity_eq : ∃ k, 3 ≤ k ∧ k ≤ 30 ∧ ht.capacity = 2 ^ k
  mask_eq : ht.tableMask = ht.capacity - 1
  load_le : 4 * ht.count ≤ 3 * ht.capacity

/-- What holds along a run: the load factors are the default ones, and the table is well sized. -/
structure Sized (ht : HTable K V) : Prop extends Shape ht where
  min_eq : ht.minLoadfac = Pcl.minLoadfac
  max_eq : ht.maxLoadfac = Pcl.maxLoadfac
  min_le : minTblSize ≤ ht.capacity
  load_le : 4 * ht.count ≤ 3 * ht.capacity

namespace Sized
variable {ht ht' : HTable K V}

theorem sound (h : ht.Sized) : ht.Sound := ⟨h.toShape, by rw [h.min_eq]; exact minLoadfac_le_half⟩

theorem of_config (h : ht.Sized) (hs : ht'.Shape) (hcfg : ht.SameConfig ht') (hmin : minTblSize ≤ ht'.capacity)
    (hload : 4 * ht'.count ≤ 3 * ht'.capacity) : ht'.Sized :=
  ⟨hs, hcfg.minLoadfac.trans h.min_eq, hcfg.maxLoadfac.trans h.max_eq, hmin, hload⟩

theorem geometry (h : ht.Sized) : ht.Geometry := by
  obtain ⟨k, hk, hc⟩ := h.capacity_eq
  refine ⟨⟨k, ?_, hk, hc⟩, h.mask_eq, h.load_le⟩
  have hle : 2 ^ 3 ≤ 2 ^ k := hc ▸ h.min_le
  exact (Nat.pow_le_pow_iff_right (by decide)).1 hle

theorem growsOnPut_iff (h : ht.Sized) : ht.growsOnPut ↔ 3 * ht.capacity / 4 ≤ ht.count := by
  unfold growsOnPut
  rw [h.max_eq, maxLoadfac_threshold]

/-- A table is shrunk when it holds less than a quarter of its capacity. -/
theorem count_of_shrinks (h : ht.Sized) {n : Nat} (hs : ht.shrinksOnRemove n) : 4 * n < ht.capacity := by
  have hlt := hs.2
  rw [h.min_eq] at hlt
  change n < 13421773 * ht.capacity / 2 ^ 26 at hlt
  omega

theorem cores_count (h : ht.Shape) {l : List (UInt64 × K × Option V)} (hcores : ht.cores = l) : ht.count = l.length := by
  rw [h.count_eq, hcores]

/-! ### Steps -/

theorem put {key : K} {value : Option V} {unique : Bool} {e e' : ErrState} {r : Int} {l : List (K × Option V)} (h : ht.Sized)
    (hput : htablePut ht (some key) value unique e = some ((r, ht', l), e')) : ht'.Sized := by
  have hload := h.load_le
  have hmin : 8 ≤ ht.capacity := h.min_le
  obtain ⟨found, hw, hwalk⟩ := h.walkChain key
  cases hwalk with
  | absent hno =>
    by_cases hg : ht.growsOnPut
    · by_cases hcap : ht.capacity = maxTblSize
      · obtain ⟨_, hrun, -⟩ := put_limit hw hg hcap value unique e
        cases hrun.symm.trans hput
        exact h
      · obtain ⟨ht₁, hrun, hs, hcores, hcap₁, -, hcfg⟩ := h.put_grow hw hg hcap value unique e
        cases hrun.symm.trans hput
        have hdouble : 2 * ht.capacity ≤ ht.resized true := le_max_left _ _
        have hcount := cores_count hs hcores
        rw [List.length_append, ← h.count_eq, List.length_singleton] at hcount
        exact h.of_config hs hcfg (by rw [hcap₁]; exact le_max_right _ _) (by omega)
    · by_cases hroom : ht.countUsed < ht.capacity
      · obtain ⟨ht₁, hrun, hs, hcores, hcap₁, -, hcfg⟩ := h.put_add hw hg hroom value unique e
        cases hrun.symm.trans hput
        have hcount := cores_count hs hcores
        rw [List.length_append, ← h.count_eq, List.length_singleton] at hcount
        rw [h.growsOnPut_iff] at hg
        exact h.of_config hs hcfg (by rw [hcap₁]; exact hmin) (by omega)
      · rw [h.put_full hw hg (Nat.not_lt.1 hroom)] at hput
        cases hput
  | found hs hc hl hi he =>
    obtain ⟨-, hi, -, k, hk, -, -⟩ := (Walk.found hs hc hl hi he).liveAt
    rw [htablePut_present hw] at hput
    cases unique with
    | true =>
      cases hput
      exact h
    | false =>
      cases hput
      obtain ⟨hs', -, hcfg⟩ := h.toShape.replace hi hk key value
      exact h.of_config hs' hcfg hmin hload

theorem unlinked {key : K} {prev : Option Nat} {i : Nat} {ent : Entry K V} (h : ht.Sized)
    (hw : ht.walkChain key = some (some (prev, i, ent))) : (ht.unlinked key prev i ent).Sized := by
  obtain ⟨hcap, -, hcount⟩ := unlinked_eq ht key prev i ent
  obtain ⟨hu, -, hcfg⟩ := h.unlink (h.walkChain_some hw)
  have hload := h.load_le
  exact h.of_config hu hcfg (hcap.symm ▸ h.min_le) (by rw [hcap, hcount]; omega)

/-- Half of the capacity has room for the entries that are left. -/
theorem shrink {key : K} {prev : Option Nat} {i : Nat} {ent : Entry K V} (h : ht.Sized)
    (hw : ht.walkChain key = some (some (prev, i, ent))) (hs : ht.shrinksOnRemove (ht.count - 1)) (e : ErrState) :
    ∃ ht₂, ipclHtableRehash (ht.unlinked key prev i ent) false e = some ((0, ht₂), e) ∧ ht₂.Sized ∧
      ht₂.cores = (ht.unlinked key prev i ent).cores := by
  obtain ⟨hcap, -, hcount⟩ := unlinked_eq ht key prev i ent
  have hu := h.unlinked hw
  have hfew := h.count_of_shrinks hs
  have hmin : 8 ≤ ht.capacity := h.min_le
  have hle := h.capacity_le
  have hhalf : ht.capacity / 2 ≤ (ht.unlinked key prev i ent).resized false := by
    rw [← hcap]
    exact le_max_left _ _
  have hmax : (ht.unlinked key prev i ent).resized false ≤ maxTblSize :=
    max_le (by rw [hcap]; exact (Nat.div_le_self _ _).trans hle) (by decide)
  obtain ⟨ht₂, hre, hs₂, hcores, hcap₂, -, hcfg⟩ := hu.toShape.rehash hmax (by omega) e
  have hcount₂ := cores_count hs₂ hcores
  rw [← hu.count_eq, hcount] at hcount₂
  refine ⟨ht₂, hre, hu.of_config hs₂ hcfg (by rw [hcap₂]; exact le_max_right _ _) ?_, hcores⟩
  rw [hcap₂, hcount₂]
  omega

/-- A remove takes one entry out, and halves a table that is to be shrunk. -/
theorem remove {key : K} {e e' : ErrState} {r : Int} {l : List (K × Option V)} (h : ht.Sized)
    (hrem : htableRemove ht (some key) e = some ((r, ht', l), e')) : ht'.Sized := by
  obtain ⟨found, hw, hwalk⟩ := h.walkChain key
  cases hwalk with
  | absent hno =>
    rw [htableRemove_absent hw] at hrem
    cases hrem
    exact h
  | found hs hc hl hi he =>
    rw [htableRemove_present hw] at hrem
    by_cases hshrink : ht.shrinksOnRemove (ht.count - 1)
    · obtain ⟨ht₂, hre, h₂, -⟩ := h.shrink hw hshrink e
      rw [if_pos hshrink, hre] at hrem
      cases hrem
      exact h₂
    · rw [if_neg hshrink] at hrem
      cases hrem
      exact h.unlinked hw

theorem clear (h : ht.Sized) (shrink : Bool) : (htableClear ht shrink).1.Sized := by
  obtain ⟨hs, -, hcfg⟩ := h.toShape.clear shrink
  refine h.of_config hs hcfg ?_ (Nat.zero_le _)
  show minTblSize ≤ if shrink && ht.capacity != minTblSize then minTblSize else ht.capacity
  split
  · exact Nat.le_refl _
  · exact h.min_le

theorem exec (h : ht.Sized) {c : HCall K V} {e e' : ErrState} (hexec : c.exec ht e = some (ht', e')) : ht'.Sized := by
  obtain ⟨hput, ⟨e₁, hrem⟩, ⟨e₂, hlook⟩⟩ := exec_null ht e
  match c with
  | .put none value unique =>
    obtain ⟨e₀, hp⟩ := hput value unique
    cases hp.symm.trans hexec
    exact h
  | .put (some key) value unique =>
    obtain ⟨⟨⟨r, ht₁, l⟩, e₀⟩, hp, heq⟩ := Option.bind_eq_some_iff.1 hexec
    cases heq
    exact h.put hp
  | .remove none =>
    cases hrem.symm.trans hexec
    exact h
  | .remove (some key) =>
    obtain ⟨⟨⟨r, ht₁, l⟩, e₀⟩, hp, heq⟩ := Option.bind_eq_some_iff.1 hexec
    cases heq
    exact h.remove hp
  | .clear shrink =>
    cases hexec
    exact h.clear shrink
  | .lookup none =>
    cases hlook.symm.trans hexec
    exact h
  | .lookup (some key) =>
    obtain ⟨e₀, hl⟩ := h.sound.exec_lookup key e
    cases hl.symm.trans hexec
    exact h

theorem run (h : ht.Sized) {cs : List (HCall K V)} {e e' : ErrState} (hrun : ht.run cs e = some (ht', e')) : ht'.Sized := by
  induction cs generalizing ht e with
  | nil =>
    cases hrun
    exact h
  | cons c cs ih =>
    obtain ⟨⟨ht₁, e₁⟩, hc, hrest⟩ := Option.bind_eq_some_iff.1 hrun
    exact ih (h.exec hc) hrest

end Sized

theorem fresh_sized {capacity : Int} (hc : Accepted capacity) (keyLen : Nat) (removeEntry : Bool)
    (keyEquals : K → K → Nat → Bool) (hashcode : K → Nat → UInt64) :
    (freshTable (V := V) (roundCapacity capacity.toNat) keyLen removeEntry keyEquals hashcode).Sized := by
  have hlt : capacity.toNat < 2 ^ 32 := (le_roundCapacity capacity.toNat).trans_lt (hc.trans_lt (by decide))
  obtain ⟨k, hk, hround, -⟩ := roundCapacity_spec hlt
  refine ⟨(fresh_sound hc keyLen removeEntry keyEquals hashcode).toShape, rfl, rfl, ?_, Nat.zero_le _⟩
  show 2 ^ 3 ≤ roundCapacity capacity.toNat
  rw [hround]
  exact Nat.pow_le_pow_right (by decide) hk

/-- The halving rehash of a remove returns, with the entries that are left. -/
def ShrinksSafely (ht : HTable K V) : Prop :=
  ∀ key prev i ent, ht.walkChain key = some (some (prev, i, ent)) → ht.shrinksOnRemove (ht.count - 1) → ∀ e,
    ∃ ht', ipclHtableRehash (ht.unlinked key prev i ent) false e = some ((0, ht'), e) ∧
      ht'.live = (ht.unlinked key prev i ent).live

/-- A put that needs more than the largest capacity fails and changes nothing. -/
def RefusesToGrow (ht : HTable K V) : Prop :=
  ∀ key value unique, ht.walkChain key = some none → ht.growsOnPut → maxTblSize < 2 * ht.capacity → ∀ e,
    ∃ e', htablePut ht (some key) value unique e = some ((-1, ht, []), e') ∧ e'.err = eRange

/-- Every table that a run of a new one reaches is well sized, shrinks safely and refuses to grow too large. -/
theorem htable_geometry {capacity : Int} (hc : Accepted capacity) (keyLen : Nat) (removeEntry : Bool)
    (keyEquals : K → K → Nat → Bool) (hashcode : K → Nat → UInt64) (e : ErrState) :
    ∃ ht : HTable K V, htable capacity keyLen removeEntry keyEquals hashcode e = some (some ht, e) ∧
      ∀ cs ht' e', ht.run cs e = some (ht', e') →
        ht'.Geometry ∧ ht'.live.length = ht'.count ∧ ht'.ShrinksSafely ∧ ht'.RefusesToGrow := by
  refine ⟨_, htable_run hc keyLen removeEntry keyEquals hashcode e, fun cs ht' e' hrun => ?_⟩
  have h := (fresh_sized hc keyLen removeEntry keyEquals hashcode).run hrun
  refine ⟨h.geometry, h.live_length, fun key prev i ent hw hs e => ?_, fun key value unique hw hg hlimit e => ?_⟩
  · obtain ⟨ht₂, hre, -, hcores⟩ := h.shrink hw hs e
    exact ⟨ht₂, hre, by rw [live_eq, live_eq, hcores]⟩
  · obtain ⟨k, -, hk, hcap⟩ := h.geometry.capacity_eq
    have hk30 : ¬ k < 30 := fun hlt => by
      have hle : 2 ^ (k + 1) ≤ 2 ^ 30 := Nat.pow_le_pow_right (by decide) hlt
      rw [Nat.pow_succ, ← hcap] at hle
      unfold maxTblSize at hlimit
      omega
    obtain rfl : k = 30 := by omega
    exact put_limit hw hg hcap value unique e

theorem htable_geometry_hundred : ∃ ht : HTable Nat Nat,
    htable 100 0 false natEquals natHashcode .zero = some (some ht, .zero) ∧
      ∀ cs ht' e', ht.run cs .zero = some (ht', e') →
        ht'.Geometry ∧ ht'.live.length = ht'.count ∧ ht'.ShrinksSafely ∧ ht'.RefusesToGrow :=
  htable_geometry (show Accepted 100 from Nat.le_of_ble_eq_true rfl) 0 false natEquals natHashcode .zero

end HTable
end Pcl

import Pcl.Htable.Shape

/-!
# What the operations return

For a table in shape, each exported operation is resolved into its cases: the returned value, the
new table and the new error state. `pcl_htable_put` has four outcomes for an absent key: it adds the
entry, it grows the table first, it fails because the table cannot grow, or it has no place left for
the entry although the load factor does not ask for a rehash.
-/

namespace Pcl

open HTable Shape

variable {K V : Type} {ht : HTable K V} {key : K} {prev : Option Nat} {i : Nat} {ent : Entry K V}

/-- `pcl_htable_put` of an absent key rehashes first. -/
def HTable.growsOnPut (ht : HTable K V) : Prop := ht.count ≥ ht.maxLoadfac.threshold ht.capacity

/-- `pcl_htable_remove` rehashes, when it left `count` entries. -/
def HTable.shrinksOnRemove (ht : HTable K V) (count : Nat) : Prop :=
  ht.capacity ≠ minTblSize ∧ count < ht.minLoadfac.threshold ht.capacity

instance (ht : HTable K V) : Decidable ht.growsOnPut := by unfold HTable.growsOnPut; infer_instance

instance (ht : HTable K V) (count : Nat) : Decidable (ht.shrinksOnRemove count) := by
  unfold HTable.shrinksOnRemove; infer_instance

/-! ### Lookup -/

theorem ipclHtableLookup_found (hw : ht.walkChain key = some (some (prev, i, ent))) (e : ErrState) :
    ipclHtableLookup ht key e = some (some i, e) := by
  unfold ipclHtableLookup
  rw [hw]
  rfl

theorem ipclHtableLookup_absent (hw : ht.walkChain key = some none) (e : ErrState) :
    ipclHtableLookup ht key e =
      some (none, e.raised (loc "htable_lookup.c" "ipcl_htable_lookup" 71) eNotfound 0 none) := by
  unfold ipclHtableLookup
  rw [hw]
  exact setErrNull_run _ _ _ (by decide)

theorem htableLookup_found (hw : ht.walkChain key = some (some (prev, i, ent))) (e : ErrState) :
    htableLookup ht (some key) e = some (some i, e) := by
  simp only [htableLookup, ErrM.bind_run, ipclHtableLookup_found hw, Option.bind_some, ErrM.pure_run]

theorem htableLookup_absent (hw : ht.walkChain key = some none) (e : ErrState) :
    htableLookup ht (some key) e =
      some (none, (e.raised (loc "htable_lookup.c" "ipcl_htable_lookup" 71) eNotfound 0 none).traced
        (loc "htable_lookup.c" "pcl_htable_lookup" 43) none) := by
  simp only [htableLookup, ErrM.bind_run, ipclHtableLookup_absent hw, Option.bind_some, trcNull_run]

theorem htableGet_found (hw : ht.walkChain key = some (some (prev, i, ent)))
    (hi : ht.entries[i]? = some ent) (e : ErrState) :
    htableGet ht (some key) e = some (ent.value, e.cleared) := by
  simp only [htableGet, ErrM.bind_run, htableLookup_found hw, Option.bind_some, errClear_run, hi,
    ErrM.pure_run]

theorem htableGet_absent (hw : ht.walkChain key = some none) (e : ErrState) :
    ∃ e', htableGet ht (some key) e = some (none, e') ∧ (e.frozen = false → e'.err = eNotfound) := by
  refine ⟨_, by simp only [htableGet, ErrM.bind_run, htableLookup_absent hw, Option.bind_some, trcNull_run]; rfl, ?_⟩
  intro he
  rw [traced_err, traced_err, raised_err _ _ _ _ _ he]

/-! ### Put -/

/-- The lookup of `pcl_htable_put` leaves no error behind, and the state unfrozen. -/
theorem htablePut_present (hw : ht.walkChain key = some (some (prev, i, ent))) (value : Option V)
    (unique : Bool) (e : ErrState) :
    htablePut ht (some key) value unique e =
      if unique then some ((-1, ht, []), e.thawed.raised (loc "htable_put.c" "pcl_htable_put" 53) eExist 0 none)
      else some ((0, replaceEntry ht i key value), e.thawed) := by
  unfold htablePut
  simp only [ErrM.bind_run, errFreeze_run, Option.bind_some, ipclHtableLookup_found hw]
  cases unique with
  | true =>
    simp only [↓reduceIte, ErrM.bind_run, setErr_run _ _ _ (show eExist ≠ eOkay by decide),
      Option.bind_some, ErrM.pure_run]
    rfl
  | false => rfl

theorem htablePut_absent (hw : ht.walkChain key = some none) (value : Option V) (unique : Bool)
    (e : ErrState) : htablePut ht (some key) value unique e =
      (if ht.growsOnPut then ipclHtableRehash ht true e.thawed else some ((0, ht), e.thawed)).bind fun p =>
        if p.1.1 ≠ 0 then
          (trc (loc "htable_put.c" "pcl_htable_put" 74) p.2).bind fun q => some ((q.1, p.1.2, []), q.2)
        else (addEntry p.1.2 key value (p.1.2.hashcode key p.1.2.keyLen)).map fun ht' => ((0, ht', []), p.2) := by
  have hfrozen : ({ e with frozen := true } : ErrState).raised
      (loc "htable_lookup.c" "ipcl_htable_lookup" 71) eNotfound 0 none = { e with frozen := true } := rfl
  unfold htablePut
  simp only [ErrM.bind_run, errFreeze_run, Option.bind_some, ipclHtableLookup_absent hw, hfrozen]
  by_cases hg : ht.growsOnPut
  · rw [if_pos hg]
    unfold growsOnPut at hg
    rw [if_pos hg, ErrM.bind_run]
    congr 1
    funext p
    obtain ⟨⟨r, ht'⟩, e'⟩ := p
    by_cases hr : r ≠ 0
    · rw [if_pos hr, if_pos hr]
      rfl
    · rw [if_neg hr]
      simp only [hr, ↓reduceIte]
      cases addEntry ht' key value (ht'.hashcode key ht'.keyLen) <;> rfl
  · rw [if_neg hg]
    unfold growsOnPut at hg
    rw [if_neg hg, ErrM.bind_run]
    simp only [ErrM.pure_run, Option.bind_some, ne_eq, not_true_eq_false, ↓reduceIte]
    cases addEntry ht key value (ht.hashcode key ht.keyLen) <;> rfl

namespace HTable.Shape

theorem put_add (h : ht.Shape) (hw : ht.walkChain key = some none) (hg : ¬ ht.growsOnPut)
    (hroom : ht.countUsed < ht.capacity) (value : Option V) (unique : Bool) (e : ErrState) :
    ∃ ht', htablePut ht (some key) value unique e = some ((0, ht', []), e.thawed) ∧ ht'.Shape ∧
      ht'.cores = ht.cores ++ [(ht.hashcode key ht.keyLen, key, value)] ∧ ht'.capacity = ht.capacity ∧
      ht'.countUsed = ht.countUsed + 1 ∧ ht.SameConfig ht' := by
  obtain ⟨ht', hadd, h'⟩ := h.add hroom key value (ht.hashcode key ht.keyLen)
  refine ⟨ht', ?_, h'⟩
  rw [htablePut_absent hw, if_neg hg, Option.bind_some]
  simp only [ne_eq, not_true_eq_false, ↓reduceIte, hadd, Option.map_some]

theorem put_full (h : ht.Shape) (hw : ht.walkChain key = some none) (hg : ¬ ht.growsOnPut)
    (hfull : ht.capacity ≤ ht.countUsed) (value : Option V) (unique : Bool) (e : ErrState) :
    htablePut ht (some key) value unique e = none := by
  rw [htablePut_absent hw, if_neg hg, Option.bind_some]
  simp only [ne_eq, not_true_eq_false, ↓reduceIte, h.add_none hfull, Option.map_none]

theorem put_grow (h : ht.Shape) (hw : ht.walkChain key = some none) (hg : ht.growsOnPut)
    (hcap : ht.capacity ≠ maxTblSize) (value : Option V) (unique : Bool) (e : ErrState) :
    ∃ ht', htablePut ht (some key) value unique e = some ((0, ht', []), e.thawed) ∧ ht'.Shape ∧
      ht'.cores = ht.cores ++ [(ht.hashcode key ht.keyLen, key, value)] ∧
      ht'.capacity = ht.resized true ∧ ht'.countUsed = ht.count + 1 ∧ ht.SameConfig ht' := by
  have hused := h.linked.used_le
  have hcount := h.count_le
  have hpos := h.capacity_pos
  have hdouble : 2 * ht.capacity ≤ ht.resized true := le_max_left _ _
  have hmax : ht.resized true ≤ maxTblSize := by
    obtain ⟨k, hk, hc⟩ := h.capacity_eq
    have hk' : k ≠ 30 := fun hk' => hcap (by rw [hc, hk']; rfl)
    refine max_le ?_ (by decide)
    rw [if_pos rfl, hc, show 2 * 2 ^ k = 2 ^ (k + 1) by rw [Nat.pow_succ]; omega]
    exact Nat.pow_le_pow_right (by decide) (by omega)
  obtain ⟨ht₁, hre, h₁, hcores, hcap₁, hused₁, hcfg⟩ := h.rehash hmax (by omega) e.thawed
  obtain ⟨ht', hadd, h', hcores', hcap', hused', hcfg'⟩ :=
    h₁.add (by omega) key value (ht₁.hashcode key ht₁.keyLen)
  rw [hcores, hcfg.hashcode, hcfg.keyLen] at hcores'
  refine ⟨ht', ?_, h', hcores', by rw [hcap', hcap₁], by rw [hused', hused₁], hcfg.trans hcfg'⟩
  rw [htablePut_absent hw, if_pos hg, hre, Option.bind_some]
  simp only [ne_eq, not_true_eq_false, ↓reduceIte, hadd, Option.map_some]

theorem put_limit (hw : ht.walkChain key = some none) (hg : ht.growsOnPut)
    (hcap : ht.capacity = maxTblSize) (value : Option V) (unique : Bool) (e : ErrState) :
    ∃ e', htablePut ht (some key) value unique e = some ((-1, ht, []), e') ∧ e'.err = eRange := by
  obtain ⟨e₁, hre, hf, herr⟩ := rehash_limit hcap e.thawed rfl
  refine ⟨e₁.traced (loc "htable_put.c" "pcl_htable_put" 74) none, ?_, by rw [traced_err, herr]⟩
  have hr : (-1 : Int) ≠ 0 := by decide
  rw [htablePut_absent hw, if_pos hg, hre, Option.bind_some, if_pos hr, trc, errVtrace_run, hf, herr]
  rfl

end HTable.Shape

/-! ### Remove -/

theorem htableRemove_absent (hw : ht.walkChain key = some none) (e : ErrState) :
    htableRemove ht (some key) e = some (((ht.count : Int), ht, []), e) := by
  simp only [htableRemove, hw]
  rfl

/-- The table between the removal of the entry and the rehash. -/
def HTable.unlinked (ht : HTable K V) (key : K) (prev : Option Nat) (i : Nat) (ent : Entry K V) :
    HTable K V :=
  unlinkEntry ht (ht.hashIdx (ht.hashcode key ht.keyLen)) prev i ent

theorem unlinked_eq (ht : HTable K V) (key : K) (prev : Option Nat) (i : Nat) (ent : Entry K V) : (ht.unlinked key prev i ent).capacity = ht.capacity ∧
    (ht.unlinked key prev i ent).countUsed = ht.countUsed ∧
    (ht.unlinked key prev i ent).count = ht.count - 1 := by
  unfold unlinked
  rw [unlinkEntry_eq]
  exact ⟨rfl, rfl, rfl⟩

theorem htableRemove_present (hw : ht.walkChain key = some (some (prev, i, ent))) (e : ErrState) :
    htableRemove ht (some key) e =
      (if ht.shrinksOnRemove (ht.count - 1) then ipclHtableRehash (ht.unlinked key prev i ent) false e
        else some ((0, ht.unlinked key prev i ent), e)).bind fun p =>
        if p.1.1 < 0 then
          (trc (loc "htable_remove.c" "pcl_htable_remove" 68) p.2).bind fun q =>
            some ((q.1, p.1.2, ht.removed ((ent.key.map (·, ent.value)).toList)), q.2)
        else some ((p.1.2.count, p.1.2, ht.removed ((ent.key.map (·, ent.value)).toList)), p.2) := by
  obtain ⟨hcap, -, hcount⟩ := unlinked_eq ht key prev i ent
  have hmin : (ht.unlinked key prev i ent).minLoadfac = ht.minLoadfac := by
    unfold unlinked; rw [unlinkEntry_eq]
  simp only [htableRemove, hw]
  by_cases hs : ht.shrinksOnRemove (ht.count - 1)
  · rw [if_pos hs]
    unfold shrinksOnRemove at hs
    rw [← hcap, ← hcount, ← hmin] at hs
    rw [unlinked] at hs ⊢
    rw [if_pos hs, ErrM.bind_run]
    congr 1
    funext p
    obtain ⟨⟨r, ht'⟩, e'⟩ := p
    by_cases hr : r < 0
    · simp only [hr, ↓reduceIte]
      rfl
    · simp only [hr, ↓reduceIte]
      rfl
  · rw [if_neg hs]
    unfold shrinksOnRemove at hs
    rw [← hcap, ← hcount, ← hmin] at hs
    rw [unlinked] at hs ⊢
    rw [if_neg hs, ErrM.bind_run]
    rfl

/-- A shrunk table is none too large. -/
theorem HTable.Shape.shrunk_le (h : ht.Shape) : ht.resized false ≤ maxTblSize := by
  have := h.capacity_le
  exact max_le (by simp only [Bool.false_eq_true, ↓reduceIte]; omega) (by decide)

/-- Removing a present entry, when the shrunk table has room for the entries that stay. -/
theorem HTable.Shape.remove (h : ht.Shape) (hw : ht.walkChain key = some (some (prev, i, ent)))
    (hroom : ht.shrinksOnRemove (ht.count - 1) → ht.count - 1 ≤ ht.resized false) (e : ErrState) :
    ∃ ht', htableRemove ht (some key) e =
        some ((((ht.count - 1 : Nat) : Int), ht', ht.removed ((ent.key.map (·, ent.value)).toList)), e) ∧
      ht'.Shape ∧ ht'.cores = (ht.unlinked key prev i ent).cores ∧
      (ht'.capacity = ht.capacity ∧ ht'.countUsed = ht.countUsed ∨
        ht'.capacity = ht.resized false ∧ ht'.countUsed = ht.count - 1) ∧ ht.SameConfig ht' := by
  obtain ⟨hcap, hused, hcount⟩ := unlinked_eq ht key prev i ent
  obtain ⟨hu, -, hcfg⟩ := h.unlink (h.walkChain_some hw)
  change (ht.unlinked key prev i ent).Shape at hu
  have hr : ¬ (0 : Int) < 0 := by decide
  rw [htableRemove_present hw]
  by_cases hs : ht.shrinksOnRemove (ht.count - 1)
  · have hres : (ht.unlinked key prev i ent).resized false = ht.resized false := by
      unfold resized; rw [hcap]
    have hmax : ht.resized false ≤ maxTblSize := by
      have := h.capacity_le
      exact max_le (by simp only [Bool.false_eq_true, ↓reduceIte]; omega) (by decide)
    obtain ⟨ht', hre, h', hcores, hcap', hused', hcfg'⟩ :=
      hu.rehash (by rw [hres]; exact hmax) (by rw [hres, hcount]; exact hroom hs) e
    have hc' : ht'.count = ht.count - 1 := by rw [h'.count_eq, hcores, ← hu.count_eq, hcount]
    refine ⟨ht', ?_, h', hcores, .inr ⟨by rw [hcap', hres], by rw [hused', hcount]⟩, hcfg.trans hcfg'⟩
    rw [if_pos hs, hre, Option.bind_some, if_neg hr, hc']
  · refine ⟨ht.unlinked key prev i ent, ?_, hu, rfl, .inl ⟨hcap, hused⟩, hcfg⟩
    rw [if_neg hs, Option.bind_some, if_neg hr, hcount]

/-- Removing a present entry, when the shrunk table has no room. -/
theorem HTable.Shape.remove_overflow (h : ht.Shape) (hw : ht.walkChain key = some (some (prev, i, ent)))
    (hs : ht.shrinksOnRemove (ht.count - 1)) (hover : ht.resized false < ht.count - 1) (e : ErrState) :
    htableRemove ht (some key) e = none := by
  obtain ⟨hcap, -, hcount⟩ := unlinked_eq ht key prev i ent
  obtain ⟨hu, -, -⟩ := h.unlink (h.walkChain_some hw)
  change (ht.unlinked key prev i ent).Shape at hu
  have hres : (ht.unlinked key prev i ent).resized false = ht.resized false := by
    unfold resized; rw [hcap]
  have hmax := h.shrunk_le
  rw [htableRemove_present hw, if_pos hs,
    hu.rehash_overflow (by rw [hres]; exact hmax) (by rw [hres, hcount]; exact hover)]
  rfl

/-- A factor of at most one half never shrinks a table too far. -/
theorem HTable.shrink_room (hf : 2 * ht.minLoadfac.num ≤ 2 ^ ht.minLoadfac.shift) {n : Nat}
    (hs : ht.shrinksOnRemove n) : n ≤ ht.resized false := by
  have hlt := hs.2
  have hle := LoadFac.threshold_le_half hf ht.capacity
  have hmax : ht.capacity / 2 ≤ ht.resized false := le_max_left _ _
  omega

/-! ### Clear -/

theorem HTable.Shape.clear (h : ht.Shape) (shrink : Bool) :
    (htableClear ht shrink).1.Shape ∧ (htableClear ht shrink).1.cores = [] ∧
      ht.SameConfig (htableClear ht shrink).1 := by
  have hpow : ∃ k ≤ 30, (htableClear ht shrink).1.capacity = 2 ^ k := by
    show ∃ k ≤ 30, (if shrink && ht.capacity != minTblSize then minTblSize else ht.capacity) = 2 ^ k
    split
    · exact ⟨3, by decide, rfl⟩
    · exact h.capacity_eq
  have hmask : (htableClear ht shrink).1.tableMask = (htableClear ht shrink).1.capacity - 1 := by
    show (if shrink && ht.capacity != minTblSize then minTblSize - 1 else ht.tableMask) =
      (if shrink && ht.capacity != minTblSize then minTblSize else ht.capacity) - 1
    split
    · rfl
    · exact h.mask_eq
  obtain ⟨hshape, hcores⟩ := Shape.init _ hpow rfl rfl rfl hmask rfl rfl
  exact ⟨hshape, hcores, ⟨rfl, rfl, rfl, rfl, rfl, rfl⟩⟩

end Pcl

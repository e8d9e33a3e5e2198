import Pcl.Htable.Spec

/-!
# Runs of a table

Whole runs of calls on a table with arbitrary callbacks. Shape is kept by every call that returns, and
a call fails to return in one case: `pcl_htable_put` tests `count` against the load factor but inserts
at `count_used`, and the slots of removed entries are used up until the next rehash. `StepOk` is the
condition under which a put does not run into that.
-/

namespace Pcl

open HTable Shape

variable {K V : Type}

/-- A call of the application. -/
inductive HCall (K V : Type) where
  | put (key : Option K) (value : Option V) (unique : Bool)
  | remove (key : Option K)
  | clear (shrink : Bool)
  | lookup (key : Option K)

/-- The table after a call. -/
def HCall.exec (ht : HTable K V) : HCall K V → ErrM (HTable K V)
  | .put key value unique => do
    let (_, ht, _) ← htablePut ht key value unique
    return ht
  | .remove key => do
    let (_, ht, _) ← htableRemove ht key
    return ht
  | .clear shrink => return (htableClear ht shrink).1
  | .lookup key => do
    let _ ← htableLookup ht key
    return ht

/-- The table after a sequence of calls. -/
def HTable.run (ht : HTable K V) : List (HCall K V) → ErrM (HTable K V)
  | [] => return ht
  | c :: cs => do
    let ht ← c.exec ht
    ht.run cs

/-- A put adds a new entry. -/
def HCall.Inserts (ht : HTable K V) : HCall K V → Prop
  | .put (some key) _ _ => ht.walkChain key = some none ∧ ¬ (ht.growsOnPut ∧ ht.capacity = maxTblSize)
  | _ => False

/-- The index at which `pcl_htable_put` stores a new entry: a rehash moves the live entries together. -/
def HTable.insertIndex (ht : HTable K V) : Nat := if ht.growsOnPut then ht.count else ht.countUsed

/-- The capacity at that moment. -/
def HTable.insertCapacity (ht : HTable K V) : Nat := if ht.growsOnPut then ht.resized true else ht.capacity

/-- Every call of the run returns, inserts below the capacity and keeps the counters in order. -/
def HTable.SafeRun (ht : HTable K V) (cs : List (HCall K V)) (e : ErrState) : Prop :=
  ∀ pre c post, cs = pre ++ c :: post → ∃ ht₁ e₁ ht₂ e₂, ht.run pre e = some (ht₁, e₁) ∧
    c.exec ht₁ e₁ = some (ht₂, e₂) ∧ (c.Inserts ht₁ → ht₁.insertIndex < ht₁.insertCapacity) ∧
    ht₂.count ≤ ht₂.countUsed ∧ ht₂.countUsed ≤ ht₂.capacity

/-- The deleted slots among the used ones. -/
def HTable.deleted (ht : HTable K V) : Nat :=
  (List.range ht.countUsed).countP fun i => (ht.entries[i]?.bind Entry.key).isNone

/-- A put of an absent key below the load factor finds fewer deleted slots than places left. -/
def HTable.StepOk (ht : HTable K V) : HCall K V → Prop
  | .put (some key) _ _ => ht.walkChain key = some none → ¬ ht.growsOnPut → ht.deleted < ht.capacity - ht.count
  | _ => True

/-- Every step of the run meets `StepOk` in the table it is made on. -/
def HTable.StepsOk (ht : HTable K V) (cs : List (HCall K V)) (e : ErrState) : Prop :=
  ∀ pre c post, cs = pre ++ c :: post → ∀ ht₁ e₁, ht.run pre e = some (ht₁, e₁) → ht₁.StepOk c

namespace HTable
variable {ht : HTable K V}

theorem Shape.used_eq (h : ht.Shape) : ht.countUsed = ht.count + ht.deleted := by
  have hlive : ht.count = (List.range ht.countUsed).countP fun i => (liveAt ht.entries i).isSome := by
    rw [h.count_eq, cores, List.length_filterMap_eq_countP]
  have hdel : ht.deleted = (List.range ht.countUsed).countP fun i => !(liveAt ht.entries i).isSome := by
    unfold deleted
    refine List.countP_congr fun i _ => ?_
    unfold liveAt coreAt
    cases ht.entries[i]? with
    | none => simp
    | some e => cases hk : e.key <;> simp [hk]
  have htot := List.length_eq_countP_add_countP (fun i => (liveAt ht.entries i).isSome) (l := List.range ht.countUsed)
  simp only [List.length_range, Bool.not_eq_true, Bool.decide_eq_false] at htot
  omega

theorem Shape.stepOk_iff (h : ht.Shape) {key : K} {value : Option V} {unique : Bool} :
    ht.StepOk (.put (some key) value unique) ↔
      (ht.walkChain key = some none → ¬ ht.growsOnPut → ht.countUsed < ht.capacity) := by
  have hused := h.used_eq
  unfold StepOk
  constructor
  · intro hok hw hg
    have := hok hw hg
    omega
  · intro hok hw hg
    have := hok hw hg
    omega

/-- What holds of a table along a run: its shape, and a `min_loadfac` that shrinks safely. -/
structure Sound (ht : HTable K V) : Prop extends Shape ht where
  factor : 2 * ht.minLoadfac.num ≤ 2 ^ ht.minLoadfac.shift

theorem Sound.of_config {ht' : HTable K V} (h : ht.Sound) (hs : ht'.Shape) (hcfg : ht.SameConfig ht') :
    ht'.Sound :=
  ⟨hs, by rw [hcfg.minLoadfac]; exact h.factor⟩

theorem Sound.counts (h : ht.Sound) : ht.count ≤ ht.countUsed ∧ ht.countUsed ≤ ht.capacity :=
  ⟨h.count_le, h.linked.used_le⟩

theorem Sound.exec_put (h : ht.Sound) {key : K} {value : Option V} {unique : Bool}
    (hok : ht.StepOk (.put (some key) value unique)) (e : ErrState) :
    ∃ ht' e', (HCall.put (some key) value unique).exec ht e = some (ht', e') ∧ ht'.Sound := by
  have hexec : ∀ {r ht' l e'}, htablePut ht (some key) value unique e = some ((r, ht', l), e') →
      (HCall.put (some key) value unique).exec ht e = some (ht', e') := by
    intro r ht' l e' hput
    simp only [HCall.exec, ErrM.bind_run, hput, Option.bind_some, ErrM.pure_run]
  obtain ⟨r, hr, hw⟩ := h.walkChain key
  cases hw with
  | absent hno =>
    by_cases hg : ht.growsOnPut
    · by_cases hcap : ht.capacity = maxTblSize
      · obtain ⟨e', hput, -⟩ := put_limit hr hg hcap value unique e
        exact ⟨ht, e', hexec hput, h⟩
      · obtain ⟨ht', hput, hs, -, -, -, hcfg⟩ := h.put_grow hr hg hcap value unique e
        exact ⟨ht', _, hexec hput, h.of_config hs hcfg⟩
    · obtain ⟨ht', hput, hs, -, -, -, hcfg⟩ := h.put_add hr hg (h.stepOk_iff.1 hok hr hg) value unique e
      exact ⟨ht', _, hexec hput, h.of_config hs hcfg⟩
  | found hs hc hl hi he =>
    obtain ⟨-, hi, -, k, hk, -, -⟩ := (Walk.found hs hc hl hi he).liveAt
    have hput := htablePut_present hr value unique e
    cases unique with
    | true => exact ⟨ht, _, hexec hput, h⟩
    | false =>
      obtain ⟨hs', -, hcfg⟩ := h.toShape.replace hi hk key value
      exact ⟨_, _, hexec hput, h.of_config hs' hcfg⟩

theorem Sound.exec_remove (h : ht.Sound) (key : K) (e : ErrState) :
    ∃ ht' e', (HCall.remove (some key)).exec ht e = some (ht', e') ∧ ht'.Sound := by
  obtain ⟨r, hr, hw⟩ := h.walkChain key
  cases hw with
  | absent hno =>
    refine ⟨ht, e, ?_, h⟩
    simp only [HCall.exec, ErrM.bind_run, htableRemove_absent hr, Option.bind_some, ErrM.pure_run]
  | found hs hc hl hi he =>
    obtain ⟨ht', hrem, hs', -, -, hcfg⟩ := h.remove hr (fun hsh => shrink_room h.factor hsh) e
    refine ⟨ht', e, ?_, h.of_config hs' hcfg⟩
    simp only [HCall.exec, ErrM.bind_run, hrem, Option.bind_some, ErrM.pure_run]

theorem Sound.exec_lookup (h : ht.Sound) (key : K) (e : ErrState) :
    ∃ e', (HCall.lookup (some key)).exec ht e = some (ht, e') := by
  obtain ⟨r, hr, hw⟩ := h.walkChain key
  cases hw with
  | absent hno =>
    simp only [HCall.exec, ErrM.bind_run, htableLookup_absent hr, Option.bind_some, ErrM.pure_run]
    exact ⟨_, rfl⟩
  | found hs hc hl hi he =>
    simp only [HCall.exec, ErrM.bind_run, htableLookup_found hr, Option.bind_some, ErrM.pure_run]
    exact ⟨_, rfl⟩

/-- A call with a `NULL` key changes nothing. -/
theorem exec_null (ht : HTable K V) (e : ErrState) :
    (∀ value unique, ∃ e', (HCall.put none value unique).exec ht e = some (ht, e')) ∧
    (∃ e', (HCall.remove none).exec ht e = some (ht, e')) ∧
    ∃ e', (HCall.lookup none).exec ht e = some (ht, e') := by
  simp only [HCall.exec, ErrM.bind_run, htablePut, htableRemove, htableLookup, badArg_run,
    setErrNull_run _ _ _ (show eInval ≠ eOkay by decide), Option.bind_some, ErrM.pure_run]
  exact ⟨fun _ _ => ⟨_, rfl⟩, ⟨_, rfl⟩, ⟨_, rfl⟩⟩

/-- One step: a call that meets `StepOk` returns a sound table. -/
theorem Sound.exec (h : ht.Sound) {c : HCall K V} (hok : ht.StepOk c) (e : ErrState) :
    ∃ ht' e', c.exec ht e = some (ht', e') ∧ ht'.Sound := by
  obtain ⟨hput, ⟨e₁, hrem⟩, ⟨e₂, hlook⟩⟩ := exec_null ht e
  match c with
  | .put none value unique =>
    obtain ⟨e', hp⟩ := hput value unique
    exact ⟨ht, e', hp, h⟩
  | .put (some key) value unique => exact h.exec_put hok e
  | .remove none => exact ⟨ht, e₁, hrem, h⟩
  | .remove (some key) => exact h.exec_remove key e
  | .clear shrink =>
    obtain ⟨hs, -, hcfg⟩ := h.clear shrink
    exact ⟨_, e, rfl, h.of_config hs hcfg⟩
  | .lookup none => exact ⟨ht, e₂, hlook, h⟩
  | .lookup (some key) =>
    obtain ⟨e', hl⟩ := h.exec_lookup key e
    exact ⟨ht, e', hl, h⟩

/-- A call that returns met `StepOk`. -/
theorem Sound.stepOk_of_exec (h : ht.Sound) {c : HCall K V} {e e' : ErrState} {ht' : HTable K V}
    (hc : c.exec ht e = some (ht', e')) : ht.StepOk c := by
  match c with
  | .put (some key) value unique =>
    refine h.stepOk_iff.2 fun hw hg => ?_
    by_contra hfull
    have hnone := h.put_full hw hg (Nat.not_lt.1 hfull) value unique e
    simp only [HCall.exec, ErrM.bind_run, hnone, Option.bind_none] at hc
    cases hc
  | .put none _ _ | .remove _ | .clear _ | .lookup _ => trivial

/-- A new entry of a call that meets `StepOk` is stored below the capacity. -/
theorem Sound.insertIndex_lt (h : ht.Sound) {c : HCall K V} (hok : ht.StepOk c) (hi : c.Inserts ht) :
    ht.insertIndex < ht.insertCapacity := by
  match c with
  | .put (some key) value unique =>
    obtain ⟨hw, -⟩ := hi
    unfold insertIndex insertCapacity
    by_cases hg : ht.growsOnPut
    · rw [if_pos hg, if_pos hg]
      have hdouble : 2 * ht.capacity ≤ ht.resized true := le_max_left _ _
      have hpos := h.capacity_pos
      have hcounts := h.counts
      omega
    · rw [if_neg hg, if_neg hg]
      exact h.stepOk_iff.1 hok hw hg

/-- The table after a run that returned is sound. -/
theorem Sound.of_run (h : ht.Sound) {cs : List (HCall K V)} {e e' : ErrState} {ht' : HTable K V}
    (hrun : ht.run cs e = some (ht', e')) : ht'.Sound := by
  induction cs generalizing ht e with
  | nil =>
    cases hrun
    exact h
  | cons c cs ih =>
    obtain ⟨⟨ht₁, e₁⟩, hc, hrest⟩ := Option.bind_eq_some_iff.1 hrun
    obtain ⟨ht₁', e₁', hc', h₁⟩ := h.exec (h.stepOk_of_exec hc) e
    rw [hc] at hc'
    cases hc'
    exact ih h₁ hrest

theorem Sound.run (h : ht.Sound) {cs : List (HCall K V)} {e : ErrState} (hok : ht.StepsOk cs e) :
    ∃ ht' e', ht.run cs e = some (ht', e') ∧ ht'.Sound := by
  induction cs generalizing ht e with
  | nil => exact ⟨ht, e, rfl, h⟩
  | cons c cs ih =>
    obtain ⟨ht₁, e₁, hc, h₁⟩ := h.exec (hok [] c cs rfl ht e rfl) e
    have hok₁ : ht₁.StepsOk cs e₁ := by
      intro pre d post hcs ht₂ e₂ hrun
      refine hok (c :: pre) d post (by rw [hcs]; rfl) ht₂ e₂ ?_
      show ((c.exec ht e).bind fun p => p.1.run pre p.2) = _
      rw [hc]
      exact hrun
    obtain ⟨ht', e', hrun, h'⟩ := ih h₁ hok₁
    refine ⟨ht', e', ?_, h'⟩
    show ((c.exec ht e).bind fun p => p.1.run cs p.2) = _
    rw [hc]
    exact hrun

theorem StepsOk.of_append {pre post : List (HCall K V)} {e : ErrState} (hok : ht.StepsOk (pre ++ post) e) :
    ht.StepsOk pre e := by
  intro pre' c post' hpre
  exact hok pre' c (post' ++ post) (by rw [hpre]; simp)

theorem Sound.safeRun_iff (h : ht.Sound) (cs : List (HCall K V)) (e : ErrState) :
    ht.SafeRun cs e ↔ ht.StepsOk cs e := by
  constructor
  · intro hsafe pre c post hcs ht₁ e₁ hrun
    obtain ⟨ht₁', e₁', ht₂, e₂, hrun', hexec, -⟩ := hsafe pre c post hcs
    rw [hrun] at hrun'
    cases hrun'
    exact (h.of_run hrun).stepOk_of_exec hexec
  · intro hok pre c post hcs
    have hpre : ht.StepsOk pre e := (hcs ▸ hok).of_append
    obtain ⟨ht₁, e₁, hrun, h₁⟩ := h.run hpre
    have hstep := hok pre c post hcs ht₁ e₁ hrun
    obtain ⟨ht₂, e₂, hexec, h₂⟩ := h₁.exec hstep e₁
    exact ⟨ht₁, e₁, ht₂, e₂, hrun, hexec, h₁.insertIndex_lt hstep, h₂.counts⟩

/-! ### Runs of a new table -/

/-- The initial capacities that `pcl_htable` accepts. -/
def Accepted (capacity : Int) : Prop := roundCapacity capacity.toNat ≤ maxTblSize

theorem htable_run {capacity : Int} (hc : Accepted capacity) (keyLen : Nat) (removeEntry : Bool)
    (keyEquals : K → K → Nat → Bool) (hashcode : K → Nat → UInt64) (e : ErrState) :
    htable capacity keyLen removeEntry keyEquals hashcode e = some (some (freshTable (V := V)
      (roundCapacity capacity.toNat) keyLen removeEntry keyEquals hashcode), e) := by
  have hneg : (if capacity < 0 then 0 else capacity.toNat) = capacity.toNat := by
    split <;> omega
  have hchk : ipclHtableChkcapacity capacity.toNat e = some ((roundCapacity capacity.toNat : Int), e) := by
    unfold ipclHtableChkcapacity
    rw [if_neg (Nat.not_lt.2 hc)]
    rfl
  unfold htable
  rw [hneg, ErrM.bind_run, hchk, Option.bind_some]
  simp only [Int.not_ofNat_neg, ↓reduceIte, Int.toNat_natCast, ErrM.pure_run]

theorem fresh_sound {capacity : Int} (hc : Accepted capacity) (keyLen : Nat) (removeEntry : Bool)
    (keyEquals : K → K → Nat → Bool) (hashcode : K → Nat → UInt64) :
    (freshTable (V := V) (roundCapacity capacity.toNat) keyLen removeEntry keyEquals hashcode).Sound := by
  have hle := le_roundCapacity capacity.toNat
  have hlt : capacity.toNat < 2 ^ 32 := hle.trans_lt (hc.trans_lt (by decide))
  obtain ⟨k, -, hk, -⟩ := roundCapacity_spec hlt
  have hk30 : k ≤ 30 := by
    have hmax : 2 ^ k ≤ 2 ^ 30 := hk ▸ hc
    exact (Nat.pow_le_pow_iff_right (by decide)).1 hmax
  exact ⟨(fresh_shape ⟨k, hk30, hk⟩ keyLen removeEntry keyEquals hashcode).1, minLoadfac_le_half⟩

/-- A run of a new table stores every entry inside `entries` exactly when no put of an absent key
below the load factor finds as many deleted slots as places left. -/
theorem htable_safeRun_iff {capacity : Int} (hc : Accepted capacity) (keyLen : Nat) (removeEntry : Bool)
    (keyEquals : K → K → Nat → Bool) (hashcode : K → Nat → UInt64) (e : ErrState) :
    ∃ ht : HTable K V, htable capacity keyLen removeEntry keyEquals hashcode e = some (some ht, e) ∧
      ∀ cs, ht.SafeRun cs e ↔ ht.StepsOk cs e :=
  ⟨_, htable_run hc keyLen removeEntry keyEquals hashcode e,
    fun cs => (fresh_sound hc keyLen removeEntry keyEquals hashcode).safeRun_iff cs e⟩

theorem htable_safeRun_iff_eight : ∃ ht : HTable Nat Nat,
    htable 0 0 false natEquals natHashcode ErrState.zero = some (some ht, ErrState.zero) ∧
      ∀ cs, ht.SafeRun cs ErrState.zero ↔ ht.StepsOk cs ErrState.zero :=
  htable_safeRun_iff (show Accepted 0 from Nat.le_of_ble_eq_true rfl) 0 false natEquals natHashcode ErrState.zero

/-- Eight times a put and a remove of the same key, and one more put. -/
def churn : List (HCall Nat Nat) :=
  (List.replicate 8 [HCall.put (some 0) (some 0) true, .remove (some 0)]).flatten ++ [.put (some 0) (some 0) true]

/-- The ninth entry of a table of eight is written past `entries`. -/
theorem churn_overflows : ∃ ht : HTable Nat Nat,
    htable 0 0 false natEquals natHashcode ErrState.zero = some (some ht, ErrState.zero) ∧
      ¬ ht.SafeRun churn ErrState.zero := by
  refine ⟨freshTable 8 0 false natEquals natHashcode, rfl, ?_⟩
  intro hsafe
  obtain ⟨ht₁, e₁, ht₂, e₂, hrun, hexec, -⟩ := hsafe (churn.take 16) (.put (some 0) (some 0) true) [] rfl
  have hnone : (((freshTable 8 0 false natEquals natHashcode).run (churn.take 16)
      ErrState.zero).bind fun p => (HCall.put (some 0) (some 0) true).exec p.1 p.2).isNone = true := by
    decide +kernel
  rw [hrun, Option.bind_some, hexec] at hnone
  cases hnone

end HTable
end Pcl

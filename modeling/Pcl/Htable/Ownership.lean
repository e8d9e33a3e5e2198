import Pcl.Htable.Run
import Pcl.Lib.Ledger

/-!
# Entries owned by a table

The calls of `remove_entry` over a run. `Ends` says what each call owes: an overwriting put the pair it replaces, a
removal the pair it finds, a clear all pairs, any other call none. So each step is balanced: the pairs that the table
held, and the one a put was accepted with, are those passed to the callback and those still held. This asks nothing of
the other callbacks, only that insertions are in range.
-/

namespace Pcl

open HTable Shape Ledger

variable {K V : Type}

/-- What `pcl_htable_free` passes to `remove_entry`. -/
def htableFree (ht : HTable K V) : List (K × Option V) := ht.removed ht.live

/-- A call that changes a table, or whatever else happens to the error state between two of them. -/
inductive OwnCall (K V : Type) where
  | put (key : Option K) (value : Option V) (unique : Bool)
  | remove (key : Option K)
  | clear (shrink : Bool)
  | rehash (grow : Bool)
  | between (e : ErrState)

namespace OwnCall

/-- The pair a put was accepted with. -/
def accepted (key : Option K) (value : Option V) (r : Int) : List (K × Option V) :=
  if r = 0 then (key.map (·, value)).toList else []

/-- The table after a call, the pairs accepted and the pairs passed to `remove_entry`. -/
def exec (ht : HTable K V) : OwnCall K V → ErrM (HTable K V × List (K × Option V) × List (K × Option V))
  | put key value unique => do
    let (r, ht, passed) ← htablePut ht key value unique
    return (ht, accepted key value r, passed)
  | remove key => do
    let (_, ht, passed) ← htableRemove ht key
    return (ht, [], passed)
  | clear shrink => return ((htableClear ht shrink).1, [], (htableClear ht shrink).2)
  | rehash grow => do
    let (_, ht) ← ipclHtableRehash ht grow
    return (ht, [], [])
  | between e => fun _ => some ((ht, [], []), e)

/-- Every entry the call stores goes into a slot of its array. A rehash by itself that finds the table too large
reports that in the error state. -/
def InRange (ht : HTable K V) (e : ErrState) : OwnCall K V → Prop
  | put (some key) _ _ => ht.walkChain key = some none → ¬ (ht.growsOnPut ∧ ht.capacity = maxTblSize) →
      ht.insertIndex < ht.insertCapacity
  | remove (some key) => ht.walkChain key ≠ some none → ht.shrinksOnRemove (ht.count - 1) →
      ht.count - 1 ≤ ht.resized false
  | rehash grow => ht.count ≤ ht.resized grow ∧ (ht.resized grow ≤ maxTblSize ∨ e.frozen = false)
  | _ => True

end OwnCall

/-- The table after a run, all pairs accepted and all passed to `remove_entry`. -/
def HTable.ownRun (ht : HTable K V) :
    List (OwnCall K V) → ErrM (HTable K V × List (K × Option V) × List (K × Option V))
  | [] => return (ht, [], [])
  | c :: cs => do
    let (ht, taken, gone) ← c.exec ht
    let (ht, taken', gone') ← ht.ownRun cs
    return (ht, taken ++ taken', gone ++ gone')

/-- Every call of the run is in range on the table it is made on. -/
def HTable.RunInRange (ht : HTable K V) : List (OwnCall K V) → ErrState → Prop
  | [], _ => True
  | c :: cs, e => c.InRange ht e ∧ ∀ p ∈ c.exec ht e, p.1.1.RunInRange cs p.2

instance (ht : HTable K V) (key : K) : Decidable (ht.walkChain key = some none) :=
  match ht.walkChain key with
  | some none => isTrue rfl
  | some (some _) => isFalse fun h => nomatch h
  | none => isFalse fun h => nomatch h

instance (ht : HTable K V) (e : ErrState) : (c : OwnCall K V) → Decidable (c.InRange ht e)
  | .put (some key) _ _ => inferInstanceAs (Decidable (ht.walkChain key = some none →
      ¬ (ht.growsOnPut ∧ ht.capacity = maxTblSize) → ht.insertIndex < ht.insertCapacity))
  | .remove (some key) => inferInstanceAs (Decidable (ht.walkChain key ≠ some none →
      ht.shrinksOnRemove (ht.count - 1) → ht.count - 1 ≤ ht.resized false))
  | .rehash grow => inferInstanceAs (Decidable (ht.count ≤ ht.resized grow ∧
      (ht.resized grow ≤ maxTblSize ∨ e.frozen = false)))
  | .put none _ _ | .remove none | .clear _ | .between _ => isTrue trivial

instance : (cs : List (OwnCall K V)) → (ht : HTable K V) → (e : ErrState) → Decidable (ht.RunInRange cs e)
  | [], _, _ => isTrue trivial
  | c :: cs, ht, e =>
    have : DecidablePred fun p : (HTable K V × List (K × Option V) × List (K × Option V)) × ErrState =>
      p.1.1.RunInRange cs p.2 := fun p => instDecidableRunInRange cs p.1.1 p.2
    inferInstanceAs (Decidable (c.InRange ht e ∧ ∀ p ∈ c.exec ht e, p.1.1.RunInRange cs p.2))

namespace HTable
variable {ht ht' : HTable K V}

/-- What holds of a table along a run. -/
structure Owning (ht : HTable K V) : Prop extends Shape ht where
  callback : ht.removeEntry = true

namespace Owning

theorem of_config (h : ht.Owning) (hs : ht'.Shape) (hcfg : ht.SameConfig ht') : ht'.Owning :=
  ⟨hs, by rw [hcfg.removeEntry, h.callback]⟩

theorem removed_eq (h : ht.Owning) (l : List (K × Option V)) : ht.removed l = l := if_pos h.callback

end Owning

theorem live_congr (h : ht'.cores = ht.cores) : ht'.live = ht.live := by
  rw [live_eq, live_eq, h]

theorem live_append {code : UInt64} {key : K} {value : Option V} (h : ht'.cores = ht.cores ++ [(code, key, value)]) :
    ht'.live = ht.live ++ [(key, value)] := by
  rw [live_eq, live_eq, h, List.map_append]
  rfl

/-- A slot's entry is exchanged for another. -/
theorem live_update (hused : ht'.countUsed = ht.countUsed) {i : Nat} (hi : i < ht.countUsed)
    (h : ∀ j, j ≠ i → liveAt ht'.entries j = liveAt ht.entries j) :
    Balanced ht.live ((liveAt ht'.entries i).map Prod.snd).toList ((liveAt ht.entries i).map Prod.snd).toList
      ht'.live := by
  rw [live_eq_filterMap, live_eq_filterMap, hused]
  refine balanced_update (f := fun j => (liveAt ht.entries j).map Prod.snd)
    (g := fun j => (liveAt ht'.entries j).map Prod.snd) List.nodup_range (List.mem_range.2 hi) fun j _ hj => ?_
  exact congrArg (Option.map Prod.snd) (h j hj)

end HTable

/-! ### Steps -/

namespace OwnCall
variable {ht : HTable K V}

/-- An entry of the table that a key stands for: one of its hash code whose key the callback takes for it. -/
def Under (ht : HTable K V) (key : K) (c : UInt64 × K × Option V) : Prop :=
  c ∈ ht.cores ∧ c.1 = ht.hashcode key ht.keyLen ∧ ht.keyEquals c.2.1 key ht.keyLen = true

/-- What each call does with the pairs of a table, by the entry it finds under its key: the pair it is accepted with,
the pairs whose ownership ends with it, which are those passed to `remove_entry`, and the pairs the table holds
afterwards. -/
inductive Ends (ht : HTable K V) :
    OwnCall K V → List (K × Option V) → List (K × Option V) → List (K × Option V) → Prop
  | added {key : K} (value : Option V) (unique : Bool) (h : ∀ c, ¬ Under ht key c) :
      Ends ht (.put (some key) value unique) [(key, value)] [] (ht.live ++ [(key, value)])
  | full {key : K} (value : Option V) (unique : Bool) (h : ∀ c, ¬ Under ht key c)
      (hfull : ht.growsOnPut ∧ ht.capacity = maxTblSize) : Ends ht (.put (some key) value unique) [] [] ht.live
  | refused {key : K} (value : Option V) {c : UInt64 × K × Option V} (h : Under ht key c) :
      Ends ht (.put (some key) value true) [] [] ht.live
  | overwritten {key : K} (value : Option V) {c : UInt64 × K × Option V} (h : Under ht key c)
      {after : List (K × Option V)} (hafter : (ht.live ++ [(key, value)]).Perm (c.2 :: after)) :
      Ends ht (.put (some key) value false) [(key, value)] [c.2] after
  | unkeyed (value : Option V) (unique : Bool) : Ends ht (.put none value unique) [] [] ht.live
  | removed {key : K} {c : UInt64 × K × Option V} (h : Under ht key c)
      {after : List (K × Option V)} (hafter : ht.live.Perm (c.2 :: after)) : Ends ht (.remove (some key)) [] [c.2] after
  | missing {key : K} (h : ∀ c, ¬ Under ht key c) : Ends ht (.remove (some key)) [] [] ht.live
  | nameless : Ends ht (.remove none) [] [] ht.live
  | cleared (shrink : Bool) : Ends ht (.clear shrink) [] ht.live []
  | rehashed (grow : Bool) : Ends ht (.rehash grow) [] [] ht.live
  | between (e : ErrState) : Ends ht (.between e) [] [] ht.live

theorem Ends.balanced {c : OwnCall K V} {taken gone after : List (K × Option V)} (h : Ends ht c taken gone after) :
    Balanced ht.live taken gone after := by
  cases h with
  | added => exact .add _ _
  | overwritten _ _ hafter => exact hafter
  | removed _ hafter => exact Balanced.out_iff.2 hafter
  | cleared => exact .drain _
  | _ => exact .refl _

/-- A call returns an owning table, and ends the pairs it should. -/
def Accounts (c : OwnCall K V) (ht : HTable K V) (e : ErrState) : Prop :=
  ∃ ht' taken gone e', c.exec ht e = some ((ht', taken, gone), e') ∧ ht'.Owning ∧ Ends ht c taken gone ht'.live

theorem not_under {key : K} (hw : Walk ht key none) (c : UInt64 × K × Option V) : ¬ Under ht key c := by
  rintro ⟨hmem, hcode, heq⟩
  rcases hw with ⟨hno⟩
  obtain ⟨i, hi, hlive⟩ := mem_cores.1 hmem
  have hcore := liveAt_eq_some.1 hlive
  obtain ⟨ent, hent, hce⟩ := Option.map_eq_some_iff.1 hcore
  rw [Prod.mk.injEq, Prod.mk.injEq] at hce
  have htest := hno i hi ⟨c.1, c.2.1, c.2.2, hcore, by rw [hcode]; rfl⟩ ent hent
  -- the entry passes the test of the walk
  unfold isEntryOf at htest
  rw [hce.1, hce.2.1, hcode, beq_self_eq_true, Bool.true_and, Option.any_some, heq] at htest
  exact Bool.noConfusion htest

theorem under_of_walk {key k : K} {prev : Option Nat} {i : Nat} {ent : Entry K V}
    (hw : Walk ht key (some (prev, i, ent))) (hk : ent.key = some k) : Under ht key (ent.code, k, ent.value) := by
  obtain ⟨hi, -, hcode, k', hk', heq, hlive⟩ := hw.liveAt
  rw [hk', Option.some.injEq] at hk
  subst hk
  exact ⟨mem_cores.2 ⟨i, hi, hlive⟩, hcode, heq⟩

theorem put_accounts (h : ht.Owning) {key : K} {value : Option V} {unique : Bool} {e : ErrState}
    (hin : InRange ht e (.put (some key) value unique)) : Accounts (.put (some key) value unique) ht e := by
  have hexec {r : Int} {ht' : HTable K V} {gone : List (K × Option V)} {e' : ErrState}
      (hput : htablePut ht (some key) value unique e = some ((r, ht', gone), e')) :
      exec ht (.put (some key) value unique) e = some ((ht', accepted (some key) value r, gone), e') := by
    simp only [exec, ErrM.bind_run, hput, Option.bind_some, ErrM.pure_run]
  obtain ⟨r, hr, hw⟩ := h.walkChain key
  rcases r with _ | ⟨prev, i, ent⟩
  · have hno := not_under hw
    by_cases hg : ht.growsOnPut
    · by_cases hcap : ht.capacity = maxTblSize
      · -- growth limit
        obtain ⟨e', hput, -⟩ := put_limit hr hg hcap value unique e
        exact ⟨ht, _, _, e', hexec hput, h, .full value unique hno ⟨hg, hcap⟩⟩
      · obtain ⟨ht', hput, hs, hcores, -, -, hcfg⟩ := h.put_grow hr hg hcap value unique e
        refine ⟨ht', _, _, _, hexec hput, h.of_config hs hcfg, ?_⟩
        rw [HTable.live_append hcores]
        exact .added value unique hno
    · have hroom := hin hr fun hlimit => hg hlimit.1
      unfold insertIndex insertCapacity at hroom
      rw [if_neg hg, if_neg hg] at hroom
      obtain ⟨ht', hput, hs, hcores, -, -, hcfg⟩ := h.put_add hr hg hroom value unique e
      refine ⟨ht', _, _, _, hexec hput, h.of_config hs hcfg, ?_⟩
      rw [HTable.live_append hcores]
      exact .added value unique hno
  · obtain ⟨hiu, hi, -, k, hk, -, hlive⟩ := hw.liveAt
    have hunder := under_of_walk hw hk
    cases unique with
    | true => exact ⟨ht, _, _, _, hexec (htablePut_present hr value true e), h, .refused value hunder⟩
    | false =>
      have hput : htablePut ht (some key) value false e =
          some ((0, (replaceEntry ht i key value).1, (replaceEntry ht i key value).2), e.thawed) :=
        htablePut_present hr value false e
      obtain ⟨hs', hlive', hcfg⟩ := h.toShape.replace hi hk key value
      refine ⟨_, _, _, _, hexec hput, h.of_config hs' hcfg, ?_⟩
      have hgone : (replaceEntry ht i key value).2 = [(k, ent.value)] := by
        show ht.removed _ = _
        rw [h.removed_eq, hi, Option.bind_some, hk]
        rfl
      have hother : ∀ j, j ≠ i → liveAt (replaceEntry ht i key value).1.entries j = liveAt ht.entries j :=
        fun j hj => by rw [hlive', if_neg hj.symm]
      have hbal := @live_update K V ht (replaceEntry ht i key value).1 rfl i hiu hother
      rw [hlive', if_pos rfl, hlive] at hbal
      rw [hgone]
      exact .overwritten value hunder hbal

theorem remove_accounts (h : ht.Owning) {key : K} {e : ErrState} (hin : InRange ht e (.remove (some key))) :
    Accounts (.remove (some key)) ht e := by
  have hexec {r : Int} {ht' : HTable K V} {gone : List (K × Option V)} {e' : ErrState}
      (hrem : htableRemove ht (some key) e = some ((r, ht', gone), e')) :
      exec ht (.remove (some key)) e = some ((ht', [], gone), e') := by
    simp only [exec, ErrM.bind_run, hrem, Option.bind_some, ErrM.pure_run]
  obtain ⟨r, hr, hw⟩ := h.walkChain key
  rcases r with _ | ⟨prev, i, ent⟩
  · exact ⟨ht, _, _, e, hexec (htableRemove_absent hr e), h, .missing (not_under hw)⟩
  · obtain ⟨hiu, hi, -, k, hk, -, hlive⟩ := hw.liveAt
    have hne : ht.walkChain key ≠ some none := by
      rw [hr]
      exact fun h => nomatch h
    obtain ⟨ht', hrem, hs', hcores, -, hcfg⟩ := h.remove hr (hin hne) e
    refine ⟨ht', _, _, e, hexec hrem, h.of_config hs' hcfg, ?_⟩
    obtain ⟨-, hlive', -⟩ := h.unlink hw
    have hother : ∀ j, j ≠ i → liveAt (ht.unlinked key prev i ent).entries j = liveAt ht.entries j :=
      fun j hj => by
        unfold unlinked
        rw [hlive', if_neg hj]
    have hnone : liveAt (ht.unlinked key prev i ent).entries i = none := by
      unfold unlinked
      rw [hlive', if_pos rfl]
    have hbal := live_update (unlinked_eq ht key prev i ent).2.1 hiu hother
    rw [hnone, hlive] at hbal
    rw [h.removed_eq, hk, live_congr hcores]
    exact .removed (under_of_walk hw hk) (Balanced.out_iff.1 hbal)

theorem rehash_accounts (h : ht.Owning) {grow : Bool} {e : ErrState} (hin : InRange ht e (.rehash grow)) :
    Accounts (.rehash grow) ht e := by
  have hexec {r : Int} {ht' : HTable K V} {e' : ErrState} (hre : ipclHtableRehash ht grow e = some ((r, ht'), e')) :
      exec ht (.rehash grow) e = some ((ht', [], []), e') := by
    simp only [exec, ErrM.bind_run, hre, Option.bind_some, ErrM.pure_run]
  by_cases hmax : ht.resized grow ≤ maxTblSize
  · obtain ⟨ht', hre, hs, hcores, -, -, hcfg⟩ := h.rehash hmax hin.1 e
    refine ⟨ht', _, _, e, hexec hre, h.of_config hs hcfg, ?_⟩
    rw [live_congr hcores]
    exact .rehashed grow
  · have hfrozen := hin.2.resolve_left hmax
    obtain ⟨rfl, hcap⟩ : grow = true ∧ ht.capacity = maxTblSize := by
      obtain ⟨n, hn, hc⟩ := h.capacity_eq
      have hle := h.capacity_le
      unfold resized at hmax
      cases grow with
      | false =>
        refine absurd (max_le ?_ (by decide)) hmax
        simp only [Bool.false_eq_true, ↓reduceIte]
        omega
      | true =>
        refine ⟨rfl, ?_⟩
        simp only [↓reduceIte] at hmax
        -- below the largest power of two there is room for the double
        by_contra hne
        have hlt : n < 30 := by
          rcases Nat.lt_or_eq_of_le hn with hlt | rfl
          · exact hlt
          · exact absurd hc hne
        refine hmax (max_le ?_ (by decide))
        rw [hc, ← Nat.pow_succ']
        exact Nat.pow_le_pow_right (by decide) hlt
    obtain ⟨e', hre, -, -⟩ := rehash_limit hcap e hfrozen
    exact ⟨ht, _, _, e', hexec hre, h, .rehashed true⟩

theorem accounts (h : ht.Owning) {c : OwnCall K V} {e : ErrState} (hin : c.InRange ht e) : c.Accounts ht e := by
  match c with
  | .put none value unique =>
    refine ⟨ht, [], [], e.raised (loc "htable_put.c" "pcl_htable_put" 41) eInval 0 none, ?_, h, .unkeyed value unique⟩
    have hnone (r : Int) : accepted (none : Option K) value r = [] := by
      unfold accepted
      split <;> rfl
    simp only [exec, htablePut, ErrM.bind_run, badArg_run, Option.bind_some, ErrM.pure_run, hnone]
  | .put (some key) value unique => exact put_accounts h hin
  | .remove none =>
    refine ⟨ht, [], [], e.raised (loc "htable_remove.c" "pcl_htable_remove" 39) eInval 0 none, ?_, h, .nameless⟩
    simp only [exec, htableRemove, ErrM.bind_run, badArg_run, Option.bind_some, ErrM.pure_run]
  | .remove (some key) => exact remove_accounts h hin
  | .clear shrink =>
    obtain ⟨hs, hcores, hcfg⟩ := h.toShape.clear shrink
    refine ⟨_, _, _, e, rfl, h.of_config hs hcfg, ?_⟩
    have hgone : (htableClear ht shrink).2 = ht.live := h.removed_eq ht.live
    rw [hgone, live_eq (htableClear ht shrink).1, hcores]
    exact .cleared shrink
  | .rehash grow => exact rehash_accounts h hin
  | .between e' => exact ⟨ht, [], [], e', rfl, h, .between e'⟩

end OwnCall

/-! ### Runs -/

/-- Every call of a run is accepted with, and passes to `remove_entry`, what it should on the table it is made on. -/
def HTable.RunEnds (ht : HTable K V) : List (OwnCall K V) → ErrState → Prop
  | [], _ => True
  | c :: cs, e => ∃ ht' taken gone e', c.exec ht e = some ((ht', taken, gone), e') ∧
      OwnCall.Ends ht c taken gone ht'.live ∧ ht'.RunEnds cs e'

namespace HTable
variable {ht : HTable K V}

/-- A run whose calls are in range ends the pairs it should at each call, and its account is balanced. -/
theorem Owning.run (h : ht.Owning) {cs : List (OwnCall K V)} {e : ErrState} (hin : ht.RunInRange cs e) :
    ht.RunEnds cs e ∧ ∃ ht' taken gone e', ht.ownRun cs e = some ((ht', taken, gone), e') ∧ ht'.Owning ∧
      Balanced ht.live taken gone ht'.live := by
  induction cs generalizing ht e with
  | nil => exact ⟨trivial, ht, [], [], e, rfl, h, .refl _⟩
  | cons c cs ih =>
    obtain ⟨ht₁, taken, gone, e₁, hc, h₁, hends⟩ := OwnCall.accounts h hin.1
    have hbal := hends.balanced
    have hrun : ht.ownRun (c :: cs) e =
        (ht₁.ownRun cs e₁).map fun p => ((p.1.1, taken ++ p.1.2.1, gone ++ p.1.2.2), p.2) := by
      show ((c.exec ht e).bind _) = _
      rw [hc, Option.bind_some]
      show (ht₁.ownRun cs e₁).bind _ = _
      cases ht₁.ownRun cs e₁ <;> rfl
    have hin₁ : ht₁.RunInRange cs e₁ := hin.2 _ hc
    obtain ⟨hrest, ht', taken', gone', e', hcs, h', hbal'⟩ := ih h₁ hin₁
    exact ⟨⟨ht₁, taken, gone, e₁, hc, hends, hrest⟩, ht', _, _, e', by rw [hrun, hcs]; rfl, h', hbal.trans hbal'⟩

/-- A new table with the load factors that the application sets. -/
def factored (ht : HTable K V) (lo hi : LoadFac) : HTable K V := { ht with minLoadfac := lo, maxLoadfac := hi }

/-- Over a run of a new table and its release, each call passes to `remove_entry` the pairs that it overwrites, removes
or clears and no other, the release passes the pairs held last, and those passed over the whole are the pairs accepted
by puts, each as often as it was accepted. -/
theorem htable_owns {capacity : Int} (hc : Accepted capacity) (keyLen : Nat) (keyEquals : K → K → Nat → Bool)
    (hashcode : K → Nat → UInt64) (lo hi : LoadFac) (e : ErrState) :
    ∃ ht : HTable K V, htable capacity keyLen true keyEquals hashcode e = some (some ht, e) ∧
      ∀ cs, (ht.factored lo hi).RunInRange cs e →
        (ht.factored lo hi).RunEnds cs e ∧
        ∃ ht' taken gone e', (ht.factored lo hi).ownRun cs e = some ((ht', taken, gone), e') ∧
          htableFree ht' = ht'.live ∧ (gone ++ htableFree ht').Perm taken := by
  refine ⟨_, htable_run hc keyLen true keyEquals hashcode e, fun cs hin => ?_⟩
  have hpow := (fresh_sound (K := K) (V := V) hc keyLen true keyEquals hashcode).capacity_eq
  obtain ⟨hs, hcores⟩ := Shape.init
    ((freshTable (V := V) (roundCapacity capacity.toNat) keyLen true keyEquals hashcode).factored lo hi).capacity
    hpow rfl rfl rfl rfl rfl rfl
  have howning : ((freshTable (V := V) (roundCapacity capacity.toNat) keyLen true keyEquals hashcode).factored
      lo hi).Owning := ⟨hs, rfl⟩
  obtain ⟨hends, ht', taken, gone, e', hrun, h', hbal⟩ := howning.run hin
  rw [live_eq, hcores] at hbal
  have hfree : htableFree ht' = ht'.live := h'.removed_eq ht'.live
  refine ⟨hends, ht', taken, gone, e', hrun, hfree, ?_⟩
  rw [hfree]
  exact hbal.of_empty

/-- A replacement, a duplicate that is refused and a removal. -/
theorem htable_owns_eight : ∃ ht : HTable Nat Nat,
    htable 0 0 true natEquals natHashcode ErrState.zero = some (some ht, ErrState.zero) ∧
      let cs := [.put (some 1) (some 10) true, .put (some 1) (some 11) false, .put (some 1) (some 12) true,
        .put (some 2) none true, .remove (some 1)]
      (ht.factored Pcl.minLoadfac Pcl.maxLoadfac).RunEnds cs ErrState.zero ∧
      ∃ ht' taken gone e', (ht.factored Pcl.minLoadfac Pcl.maxLoadfac).ownRun cs ErrState.zero =
        some ((ht', taken, gone), e') ∧ htableFree ht' = ht'.live ∧ (gone ++ htableFree ht').Perm taken := by
  have haccepted : Accepted 0 := Nat.le_of_ble_eq_true rfl
  obtain ⟨ht, hnew, hown⟩ := htable_owns (K := Nat) (V := Nat) haccepted 0 natEquals natHashcode Pcl.minLoadfac
    Pcl.maxLoadfac ErrState.zero
  cases hnew
  exact ⟨_, rfl, hown _ (by decide +kernel)⟩

end HTable
end Pcl

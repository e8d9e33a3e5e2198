import Pcl.Frozen.Thaw
import Pcl.Json.Store

/-!
# What the operations do to the references

`Holds`: the counts are those of the places in containers and of a list of references outside. An operation is given
values from that list, or adds to it. `Effect` says which bodies it changes: none but that of the container it is called
on, and that one refers to at most one more block.
-/

namespace Pcl
open RefHeap

variable {R : Type}

/-- The table of an object: its callbacks are those of `pcl_json_obj`, and it holds no `NULL` values. -/
structure ObjectOk (t : HTable CStr JPtr) : Prop extends t.WellFormed where
  callbacks : t.Callbacks
  removeEntry : t.removeEntry = true
  factor : 2 * t.minLoadfac.num ≤ 2 ^ t.minLoadfac.shift
  values : ∀ p ∈ t.live, p.2.isSome = true

/-- What a block can hold; null and booleans are in none. -/
def JBody.Ok : JBody R → Prop
  | .null | .bool _ => False
  | .obj t => ObjectOk t
  | .int _ | .real _ | .str _ | .arr _ => True

/-- The references from outside are `refs`. -/
structure JStore.Holds (h : JStore R) (refs : List Nat) : Prop where
  counted : Counted JBody.kids h fun a => refs.count a
  settled : h.Settled
  bodies : ∀ a b, h.read a = some b → b.body.Ok

/-- The references that are left when those of a value are given away. -/
def given (refs : List Nat) (value : Option JPtr) : List Nat :=
  match value.bind JPtr.addr? with
  | some a => refs.erase a
  | none => refs

/-- A value can be given away. -/
def Owned (refs : List Nat) (value : Option JPtr) : Prop := ∀ a, value.bind JPtr.addr? = some a → a ∈ refs

/-- A pointer that is valid as long as the references are kept. -/
def JStore.Usable (h : JStore R) (refs : List Nat) (j : Option JPtr) : Prop :=
  ∀ a, j.bind JPtr.addr? = some a → h.Reach JBody.kids (fun a => refs.count a) a

/-- Bodies stay, but that of `target`; a reference to `link` may be added to it. -/
structure JStore.Effect (h h' : JStore R) (target link : Option JPtr) : Prop where
  same : ∀ a b', h'.read a = some b' → target.bind JPtr.addr? ≠ some a →
    (∃ b, h.read a = some b ∧ b.body = b'.body) ∨ h.read a = none ∧ b'.body.kids = []
  grown : ∀ a b', h'.read a = some b' → target.bind JPtr.addr? = some a →
    ∃ b, h.read a = some b ∧ ∀ c ∈ b'.body.kids, c ∈ b.body.kids ∨ link.bind JPtr.addr? = some c

namespace ObjectOk
variable {t t' : HTable CStr JPtr} {key : CStr} {e : ErrState}

theorem kids_obj (ho : ObjectOk t) : (JBody.obj t : JBody R).kids = t.live.filterMap fun p => p.2.bind JPtr.addr? := by
  show (htableFree t).filterMap _ = _
  rw [htableFree, HTable.removed, if_pos ho.removeEntry]

theorem becomes (ho : ObjectOk t) {m : List (CStr × Option JPtr)} (hb : t.Becomes t' m)
    (hm : ∀ p ∈ m, p.2.isSome = true) : ObjectOk t' where
  toWellFormed := hb.wf
  callbacks := hb.config.callbacks ho.callbacks
  removeEntry := hb.config.removeEntry.trans ho.removeEntry
  factor := by rw [hb.config.minLoadfac]; exact ho.factor
  values := hb.live ▸ hm

/-- A key is added, or nothing changes. -/
theorem put (ho : ObjectOk t) (hslot : t.HasSlot key) (value : JPtr) (e : ErrState) :
    (∃ e', htablePut t (some key) (some value) true e = some ((-1, t, []), e') ∧ e'.frozen = false ∧ e'.err ≠ eOkay) ∨
      ∃ t' e', htablePut t (some key) (some value) true e = some ((0, t', []), e') ∧ e'.frozen = false ∧ ObjectOk t' ∧
        t'.live = t.live ++ [(key, some value)] := by
  have hthaw {r t' l e'} (hput : htablePut t (some key) (some value) true e = some ((r, t', l), e')) : e'.frozen = false :=
    htablePut_thaws t key (some value) true e _ e' hput
  cases hfind : OMap.find t.eqv t.live key with
  | some p =>
    obtain ⟨⟨e', hput, herr⟩, -⟩ := ho.put_old ho.callbacks hfind (some value) e
    exact .inl ⟨e', hput, hthaw hput, by rw [herr]; decide⟩
  | none =>
    rcases ho.put_new ho.callbacks hfind hslot (some value) true e with ⟨-, -, e', hput, herr⟩ | ⟨-, t', hput, hb⟩
    · exact .inl ⟨e', hput, hthaw hput, by rw [herr]; decide⟩
    · refine .inr ⟨t', _, hput, hthaw hput, ho.becomes hb fun p hp => ?_, hb.live⟩
      rcases List.mem_append.1 hp with hp | hp
      · exact ho.values p hp
      · rw [List.mem_singleton.1 hp]
        rfl

/-- An entry is taken out, or nothing changes. -/
theorem remove (ho : ObjectOk t) (key : Option CStr) (he : e.frozen = false) :
    ∃ r t' removed e', htableRemove t key e = some ((r, t', removed), e') ∧ e'.frozen = false ∧ ObjectOk t' ∧
      (removed ++ t'.live).Perm t.live := by
  cases key with
  | none =>
    refine ⟨if e.frozen then 0 else -1, t, [], e.raised (loc "htable_remove.c" "pcl_htable_remove" 39) eInval 0 none, ?_, ?_,
      ho, .refl _⟩
    · simp only [htableRemove, ErrM.bind_run, badArg_run, Option.bind_some, ErrM.pure_run]
    · rw [raised_frozen, he]
  | some key =>
    have hroom : t.HasRoom key := fun _ hs => HTable.shrink_room ho.factor hs
    obtain ⟨t', hrem, hb⟩ := ho.remove_spec ho.callbacks hroom e
    refine ⟨_, t', _, e, hrem, he, ho.becomes hb fun p hp => ho.values p (List.mem_of_mem_filter hp), ?_⟩
    rw [hb.live, HTable.removed, if_pos ho.removeEntry]
    exact ho.distinct.find_append_erase ho.callbacks.equiv key

end ObjectOk

namespace JStore
variable {h h' h'' : JStore R} {refs refs' : List Nat} {j arr elem : JPtr} {target link : Option JPtr} {e : ErrState}
  {body : JBody R}

/-! ### Effects -/

namespace Effect

theorem of_shrinks (hs : Shrinks h h') (target link : Option JPtr) : h.Effect h' target link where
  same a b' hb' _ := by
    obtain ⟨b, hb, hbody, -⟩ := hs.kept a b' hb'
    exact .inl ⟨b, hb, hbody⟩
  grown a b' hb' _ := by
    obtain ⟨b, hb, hbody, -⟩ := hs.kept a b' hb'
    exact ⟨b, hb, fun c hc => .inl (hbody ▸ hc)⟩

theorem refl (h : JStore R) (target link : Option JPtr) : h.Effect h target link := of_shrinks (.refl h) target link

theorem shrink (he : h.Effect h' target link) (hs : Shrinks h' h'') : h.Effect h'' target link where
  same a b'' hb'' ha := by
    obtain ⟨b', hb', hbody, -⟩ := hs.kept a b'' hb''
    rw [← hbody]
    exact he.same a b' hb' ha
  grown a b'' hb'' ha := by
    obtain ⟨b', hb', hbody, -⟩ := hs.kept a b'' hb''
    rw [← hbody]
    exact he.grown a b' hb' ha

theorem alloc (h : JStore R) (hkids : body.kids = []) : h.Effect (h.alloc body).2 none none where
  same a b' hb' _ := by
    change RefHeap.read (h ++ [some ⟨1, body⟩]) a = some b' at hb'
    rw [read_append] at hb'
    split at hb'
    · next heq =>
      cases hb'
      exact .inr ⟨heq ▸ read_length h, hkids⟩
    · exact .inl ⟨b', hb', rfl⟩
  grown _ _ _ ha := nomatch ha

theorem addRefs {a : Nat} {b : CountedBlock (JBody R)} (hb : h.read a = some b) (amt : Int) :
    h.Effect (h.addRefs a amt) none none where
  same x b' hb' _ := by
    rw [addRefs_eq hb, read_set hb] at hb'
    split at hb'
    · next heq =>
      cases hb'
      exact .inl ⟨b, heq ▸ hb, rfl⟩
    · exact .inl ⟨b', hb', rfl⟩
  grown _ _ _ ha := nomatch ha

theorem setBody {a : Nat} {b : CountedBlock (JBody R)} (hb : h.read a = some b)
    (hkids : ∀ c ∈ body.kids, c ∈ b.body.kids ∨ link.bind JPtr.addr? = some c) :
    h.Effect (h.setBody a body) (some (.block a)) link where
  same x b' hb' hx := by
    rw [setBody_eq hb, read_set hb, if_neg (fun heq => hx (congrArg some heq.symm))] at hb'
    exact .inl ⟨b', hb', rfl⟩
  grown x b' hb' hx := by
    cases hx
    rw [setBody_eq hb, read_set hb, if_pos rfl] at hb'
    cases hb'
    exact ⟨b, hb, hkids⟩

end Effect

/-! ### References -/

theorem count_given (howned : Owned refs (some j)) (x : Nat) :
    refs.count x = (given refs (some j)).count x + j.addr?.toList.count x := by
  unfold given
  cases hj : j.addr? with
  | none => simp [hj]
  | some a =>
    have ha : a ∈ refs := howned a hj
    have hpos := List.count_pos_iff.2 ha
    simp only [Option.bind_some, hj, Option.toList_some, List.count_erase, List.count_singleton]
    by_cases hx : a = x
    · subst hx
      simp only [beq_self_eq_true, if_true]
      omega
    · simp [hx]

theorem given_none (refs : List Nat) : given refs none = refs := rfl

theorem Owned.none (refs : List Nat) : Owned refs none := fun _ h => nomatch h

theorem Holds.congr (hh : h.Holds refs) (heq : ∀ x, refs'.count x = refs.count x) : h.Holds refs' :=
  ⟨hh.counted.congr heq, hh.settled, hh.bodies⟩

theorem Holds.shrinks {ext : Nat → Nat} (hh : h.Holds refs) (hr : Released JBody.kids h ext h')
    (heq : ∀ x, refs'.count x = ext x) : h'.Holds refs' where
  counted := hr.counted.congr heq
  settled := hr.settled hh.settled
  bodies a b' hb' := by
    obtain ⟨b, hb, hbody, -⟩ := hr.shrinks.kept a b' hb'
    exact hbody ▸ hh.bodies a b hb

/-- `pcl_json_free` of a value that is owned. -/
theorem jsonFree_spec (hh : h.Holds refs) (howned : Owned refs (some j)) :
    ∃ h', h.jsonFree j = some h' ∧ h'.Holds (given refs (some j)) ∧ Shrinks h h' := by
  unfold jsonFree
  cases hj : j.addr? with
  | none =>
    refine ⟨h, jsonFreeUpTo_singleton _ hj h, ?_, .refl h⟩
    have hgiven : given refs (some j) = refs := by simp only [given, Option.bind_some, hj]
    rwa [hgiven]
  | some a =>
    have hcounted : Counted JBody.kids h (plus (fun x => (given refs (some j)).count x) [a]) := by
      refine hh.counted.congr fun x => ?_
      rw [count_given howned x, hj]
      rfl
    obtain ⟨h', hrel, hr⟩ := release_spec (h.total + 1) a h _ hcounted (Nat.lt_succ_self _)
    cases j with
    | block b =>
      cases hj
      exact ⟨h', (jsonFreeUpTo_block _ _ h).trans hrel, hh.shrinks hr fun _ => rfl, hr.shrinks⟩
    | _ => cases hj

theorem freeVal_spec (hh : h.Holds refs) {value : Option JPtr} (howned : Owned refs value) (freeval : Bool) :
    ∃ h', h.freeVal freeval value = some h' ∧ h'.Holds (if freeval then given refs value else refs) ∧ Shrinks h h' := by
  cases value with
  | none => exact ⟨h, rfl, by rw [given_none, ite_self]; exact hh, .refl h⟩
  | some value =>
    cases freeval with
    | false => exact ⟨h, rfl, hh, .refl h⟩
    | true => exact jsonFree_spec hh howned

/-! ### Pointers that can be used -/

theorem load_block {a : Nat} : h.load (.block a) = (h.read a).map CountedBlock.body := rfl

theorem Usable.load (hh : h.Holds refs) (hu : h.Usable refs (some j)) : ∃ body, h.load j = some body := by
  cases j with
  | block a =>
    obtain ⟨b, hb, -⟩ := refs_pos.1 (hh.counted.refs_of_reach (hu a rfl))
    exact ⟨b.body, by rw [load_block, hb]; rfl⟩
  | _ => exact ⟨_, rfl⟩

theorem Usable.shrink (hh' : h'.Holds refs) (hs : Shrinks h h') (hu : h.Usable refs (some j)) : h'.Usable refs (some j) := by
  intro a ha
  obtain ⟨-, -, -, -, -, hreach⟩ := hh'.counted.frame hs (hu a ha)
  exact hreach

theorem Usable.mono {j : Option JPtr} (hu : h.Usable refs j) (hsub : ∀ x ∈ refs, x ∈ refs') : h.Usable refs' j := by
  intro a ha
  refine (hu a ha).mono fun x hx => ?_
  exact List.count_pos_iff.2 (hsub x (List.count_pos_iff.1 hx))

theorem mem_of_given {x : Nat} {value : Option JPtr} (hx : x ∈ given refs value) : x ∈ refs := by
  unfold given at hx
  split at hx
  · exact List.mem_of_mem_erase hx
  · exact hx

/-- What a container in memory is. -/
theorem load_container (hl : h.load j = some body) (hbody : body.Ok) :
    ∃ a b, j = .block a ∧ h.read a = some b ∧ b.body = body := by
  cases j with
  | block a =>
    obtain ⟨b, hb, rfl⟩ := Option.map_eq_some_iff.1 hl
    exact ⟨a, b, rfl, hb, rfl⟩
  | _ =>
    cases hl
    exact hbody.elim

theorem Holds.objectOk (hh : h.Holds refs) {t : HTable CStr JPtr} (hl : h.load j = some (.obj t)) : ObjectOk t := by
  cases j with
  | block a =>
    obtain ⟨b, hb, hbody⟩ := Option.map_eq_some_iff.1 hl
    have hok := hh.bodies a b hb
    rw [hbody] at hok
    exact hok
  | _ => cases hl

/-! ### Errors -/

theorem typeErr_fails (he : e.frozen = false) (hl : h.load j = some body) (l : Loc) (expected : Char) :
    ∃ e', h.typeErr l expected j e = some (-1, e') ∧ e'.frozen = false := by
  obtain ⟨e', hrun, hf, -⟩ := errVset_fails he l (show eType ≠ eOkay by decide) 0
    (some (.ofBytes (txt "expected type '" ++ [ch expected] ++ txt "', got '" ++ [body.type] ++ txt "'")))
  refine ⟨e', ?_, hf⟩
  unfold typeErr
  rw [hl]
  exact hrun

/-- A text passes its check, or the error is set. -/
theorem checkText_cases (he : e.frozen = false) (flags : JsonFlags) (s : CStr) (len : Nat) :
    ∃ r e', checkText flags s len e = some (r, e') ∧ e'.frozen = false ∧ (r < 0 → e'.err ≠ eOkay) := by
  unfold checkText
  split
  · exact ⟨0, e, rfl, he, fun h => absurd h (by decide)⟩
  · unfold utf8Check
    generalize utf8Scan _ = scan
    cases scan with
    | none => exact ⟨0, e, rfl, he, fun h => absurd h (by decide)⟩
    | some p =>
      obtain ⟨e', hrun, hf, herr⟩ := errVset_fails he (loc "utf8_check.c" "pcl_utf8_check" p.1)
        (show eIlseq ≠ eOkay by decide) 0 (some p.2)
      exact ⟨-1, e', hrun, hf, fun _ => by rw [herr]; decide⟩

/-! ### New values and references -/

theorem alloc_spec (hh : h.Holds refs) (hok : body.Ok) (hkids : body.kids = []) :
    (h.alloc body).2.Holds (h.length :: refs) where
  counted := by
    refine (hh.counted.alloc hkids).congr fun x => ?_
    unfold plus
    rw [List.count_cons, List.count_singleton]
  settled := hh.settled.alloc body
  bodies a b hb := by
    change RefHeap.read (h ++ [some ⟨1, body⟩]) a = some b at hb
    rw [read_append] at hb
    split at hb
    · cases hb
      exact hok
    · exact hh.bodies a b hb

theorem addRefs_spec (hh : h.Holds refs) {a : Nat} {b : CountedBlock (JBody R)} (hb : h.read a = some b) (amt : Nat) :
    JStore.Holds (h.addRefs a amt) (List.replicate amt a ++ refs) where
  counted := by
    refine (hh.counted.addRefs hb (hh.settled a b hb) amt).congr fun x => ?_
    unfold plus
    rw [List.count_append, Nat.add_comm]
  settled := hh.settled.addRefs hb amt
  bodies x b' hb' := by
    rw [addRefs_eq hb, read_set hb] at hb'
    split at hb'
    · cases hb'
      exact hh.bodies a b hb
    · exact hh.bodies x b' hb'

/-- A container changes: references move between it and `refs`. -/
theorem setBody_spec (hh : h.Holds refs) {a : Nat} {b : CountedBlock (JBody R)} (hb : h.read a = some b) (hok : body.Ok)
    (heq : ∀ x, refs'.count x + body.kids.count x = refs.count x + b.body.kids.count x) :
    JStore.Holds (h.setBody a body) refs' where
  counted := hh.counted.setBody hb (hh.settled a b hb) heq
  settled := hh.settled.setBody hb body
  bodies x b' hb' := by
    rw [setBody_eq hb, read_set hb] at hb'
    split at hb'
    · cases hb'
      exact hok
    · exact hh.bodies x b' hb'

/-- Storing what is there. -/
theorem setBody_self {a : Nat} {b : CountedBlock (JBody R)} (hb : h.read a = some b) : h.setBody a b.body = h := by
  obtain ⟨hlt, heq⟩ := List.getElem?_eq_some_iff.1 (read_eq_some.1 hb)
  rw [setBody_eq hb]
  show h.set a (some b) = h
  rw [← heq, List.set_getElem_self]

/-! ### Arrays -/

/-- The value is freed if the caller asked for it, then the error is set. -/
theorem free_then_typeErr (hh : h.Holds refs) (he : e.frozen = false) {value : Option JPtr} (howned : Owned refs value)
    (hu : h.Usable (given refs value) (some j)) (freeval : Bool) (l : Loc) (expected : Char) :
    ∃ h' e', (orUndef (h.freeVal freeval value) >>= fun h => h.typeErr l expected j >>= fun r => pure (r, h)) e =
      some ((-1, h'), e') ∧ e'.frozen = false ∧ h'.Holds (if freeval then given refs value else refs) ∧ Shrinks h h' := by
  obtain ⟨h', hfree, hh', hs⟩ := freeVal_spec hh howned freeval
  have hu' : h'.Usable (if freeval then given refs value else refs) (some j) := by
    refine Usable.shrink hh' hs (hu.mono fun x hx => ?_)
    split
    · exact hx
    · exact mem_of_given hx
  obtain ⟨body, hl⟩ := hu'.load hh'
  obtain ⟨e', hrun, hf⟩ := typeErr_fails he hl l expected
  refine ⟨h', e', ?_, hf, hh', hs⟩
  simp only [ErrM.bind_run, orUndef, hfree, Option.map_some, Option.bind_some, hrun, ErrM.pure_run]

theorem free_then_badArg (hh : h.Holds refs) (he : e.frozen = false) {value : Option JPtr} (howned : Owned refs value)
    (freeval : Bool) (l : Loc) :
    ∃ h' e', (orUndef (h.freeVal freeval value) >>= fun h => badArg l >>= fun r => pure (r, h)) e =
      some ((-1, h'), e') ∧ e'.frozen = false ∧ h'.Holds (if freeval then given refs value else refs) ∧ Shrinks h h' := by
  obtain ⟨h', hfree, hh', hs⟩ := freeVal_spec hh howned freeval
  obtain ⟨e', hrun, hf, -⟩ := errVset_fails he l (show eInval ≠ eOkay by decide) 0 none
  change badArg l e = _ at hrun
  refine ⟨h', e', ?_, hf, hh', hs⟩
  simp only [ErrM.bind_run, orUndef, hfree, Option.map_some, Option.bind_some, hrun, ErrM.pure_run]

/-- What an operation returned, and did. -/
structure Done (x : ErrM (Int × JStore R)) (h : JStore R) (e : ErrState) (refs : Int → List Nat)
    (target link : Option JPtr) : Prop where
  run : ∃ r h' e', x e = some ((r, h'), e') ∧ e'.frozen = false ∧ h'.Holds (refs r) ∧ h.Effect h' target link

theorem jsonArradd_spec (hh : h.Holds refs) (he : e.frozen = false) {arr elem : Option JPtr} (howned : Owned refs elem)
    (hu : h.Usable (given refs elem) arr) (freeval : Bool) :
    Done (h.jsonArradd arr elem freeval) h e (fun r => if r = 0 ∨ freeval then given refs elem else refs) arr elem := by
  have hfail : ∀ {x : ErrM (Int × JStore R)}, (∃ h' e', x e = some ((-1, h'), e') ∧ e'.frozen = false ∧
      h'.Holds (if freeval then given refs elem else refs) ∧ Shrinks h h') →
      Done x h e (fun r => if r = 0 ∨ freeval then given refs elem else refs) arr elem := by
    rintro x ⟨h', e', hrun, hf, hh', hs⟩
    refine ⟨-1, h', e', hrun, hf, ?_, .of_shrinks hs arr elem⟩
    simpa using hh'
  match arr, elem with
  | none, elem => exact hfail (free_then_badArg hh he howned freeval _)
  | some arr, none => exact hfail (free_then_badArg hh he howned freeval _)
  | some arr, some elem =>
    obtain ⟨body, hl⟩ := (hu.mono fun x hx => mem_of_given hx).load hh
    unfold jsonArradd
    simp only [hl]
    cases body with
    | arr l =>
      obtain ⟨a, b, rfl, hb, hbody⟩ := load_container hl (show (JBody.arr l : JBody R).Ok from trivial)
      have hkids : (JBody.arr (l ++ [elem]) : JBody R).kids = b.body.kids ++ elem.addr?.toList := by
        rw [hbody]
        show (l ++ [elem]).filterMap _ = _
        rw [List.filterMap_append]
        cases hadd : elem.addr? <;> simp [JBody.kids, hadd]
      refine ⟨0, _, e, rfl, he, ?_, ?_⟩
      · simp only [true_or, if_true]
        refine setBody_spec hh hb trivial fun x => ?_
        rw [hkids, List.count_append, count_given howned x]
        omega
      · refine Effect.setBody hb fun c hc => ?_
        rw [hkids, List.mem_append, Option.mem_toList] at hc
        exact hc
    | _ => exact hfail (free_then_typeErr hh he howned hu freeval _ _)

theorem jsonArrremove_spec (hh : h.Holds refs) (he : e.frozen = false) {arr : Option JPtr} (hu : h.Usable refs arr)
    (index : Int) : Done (h.jsonArrremove arr index) h e (fun _ => refs) arr none := by
  have hfail : ∀ {x : ErrM (Int × JStore R)}, (∃ r e', x e = some ((r, h), e') ∧ e'.frozen = false) →
      Done x h e (fun _ => refs) arr none := by
    rintro x ⟨r, e', hrun, hf⟩
    exact ⟨r, h, e', hrun, hf, hh, .refl h arr none⟩
  match arr with
  | none =>
    obtain ⟨e', hrun, hf, -⟩ := errVset_fails he (loc "json_arrremove.c" "pcl_json_arrremove" 39)
      (show eInval ≠ eOkay by decide) 0 none
    change badArg _ e = _ at hrun
    refine hfail ⟨-1, e', ?_, hf⟩
    simp only [jsonArrremove, ErrM.bind_run, hrun, Option.bind_some, ErrM.pure_run]
  | some arr =>
    obtain ⟨body, hl⟩ := hu.load hh
    unfold jsonArrremove
    simp only [hl]
    cases body with
    | arr l =>
      obtain ⟨a, b, rfl, hb, hbody⟩ := load_container hl (show (JBody.arr l : JBody R).Ok from trivial)
      simp only
      cases hget : if index < 0 then none else l[index.toNat]? with
      | none =>
        obtain ⟨e₁, hrun, hf, herr⟩ := errVset_fails he (loc "array_remove.c" "pcl_array_remove" 43)
          (show eIndex ≠ eOkay by decide) 0 none
        obtain ⟨e', htrc, hf', -⟩ := errVtrace_fails hf (by rw [herr]; decide) (loc "json_arrremove.c" "pcl_json_arrremove" 44) none
        change setErr _ _ e = _ at hrun
        change trc _ e₁ = _ at htrc
        refine hfail ⟨-1, e', ?_, hf'⟩
        simp only [ErrM.bind_run, hrun, Option.bind_some, Int.reduceNeg, Int.reduceLT, if_true, htrc, ErrM.pure_run]
      | some elem =>
        have hl' : l[index.toNat]? = some elem := by
          split at hget
          · cases hget
          · exact hget
        obtain ⟨hlt, rfl⟩ := List.getElem?_eq_some_iff.1 hl'
        -- the element is the reference that the array gave up
        have hperm := List.getElem_cons_eraseIdx_perm hlt
        have hkids (x : Nat) : b.body.kids.count x =
            (JBody.arr (l.eraseIdx index.toNat) : JBody R).kids.count x + (l[index.toNat]).addr?.toList.count x := by
          rw [hbody]
          have hcount := (hperm.filterMap JPtr.addr?).count_eq x
          rw [List.filterMap_cons] at hcount
          show (l.filterMap _).count x = ((l.eraseIdx _).filterMap _).count x + _
          rw [← hcount]
          cases (l[index.toNat]).addr? <;> simp [List.count_cons]
        have hh₁ : JStore.Holds (h.setBody a (.arr (l.eraseIdx index.toNat)))
            ((l[index.toNat]).addr?.toList ++ refs) := by
          refine setBody_spec hh hb trivial fun x => ?_
          rw [hkids, List.count_append]
          omega
        have howned : Owned ((l[index.toNat]).addr?.toList ++ refs) (some l[index.toNat]) := by
          intro x hx
          rw [List.mem_append, Option.mem_toList]
          exact .inl hx
        obtain ⟨h', hfree, hh', hs⟩ := jsonFree_spec hh₁ howned
        have heff : h.Effect (h.setBody a (.arr (l.eraseIdx index.toNat))) (some (.block a)) none := by
          refine Effect.setBody hb fun c hc => .inl ?_
          rw [hbody]
          exact ((List.eraseIdx_sublist l _).filterMap _).subset hc
        refine ⟨0, h', e, ?_, he, hh'.congr fun x => ?_, heff.shrink hs⟩
        · simp only [store, ErrM.bind_run, orUndef, hfree, Option.map_some, Option.bind_some, ErrM.pure_run]
        · have := count_given howned x
          rw [List.count_append] at this
          omega
    | _ =>
      obtain ⟨e', hrun, hf⟩ := typeErr_fails he hl (loc "json_arrremove.c" "pcl_json_arrremove" 42) 'a'
      refine hfail ⟨-1, e', ?_, hf⟩
      simp only [ErrM.bind_run, hrun, Option.bind_some, ErrM.pure_run]

/-! ### Objects -/

theorem freeEntries_spec {removed : List (CStr × Option JPtr)} (hh : h.Holds refs)
    (heq : ∀ x, refs.count x = refs'.count x + (removed.filterMap fun p => p.2.bind JPtr.addr?).count x) :
    ∃ h', h.freeEntries removed = some h' ∧ h'.Holds refs' ∧ Shrinks h h' := by
  induction removed generalizing h refs with
  | nil => exact ⟨h, rfl, hh.congr fun x => (heq x).symm, .refl h⟩
  | cons p removed ih =>
    have howned : Owned refs p.2 := by
      intro a ha
      refine List.count_pos_iff.1 ?_
      rw [heq a, List.filterMap_cons, ha]
      simp
    obtain ⟨h₁, hfree, hh₁, hs₁⟩ := freeVal_spec hh howned true
    have hrest (x : Nat) : (given refs p.2).count x =
        refs'.count x + (removed.filterMap fun p => p.2.bind JPtr.addr?).count x := by
      have hx := heq x
      rw [List.filterMap_cons] at hx
      cases hp : p.2.bind JPtr.addr? with
      | none =>
        simp only [given, hp]
        rw [hp] at hx
        exact hx
      | some a =>
        rw [hp] at hx
        simp only [given, hp, List.count_erase, List.count_cons] at hx ⊢
        omega
    obtain ⟨h', hfold, hh', hs'⟩ := ih hh₁ hrest
    refine ⟨h', ?_, hh', hs₁.trans hs'⟩
    unfold freeEntries
    rw [List.foldlM_cons, hfree]
    exact hfold

theorem jsonObjput_spec (hh : h.Holds refs) (he : e.frozen = false) {obj : Option JPtr} {key : Option CStr}
    {value : Option JPtr} (howned : Owned refs value) (hu : h.Usable (given refs value) obj)
    (hslot : ∀ o k t, obj = some o → key = some k → h.load o = some (.obj t) → t.HasSlot k) (flags : JsonFlags)
    (freeval : Bool) : Done (h.jsonObjput obj key value flags freeval) h e
      (fun r => if r = 0 ∨ freeval then given refs value else refs) obj value := by
  have hfail : ∀ {x : ErrM (Int × JStore R)}, (∃ h' e', x e = some ((-1, h'), e') ∧ e'.frozen = false ∧
      h'.Holds (if freeval then given refs value else refs) ∧ Shrinks h h') →
      Done x h e (fun r => if r = 0 ∨ freeval then given refs value else refs) obj value := by
    rintro x ⟨h', e', hrun, hf, hh', hs⟩
    refine ⟨-1, h', e', hrun, hf, ?_, .of_shrinks hs obj value⟩
    simpa using hh'
  match obj, key, value with
  | none, key, value => exact hfail (free_then_badArg hh he howned freeval _)
  | some obj, none, value => exact hfail (free_then_badArg hh he howned freeval _)
  | some obj, some key, none => exact hfail (free_then_badArg hh he howned freeval _)
  | some obj, some key, some value =>
    obtain ⟨body, hl⟩ := (hu.mono fun x hx => mem_of_given hx).load hh
    unfold jsonObjput
    simp only [hl]
    cases body with
    | obj t =>
      have hobj : ObjectOk t := hh.objectOk hl
      obtain ⟨a, b, rfl, hb, hbody⟩ := load_container hl (show (JBody.obj t : JBody R).Ok from hobj)
      obtain ⟨h₁, hfree, hh₁, hs⟩ := freeVal_spec hh howned freeval
      obtain ⟨r, e₁, hcheck, hf₁, herr₁⟩ := checkText_cases he flags key 0
      by_cases hr : r < 0
      · obtain ⟨e', htrc, hf', -⟩ := errVtrace_fails hf₁ (herr₁ hr) (loc "json_objput.c" "pcl_json_objput" 63) none
        change trc _ e₁ = _ at htrc
        refine hfail ⟨h₁, e', ?_, hf', hh₁, hs⟩
        simp only [ErrM.bind_run, hcheck, Option.bind_some, if_pos hr, orUndef, hfree, Option.map_some, htrc,
          ErrM.pure_run]
      · rcases hobj.put (hslot _ key t rfl rfl hl) value e₁ with
          ⟨e₂, hput, hf₂, herr₂⟩ | ⟨t', e₂, hput, hf₂, hobj', hlive⟩
        · obtain ⟨e', htrc, hf', -⟩ := errVtrace_fails hf₂ herr₂ (loc "json_objput.c" "pcl_json_objput" 79)
            (some (.ofBytes (txt "failed to put '" ++ key.bytes ++ txt "' key")))
          have hself : h.setBody a (.obj t) = h := by rw [← hbody]; exact setBody_self hb
          have hentries : JStore.freeEntries (h.setBody a (.obj t)) [] = some h := by rw [hself]; rfl
          refine hfail ⟨h₁, e', ?_, hf', hh₁, hs⟩
          simp only [ErrM.bind_run, hcheck, Option.bind_some, if_neg hr, hput, store, orUndef, hentries, Option.map_some,
            Int.reduceNeg, Int.reduceLT, if_true, hfree, htrc, ErrM.pure_run]
        · have hkids : (JBody.obj t' : JBody R).kids = b.body.kids ++ value.addr?.toList := by
            rw [hbody, hobj.kids_obj, hobj'.kids_obj, hlive, List.filterMap_append]
            cases hadd : value.addr? <;> simp [hadd]
          have hh₂ : JStore.Holds (h.setBody a (.obj t')) (given refs (some value)) := by
            refine setBody_spec hh hb hobj' fun x => ?_
            rw [hkids, List.count_append, count_given howned x]
            omega
          have heff : h.Effect (h.setBody a (.obj t')) (some (.block a)) (some value) := by
            refine Effect.setBody hb fun c hc => ?_
            rw [hkids, List.mem_append, Option.mem_toList] at hc
            exact hc
          refine ⟨0, h.setBody a (.obj t'), e₂, ?_, hf₂, by simpa using hh₂, heff⟩
          simp only [ErrM.bind_run, hcheck, Option.bind_some, if_neg hr, hput, store, orUndef, freeEntries,
            List.foldlM_nil, Option.pure_def, Option.map_some, Int.lt_irrefl, if_false, ErrM.pure_run]
    | _ => exact hfail (free_then_typeErr hh he howned hu freeval _ _)

theorem jsonObjremove_spec (hh : h.Holds refs) (he : e.frozen = false) {obj : Option JPtr} (hu : h.Usable refs obj)
    (key : Option CStr) : Done (h.jsonObjremove obj key) h e (fun _ => refs) obj none := by
  have hfail : ∀ {x : ErrM (Int × JStore R)}, (∃ r e', x e = some ((r, h), e') ∧ e'.frozen = false) →
      Done x h e (fun _ => refs) obj none := by
    rintro x ⟨r, e', hrun, hf⟩
    exact ⟨r, h, e', hrun, hf, hh, .refl h obj none⟩
  match obj with
  | none =>
    obtain ⟨e', hrun, hf, -⟩ := errVset_fails he (loc "json_objremove.c" "pcl_json_objremove" 39)
      (show eInval ≠ eOkay by decide) 0 none
    change badArg _ e = _ at hrun
    refine hfail ⟨-1, e', ?_, hf⟩
    simp only [jsonObjremove, ErrM.bind_run, hrun, Option.bind_some, ErrM.pure_run]
  | some obj =>
    obtain ⟨body, hl⟩ := hu.load hh
    unfold jsonObjremove
    simp only [hl]
    cases body with
    | obj t =>
      have hobj : ObjectOk t := hh.objectOk hl
      obtain ⟨a, b, rfl, hb, hbody⟩ := load_container hl (show (JBody.obj t : JBody R).Ok from hobj)
      obtain ⟨r, t', removed, e₁, hrem, hf₁, hobj', hperm⟩ := hobj.remove key he
      have hkids (x : Nat) : b.body.kids.count x = (removed.filterMap fun p => p.2.bind JPtr.addr?).count x +
          (JBody.obj t' : JBody R).kids.count x := by
        rw [hbody, hobj.kids_obj, hobj'.kids_obj, ← (hperm.filterMap _).count_eq x, List.filterMap_append,
          List.count_append]
      have hh₁ : JStore.Holds (h.setBody a (.obj t')) ((removed.filterMap fun p => p.2.bind JPtr.addr?) ++ refs) := by
        refine setBody_spec hh hb hobj' fun x => ?_
        rw [hkids, List.count_append]
        omega
      have heff : h.Effect (h.setBody a (.obj t')) (some (.block a)) none := by
        refine Effect.setBody hb fun c hc => .inl ?_
        have := hkids c
        have := List.count_pos_iff.2 hc
        exact List.count_pos_iff.1 (by omega)
      obtain ⟨h', hfree, hh', hs⟩ : ∃ h', JStore.freeEntries (h.setBody a (.obj t')) removed = some h' ∧ h'.Holds refs ∧
          Shrinks (h.setBody a (.obj t')) h' := freeEntries_spec hh₁ fun x => by rw [List.count_append, Nat.add_comm]
      by_cases hr : r < 0
      · obtain ⟨r', e', htrc, hf'⟩ : ∃ r' e', trc (loc "json_objremove.c" "pcl_json_objremove" 45) e₁ = some (r', e') ∧
            e'.frozen = false := ⟨_, _, trc_run _ _, by rw [traced_frozen, hf₁]⟩
        refine ⟨r', h', e', ?_, hf', hh', heff.shrink hs⟩
        simp only [ErrM.bind_run, hrem, Option.bind_some, store, orUndef, hfree, Option.map_some, if_pos hr, htrc,
          ErrM.pure_run]
      · refine ⟨0, h', e₁, ?_, hf₁, hh', heff.shrink hs⟩
        simp only [ErrM.bind_run, hrem, Option.bind_some, store, orUndef, hfree, Option.map_some, if_neg hr, ErrM.pure_run]
    | _ =>
      obtain ⟨e', hrun, hf⟩ := typeErr_fails he hl (loc "json_objremove.c" "pcl_json_objremove" 42) 'o'
      refine hfail ⟨-1, e', ?_, hf⟩
      simp only [ErrM.bind_run, hrun, Option.bind_some, ErrM.pure_run]

end JStore
end Pcl

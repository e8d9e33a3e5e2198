import Pcl.Json.StoreSpec
import Pcl.Lib.Follow

/-!
# Who frees a value

An application builds, reads, changes and frees values, in any order, and keeps account of the references it was given:
it frees or gives away no more than those, and uses pointers that they lead to. `JCall.Legal` is this contract of
`json.h` and one condition more that `json.h` does not ask: over a table that has no slot left `pcl_json_objput` writes
behind its entries, which `HasSlot` excludes.

Every legal run is free of accesses to freed values, and all counts are exact on the way (`json_counts_exact`); where no
container is put below itself, nothing that is out of reach stays allocated (`json_leaks_nothing`); and what another
owner's references lead to stays as it is (`json_others_untouched`).
-/

namespace Pcl
open RefHeap HTable

variable {R : Type}

/-- A call of the application. -/
inductive JCall (R : Type) where
  | int (i : Int)
  | real (r : R)
  | str (s : Option CStr) (flags : JsonFlags)
  | arr
  | obj
  | ref (j : JPtr) (amt : Nat)
  | free (j : JPtr)
  | arradd (arr elem : Option JPtr) (freeval : Bool)
  | arrremove (arr : Option JPtr) (index : Int)
  | objput (obj : Option JPtr) (key : Option CStr) (value : Option JPtr) (flags : JsonFlags) (freeval : Bool)
  | objremove (obj : Option JPtr) (key : Option CStr)
  | arrget (arr : Option JPtr) (index : Int)
  | objget (obj : Option JPtr) (key : Option CStr)

/-- The values in memory, the error state, and the references that the application has. -/
structure JApp (R : Type) where
  store : JStore R
  err : ErrState
  held : List Nat

namespace JApp

/-- Nothing is allocated. -/
def empty : JApp R := ⟨[], .zero, []⟩

/-- A new value, and the reference to it. -/
def made (s : JApp R) (x : ErrM (Option JPtr × JStore R)) : Option ((Int × Option JPtr) × JApp R) :=
  (x s.err).map fun ((j, h), e) => ((0, j), ⟨h, e, (j.bind JPtr.addr?).toList ++ s.held⟩)

/-- A change, after which the application has the references `held`. -/
def changed (s : JApp R) (x : ErrM (Int × JStore R)) (held : Int → List Nat) : Option ((Int × Option JPtr) × JApp R) :=
  (x s.err).map fun ((r, h), e) => ((r, none), ⟨h, e, held r⟩)

/-- A pointer into a container; it is borrowed. -/
def got (s : JApp R) (x : ErrM (Option JPtr)) : Option ((Int × Option JPtr) × JApp R) :=
  (x s.err).map fun (j, e) => ((0, j), { s with err := e })

end JApp

namespace JCall

/-- A value that was put into a container, or freed since it could not be, is no longer the application's. -/
def kept (held : List Nat) (value : Option JPtr) (freeval : Bool) (r : Int) : List Nat :=
  if r = 0 ∨ freeval then given held value else held

/-- What a call returns and does; `hash` and `kind` are the hash function and the classes of numbers. -/
def exec (hash : CStr → UInt64) (kind : R → RealKind) (s : JApp R) : JCall R → Option ((Int × Option JPtr) × JApp R)
  | int i => s.made (s.store.jsonInt i)
  | real r => s.made (s.store.jsonReal kind r)
  | str text flags => s.made (s.store.jsonStr text flags)
  | arr => s.made (pure (some s.store.jsonArr.1, s.store.jsonArr.2))
  | obj => s.made (s.store.jsonObj hash >>= fun p => pure (some p.1, p.2))
  | ref j amt => s.changed (s.store.jsonRef j amt >>= fun h => pure (0, h))
      fun _ => (j.addr?.map fun a => List.replicate amt a).getD [] ++ s.held
  | free j => s.changed (JStore.orUndef (s.store.jsonFree j) >>= fun h => pure (0, h)) fun _ => given s.held (some j)
  | arradd array elem freeval => s.changed (s.store.jsonArradd array elem freeval) (kept s.held elem freeval)
  | arrremove array index => s.changed (s.store.jsonArrremove array index) fun _ => s.held
  | objput object key value flags freeval =>
    s.changed (s.store.jsonObjput object key value flags freeval) (kept s.held value freeval)
  | objremove object key => s.changed (s.store.jsonObjremove object key) fun _ => s.held
  | arrget array index => s.got (s.store.jsonArrget array index)
  | objget object key => s.got (s.store.jsonObjget object key)

/-- The container that a call changes. -/
def target : JCall R → Option JPtr
  | arradd array _ _ | arrremove array _ => array
  | objput object _ _ _ _ | objremove object _ => object
  | int _ | real _ | str _ _ | arr | obj | ref _ _ | free _ | arrget _ _ | objget _ _ => none

/-- The value that a call puts into it. -/
def link : JCall R → Option JPtr
  | arradd _ elem _ => elem
  | objput _ _ value _ _ => value
  | int _ | real _ | str _ _ | arr | obj | ref _ _ | free _ | arrremove _ _ | objremove _ _ | arrget _ _ | objget _ _ => none

/-- What `json.h` asks of the caller, and that a put into an object has a place in its table. -/
def Legal (s : JApp R) : JCall R → Prop
  | int _ | real _ | str _ _ | arr | obj => True
  | ref j amt => s.store.Usable s.held (some j) ∧
      ∀ a b, j.addr? = some a → s.store.read a = some b → b.count + amt ≤ intMax
  | free j => Owned s.held (some j)
  | arradd array elem _ => Owned s.held elem ∧ s.store.Usable (given s.held elem) array
  | objput object key value _ _ => Owned s.held value ∧ s.store.Usable (given s.held value) object ∧
      ∀ o k t, object = some o → key = some k → s.store.load o = some (.obj t) → t.HasSlot k
  | arrremove j _ | objremove j _ | arrget j _ | objget j _ => s.store.Usable s.held j

/-- The container is not put below itself. -/
def Downward (s : JApp R) (c : JCall R) : Prop :=
  ∀ a b, c.target.bind JPtr.addr? = some a → c.link.bind JPtr.addr? = some b →
    ¬ Relation.ReflTransGen (s.store.Edge JBody.kids) b a

end JCall

/-- The places in containers where a block is. -/
def JStore.places (h : JStore R) (a : Nat) : Nat := (h.map fun b => (b.map fun b => b.body.kids.count a).getD 0).sum

/-- Every count is the number of references, and nothing that is referred to was freed. -/
structure JStore.Exact (h : JStore R) (held : List Nat) : Prop where
  nrefs : ∀ a b, h.read a = some b → b.count = held.count a + h.places a
  held : ∀ a ∈ held, (h.read a).isSome = true
  kids : ∀ a b, h.read a = some b → ∀ c ∈ b.body.kids, (h.read c).isSome = true

/-- What holds between the calls; others have the references `rest`. -/
structure JApp.Ok (s : JApp R) (rest : List Nat) : Prop where
  holds : s.store.Holds (s.held ++ rest)
  thawed : s.err.frozen = false

namespace JApp
variable {hash : CStr → UInt64} {kind : R → RealKind} {s s' : JApp R} {rest : List Nat} {c : JCall R} {cs : List (JCall R)}

theorem Ok.empty : (empty : JApp R).Ok [] where
  holds := by
    refine ⟨fun a => ?_, fun a b hb => ?_, fun a b hb => ?_⟩
    · rfl
    · cases hb
    · cases hb
  thawed := rfl

/-! ### The references of the application among all -/

theorem owned_append {held : List Nat} {value : Option JPtr} (h : Owned held value) : Owned (held ++ rest) value :=
  fun a ha => List.mem_append_left rest (h a ha)

theorem given_append {held : List Nat} {value : Option JPtr} (h : Owned held value) :
    given (held ++ rest) value = given held value ++ rest := by
  unfold given
  cases ha : value.bind JPtr.addr? with
  | none => rfl
  | some a => exact List.erase_append_left rest (h a ha)

theorem kept_append {held : List Nat} {value : Option JPtr} (h : Owned held value) (freeval : Bool) (r : Int) :
    (if r = 0 ∨ freeval = true then given (held ++ rest) value else held ++ rest) = JCall.kept held value freeval r ++ rest := by
  unfold JCall.kept
  rw [given_append h]
  split <;> rfl

theorem usable_append {h : JStore R} {held : List Nat} {j : Option JPtr} (hu : h.Usable held j) :
    h.Usable (held ++ rest) j :=
  hu.mono fun _ hx => List.mem_append_left rest hx

/-! ### One call -/

/-- What a call did. -/
structure Stepped (rest : List Nat) (s : JApp R) (c : JCall R) (r : Int × Option JPtr) (s' : JApp R) : Prop where
  ok : s'.Ok rest
  effect : s.store.Effect s'.store c.target c.link
  usable : s'.store.Usable s'.held r.2

theorem Ok.made {x : ErrM (Option JPtr × JStore R)} {c : JCall R} (hc : c.target = none) (hl : c.link = none)
    {j : Option JPtr} {h' : JStore R} {e' : ErrState} (hrun : x s.err = some ((j, h'), e')) (he' : e'.frozen = false)
    (hh' : h'.Holds ((j.bind JPtr.addr?).toList ++ (s.held ++ rest))) (heff : s.store.Effect h' none none) :
    ∃ r s', s.made x = some (r, s') ∧ Stepped rest s c r s' := by
  refine ⟨(0, j), ⟨h', e', (j.bind JPtr.addr?).toList ++ s.held⟩, by rw [JApp.made, hrun]; rfl, ⟨⟨?_, he'⟩, ?_, ?_⟩⟩
  · rw [List.append_assoc]
    exact hh'
  · rw [hc, hl]
    exact heff
  · intro a ha
    refine .root (List.count_pos_iff.2 (List.mem_append_left _ ?_))
    rw [ha]
    exact List.mem_singleton_self a

/-- A leaf that was allocated. -/
theorem Ok.allocated (hs : s.Ok rest) {x : ErrM (Option JPtr × JStore R)} {c : JCall R} (hc : c.target = none)
    (hl : c.link = none) (body : JBody R) (hok : body.Ok) (hkids : body.kids = []) (e' : ErrState)
    (hrun : x s.err = some ((some (s.store.alloc body).1, (s.store.alloc body).2), e')) (he' : e'.frozen = false) :
    ∃ r s', s.made x = some (r, s') ∧ Stepped rest s c r s' :=
  Ok.made hc hl hrun he' (JStore.alloc_spec hs.holds hok hkids) (.alloc s.store hkids)

/-- Nothing was allocated. -/
theorem Ok.notMade (hs : s.Ok rest) {x : ErrM (Option JPtr × JStore R)} {c : JCall R} (hc : c.target = none)
    (hl : c.link = none) (j : Option JPtr) (hj : j.bind JPtr.addr? = none) (e' : ErrState)
    (hrun : x s.err = some ((j, s.store), e')) (he' : e'.frozen = false) :
    ∃ r s', s.made x = some (r, s') ∧ Stepped rest s c r s' := by
  refine Ok.made hc hl hrun he' ?_ (.refl s.store none none)
  rw [hj]
  exact hs.holds

theorem Ok.changed {x : ErrM (Int × JStore R)} {held : Int → List Nat} {refs : Int → List Nat} {c : JCall R}
    (hd : JStore.Done x s.store s.err refs c.target c.link) (heq : ∀ r, refs r = held r ++ rest) :
    ∃ r s', s.changed x held = some (r, s') ∧ Stepped rest s c r s' := by
  obtain ⟨r, h', e', hrun, he', hh', heff⟩ := hd.run
  exact ⟨(r, none), ⟨h', e', held r⟩, by rw [JApp.changed, hrun]; rfl, ⟨⟨heq r ▸ hh', he'⟩, heff, fun _ ha => nomatch ha⟩⟩

theorem Ok.got (hs : s.Ok rest) {x : ErrM (Option JPtr)} {c : JCall R} (hc : c.target = none) (hl : c.link = none)
    (hrun : ∃ j e', x s.err = some (j, e') ∧ e'.frozen = false ∧ s.store.Usable s.held j) :
    ∃ r s', s.got x = some (r, s') ∧ Stepped rest s c r s' := by
  obtain ⟨j, e', hrun, he', hu⟩ := hrun
  refine ⟨(0, j), { s with err := e' }, by rw [JApp.got, hrun]; rfl, ⟨⟨hs.holds, he'⟩, ?_, hu⟩⟩
  rw [hc, hl]
  exact .refl s.store none none

theorem usable_none (h : JStore R) (held : List Nat) : h.Usable held none := fun _ ha => nomatch ha

/-- What is in a container that can be used can be used. -/
theorem usable_kid {h : JStore R} {refs held : List Nat} {j elem : JPtr} {body : JBody R} (hh : h.Holds refs)
    (hu : h.Usable held (some j)) (hl : h.load j = some body) (hbody : body.Ok)
    (hkid : ∀ a, elem.addr? = some a → a ∈ body.kids) : h.Usable held (some elem) := by
  intro a ha
  obtain ⟨p, b, rfl, hb, rfl⟩ := JStore.load_container hl hbody
  exact .step (hu p rfl) ⟨b, hb, hh.settled p b hb, hkid a ha⟩

/-- An `arrget` gives an element, or fails. -/
theorem arrget_spec (hs : s.Ok rest) {arr : Option JPtr} (hu : s.store.Usable s.held arr) (index : Int) :
    ∃ j e', s.store.jsonArrget arr index s.err = some (j, e') ∧ e'.frozen = false ∧ s.store.Usable s.held j := by
  cases arr with
  | none =>
    exact ⟨none, _, setErrNull_run _ _ _ (by decide), by rw [raised_frozen, hs.thawed], usable_none _ _⟩
  | some arr =>
    obtain ⟨body, hl⟩ := (usable_append hu).load hs.holds
    unfold JStore.jsonArrget
    simp only [hl]
    cases body with
    | arr l =>
      by_cases hout : index < 0 ∨ index ≥ l.length
      · have hrun := setErrNull_run (α := JPtr) s.err (loc "array_get.c" "pcl_array_get" 43) eIndex (by decide)
        refine ⟨none, _, by simp only [arrayGet, if_pos hout, ErrM.bind_run, hrun, Option.bind_some, trcNull_run]; rfl, ?_,
          usable_none _ _⟩
        rw [traced_frozen, raised_frozen, hs.thawed]
      · have hlt : index.toNat < l.length := by omega
        refine ⟨some l[index.toNat], s.err.cleared, ?_, by rw [cleared_frozen, hs.thawed], ?_⟩
        · simp only [arrayGet, if_neg hout, ErrM.bind_run, errClear_run, Option.bind_some, List.getElem?_eq_getElem hlt,
            ErrM.pure_run]
        · refine usable_kid hs.holds hu hl trivial fun a ha => ?_
          exact List.mem_filterMap.2 ⟨l[index.toNat], List.getElem_mem hlt, ha⟩
    | _ =>
      obtain ⟨e', hrun, hf⟩ := JStore.typeErr_fails hs.thawed hl (loc "json_arrget.c" "pcl_json_arrget" 42) 'a'
      exact ⟨none, e', by simp only [ErrM.bind_run, hrun, Option.bind_some, ErrM.pure_run], hf, usable_none _ _⟩

theorem htableGet_staysThawed {K V : Type} (t : HTable K V) (key : Option K) : (htableGet t key).StaysThawed := by
  refine .bind ?_ fun found => ?_
  · cases key with
    | none => exact ErrM.staysThawed_setErrNull _ _
    | some key =>
      refine .bind ?_ fun found => ?_
      · unfold ipclHtableLookup
        split
        · exact .undef
        · exact ErrM.staysThawed_setErrNull _ _
        · exact .pure _
      · cases found with
        | none => exact ErrM.staysThawed_trcNull _
        | some i => exact .pure _
  · cases found with
    | none => exact ErrM.staysThawed_trcNull _
    | some i =>
      refine .bind ?_ fun _ => ?_
      · intro e r e' hrun he
        rw [errClear_run] at hrun
        cases hrun
        rw [cleared_frozen, he]
      · split
        · exact .undef
        · exact .pure _

/-- An `objget` gives a value, or fails. -/
theorem objget_spec (hs : s.Ok rest) {obj : Option JPtr} (hu : s.store.Usable s.held obj) (key : Option CStr) :
    ∃ j e', s.store.jsonObjget obj key s.err = some (j, e') ∧ e'.frozen = false ∧ s.store.Usable s.held j := by
  match obj, key with
  | none, _ | some _, none =>
    exact ⟨none, _, setErrNull_run _ _ _ (by decide), by rw [raised_frozen, hs.thawed], usable_none _ _⟩
  | some obj, some key =>
    obtain ⟨body, hl⟩ := (usable_append hu).load hs.holds
    unfold JStore.jsonObjget
    simp only [hl]
    cases body with
    | obj t =>
      have hobj : ObjectOk t := hs.holds.objectOk hl
      obtain ⟨e₁, hget, -⟩ := hobj.get_spec hobj.callbacks key s.err
      have hf : e₁.frozen = false := htableGet_staysThawed t (some key) _ _ _ hget hs.thawed
      cases hfind : (OMap.find t.eqv t.live key).bind Prod.snd with
      | none =>
        rw [hfind] at hget
        by_cases hno : e₁.err ≠ 0
        · refine ⟨none, _, by simp only [ErrM.bind_run, hget, Option.bind_some, errno, if_pos hno, trcNull_run]; rfl, ?_,
            usable_none _ _⟩
          rw [traced_frozen, hf]
        · have hset := setErrNull_run (α := JPtr) e₁ (loc "json_objget.c" "pcl_json_objget" 47) eNotfound (by decide)
          refine ⟨none, _, by simp only [ErrM.bind_run, hget, Option.bind_some, errno, if_neg hno, hset]; rfl, ?_,
            usable_none _ _⟩
          rw [raised_frozen, hf]
      | some j =>
        rw [hfind] at hget
        refine ⟨some j, e₁, by simp only [ErrM.bind_run, hget, Option.bind_some, ErrM.pure_run], hf, ?_⟩
        obtain ⟨p, hp, hpj⟩ := Option.bind_eq_some_iff.1 hfind
        refine usable_kid hs.holds hu hl hobj fun a ha => ?_
        rw [hobj.kids_obj]
        exact List.mem_filterMap.2 ⟨p, (OMap.find_mem hp).1, by rw [hpj]; exact ha⟩
    | _ =>
      obtain ⟨e', hrun, hf⟩ := JStore.typeErr_fails hs.thawed hl (loc "json_objget.c" "pcl_json_objget" 42) 'o'
      exact ⟨none, e', by simp only [ErrM.bind_run, hrun, Option.bind_some, ErrM.pure_run], hf, usable_none _ _⟩

theorem ref_spec (hs : s.Ok rest) {j : JPtr} {amt : Nat} (hl : (JCall.ref j amt).Legal s) :
    JStore.Done (s.store.jsonRef j amt >>= fun h => pure (0, h)) s.store s.err
      (fun _ => ((j.addr?.map fun a => List.replicate amt a).getD [] ++ s.held) ++ rest) none none := by
  cases j with
  | block a =>
    obtain ⟨b, hb, hpos⟩ := refs_pos.1 (hs.holds.counted.refs_of_reach (usable_append hl.1 a rfl))
    have hmax := hl.2 a b rfl hb
    have hin : ¬ (b.count + amt < intMin ∨ b.count + amt > intMax) := by
      have : intMin ≤ 0 := by decide
      omega
    refine ⟨0, RefHeap.addRefs s.store a amt, s.err, ?_, hs.thawed, ?_, .addRefs hb amt⟩
    · simp only [JStore.jsonRef, hb, if_neg hin, ErrM.bind_run, ErrM.pure_run, Option.bind_some]
    · rw [List.append_assoc]
      exact JStore.addRefs_spec hs.holds hb amt
  | _ => exact ⟨0, s.store, s.err, rfl, hs.thawed, hs.holds, .refl s.store none none⟩

theorem free_spec (hs : s.Ok rest) {j : JPtr} (hl : Owned s.held (some j)) :
    JStore.Done (JStore.orUndef (s.store.jsonFree j) >>= fun h => pure (0, h)) s.store s.err
      (fun _ => given s.held (some j) ++ rest) none none := by
  obtain ⟨h', hfree, hh', hshrinks⟩ := JStore.jsonFree_spec hs.holds (owned_append hl)
  refine ⟨0, h', s.err, ?_, hs.thawed, ?_, .of_shrinks hshrinks none none⟩
  · simp only [JStore.orUndef, hfree, Option.map_some, ErrM.bind_run, ErrM.pure_run, Option.bind_some]
  · rw [← given_append hl]
    exact hh'

/-- The table of a new object. -/
theorem fresh_objectOk (hash : CStr → UInt64) :
    ObjectOk (freshTable (V := JPtr) (roundCapacity 0) 0 true (fun a b _ => a == b) fun key _ => hash key) ∧
      (freshTable (V := JPtr) (roundCapacity 0) 0 true (fun (a b : CStr) _ => a == b) fun key _ => hash key).cores = [] := by
  obtain ⟨hshape, hcores⟩ := fresh_shape (V := JPtr) (c := roundCapacity 0) ⟨3, by decide, rfl⟩ 0 true
    (fun (a b : CStr) _ => a == b) (fun key _ => hash key)
  refine ⟨⟨.of_empty hshape hcores, ⟨OMap.IsEquiv.beq, fun {a b} hab => ?_⟩, rfl, minLoadfac_le_half, fun p hp => ?_⟩, hcores⟩
  · rw [show a = b from eq_of_beq hab]
  · rw [HTable.live_eq, hcores] at hp
    cases hp

/-- A legal call is defined. -/
theorem Ok.step (hash : CStr → UInt64) (kind : R → RealKind) (hs : s.Ok rest) (hl : c.Legal s) :
    ∃ r s', c.exec hash kind s = some (r, s') ∧ Stepped rest s c r s' := by
  cases c with
  | int i =>
    by_cases hi : i = jsonInvint
    · refine hs.notMade rfl rfl none rfl (s.err.raised (loc "json_int.c" "pcl_json_int" 39) eInval 0 none) ?_ ?_
      · simp only [JStore.jsonInt, if_pos hi, ErrM.bind_run, setErrNull_run _ _ _ (show eInval ≠ eOkay by decide),
          Option.bind_some, ErrM.pure_run]
      · rw [raised_frozen, hs.thawed]
    · refine hs.allocated rfl rfl (.int i) trivial rfl s.err ?_ hs.thawed
      simp only [JStore.jsonInt, if_neg hi, ErrM.pure_run]
  | real r =>
    have hset (line : Int) (msg : Option CStr) (hrun : s.store.jsonReal kind r s.err =
        (errVset (loc "json_real.c" "pcl_json_real" line) eInval 0 msg >>= fun _ => pure (none, s.store)) s.err) :
        ∃ r' s', s.made (s.store.jsonReal kind r) = some (r', s') ∧ Stepped rest s (.real r) r' s' := by
      rw [ErrM.bind_run, errVset_run _ _ _ _ _ (show eInval ≠ eOkay by decide)] at hrun
      exact hs.notMade rfl rfl none rfl _ hrun (by rw [raised_frozen, hs.thawed])
    cases hk : kind r with
    | valid =>
      refine hs.allocated rfl rfl (.real r) trivial rfl s.err ?_ hs.thawed
      simp only [JStore.jsonReal, hk, ErrM.pure_run]
    | invreal => exact hset 40 none (by rw [JStore.jsonReal, hk]; rfl)
    | nan => exact hset 43 _ (by rw [JStore.jsonReal, hk]; rfl)
    | inf => exact hset 46 _ (by rw [JStore.jsonReal, hk]; rfl)
  | str text flags =>
    cases text with
    | none =>
      cases hnull : flags.allowNull with
      | true =>
        refine hs.notMade rfl rfl (some .null) rfl s.err ?_ hs.thawed
        simp only [JStore.jsonStr, hnull, if_true, ErrM.pure_run]
      | false =>
        refine hs.notMade rfl rfl none rfl (s.err.raised (loc "json_str.c" "pcl_json_str" 44) eInval 0 none) ?_ ?_
        · simp only [JStore.jsonStr, hnull, Bool.false_eq_true, if_false, ErrM.bind_run,
            setErrNull_run _ _ _ (show eInval ≠ eOkay by decide), Option.bind_some, ErrM.pure_run]
        · rw [raised_frozen, hs.thawed]
    | some text =>
      obtain ⟨r, e₁, hcheck, hf, -⟩ := JStore.checkText_cases hs.thawed flags text text.strlen
      by_cases hr : r < 0
      · refine hs.notMade rfl rfl none rfl (e₁.traced (loc "json_str.c" "pcl_json_str" 50) none) ?_ ?_
        · simp only [JStore.jsonStr, ErrM.bind_run, hcheck, Option.bind_some, if_pos hr, trcNull_run, ErrM.pure_run]
        · rw [traced_frozen, hf]
      · by_cases hempty : flags.emptyAsNull = true ∧ text.strlen = 0
        · refine hs.notMade rfl rfl (some .null) rfl e₁ ?_ hf
          simp only [JStore.jsonStr, ErrM.bind_run, hcheck, Option.bind_some, if_neg hr, if_pos hempty, ErrM.pure_run]
        · refine hs.allocated rfl rfl (.str text) trivial rfl e₁ ?_ hf
          simp only [JStore.jsonStr, ErrM.bind_run, hcheck, Option.bind_some, if_neg hr, if_neg hempty, ErrM.pure_run]
  | arr => exact hs.allocated rfl rfl (.arr []) trivial rfl s.err rfl hs.thawed
  | obj =>
    obtain ⟨hobj, hcores⟩ := fresh_objectOk hash
    have hkids : (JBody.obj (freshTable (roundCapacity 0) 0 true (fun a b _ => a == b) fun key _ => hash key) :
        JBody R).kids = [] := by
      rw [hobj.kids_obj, HTable.live_eq, hcores]
      rfl
    refine hs.allocated rfl rfl (.obj _) hobj hkids s.err ?_ hs.thawed
    have hrun := htable_run (V := JPtr) (show Accepted 0 from Nat.le_of_ble_eq_true rfl) 0 true
      (fun (a b : CStr) _ => a == b) (fun key _ => hash key) s.err
    simp only [JStore.jsonObj, ErrM.bind_run, hrun, Option.bind_some, ErrM.pure_run]
    rfl
  | ref j amt => exact Ok.changed (s := s) (c := .ref j amt) (ref_spec hs hl) fun _ => rfl
  | free j => exact Ok.changed (s := s) (c := .free j) (free_spec hs hl) fun _ => rfl
  | arradd array elem freeval =>
    refine Ok.changed (JStore.jsonArradd_spec hs.holds hs.thawed (owned_append hl.1) ?_ freeval)
      (kept_append hl.1 freeval)
    rw [given_append hl.1]
    exact usable_append hl.2
  | arrremove array index =>
    exact Ok.changed (s := s) (c := .arrremove array index)
      (JStore.jsonArrremove_spec hs.holds hs.thawed (usable_append hl) index) fun _ => rfl
  | objput object key value flags freeval =>
    refine Ok.changed (JStore.jsonObjput_spec hs.holds hs.thawed (owned_append hl.1) ?_ hl.2.2 flags freeval)
      (kept_append hl.1 freeval)
    rw [given_append hl.1]
    exact usable_append hl.2.1
  | objremove object key =>
    exact Ok.changed (s := s) (c := .objremove object key)
      (JStore.jsonObjremove_spec hs.holds hs.thawed (usable_append hl) key) fun _ => rfl
  | arrget array index => exact hs.got rfl rfl (arrget_spec hs hl index)
  | objget object key => exact hs.got rfl rfl (objget_spec hs hl key)

/-! ### A shared array -/

/-- An array with a number in it, and a second reference to it. -/
def sharing : List (JCall Nat) :=
  [.arr, .int 5, .arradd (some (.block 0)) (some (.block 1)) false, .ref (.block 0) 1]

/-- What is in memory then. -/
def shared : JApp Nat := ⟨[some ⟨2, .arr [.block 1]⟩, some ⟨1, .int 5⟩], .zero, [0, 0]⟩

theorem usable_held {h : JStore R} {held : List Nat} {a : Nat} (ha : a ∈ held) : h.Usable held (some (.block a)) := by
  rintro _ ⟨⟩
  exact .root (List.count_pos_iff.2 ha)

theorem sharing_legal {cs : List (JCall Nat)}
    (h : Follow.Throughout (JCall.exec (fun _ => 0) fun _ => .valid) (fun s c => c.Legal s ∧ c.Downward s) shared cs) :
    Follow.Throughout (JCall.exec (fun _ => 0) fun _ => .valid) (fun s c => c.Legal s ∧ c.Downward s) .empty
      (sharing ++ cs) := by
  have hno {s : JApp Nat} {c : JCall Nat} (hc : c.target = none) : c.Downward s := fun a b ha => nomatch hc ▸ ha
  refine .next ⟨[some ⟨1, .arr []⟩], .zero, [0]⟩ rfl ⟨trivial, hno rfl⟩ ?_
  refine .next ⟨[some ⟨1, .arr []⟩, some ⟨1, .int 5⟩], .zero, [1, 0]⟩ rfl ⟨trivial, hno rfl⟩ ?_
  refine .next ⟨[some ⟨1, .arr [.block 1]⟩, some ⟨1, .int 5⟩], .zero, [0]⟩ rfl ⟨⟨?_, usable_held (by decide)⟩, ?_⟩ ?_
  · rintro _ ⟨⟩
    decide
  · -- the number has no elements, so nothing leads back
    rintro _ _ ⟨⟩ ⟨⟩ hpath
    rcases Relation.ReflTransGen.cases_head hpath with h | ⟨c, ⟨b, hb, -, hc⟩, -⟩
    · cases h
    · cases hb
      cases hc
  refine .next shared rfl ⟨⟨usable_held (by decide), ?_⟩, hno rfl⟩ h
  rintro _ b ⟨⟩ ⟨⟩
  decide

/-- Both references are given up. -/
theorem shared_freed : Follow.Throughout (JCall.exec (fun _ => 0) fun _ => .valid) (fun s c => c.Legal s ∧ c.Downward s)
    shared [.free (.block 0), .free (.block 0)] := by
  refine .next ⟨[some ⟨1, .arr [.block 1]⟩, some ⟨1, .int 5⟩], .zero, [0]⟩ rfl ⟨?_, fun a b ha => nomatch ha⟩ ?_
  · rintro _ ⟨⟩
    decide
  refine .next ⟨[none, none], .zero, []⟩ rfl ⟨?_, fun a b ha => nomatch ha⟩ trivial
  rintro _ ⟨⟩
  decide

/-! ### Runs -/

/-- A body's references to a block, without a look at the count. -/
theorem inner_eq_places {h : JStore R} (hset : h.Settled) (a : Nat) : h.inner JBody.kids a = h.places a := by
  unfold RefHeap.inner JStore.places
  refine congrArg List.sum (List.map_congr_left fun o ho => ?_)
  cases o with
  | none => rfl
  | some b =>
    obtain ⟨i, hi⟩ := List.getElem?_of_mem ho
    exact if_pos (hset i b (read_eq_some.2 hi))

theorem Ok.exact (hs : s.Ok []) : s.store.Exact s.held := by
  have hcounted := hs.holds.counted
  rw [List.append_nil] at hcounted
  have hisSome {a : Nat} (ha : 0 < s.store.refs a) : (s.store.read a).isSome = true := by
    obtain ⟨b, hb, -⟩ := refs_pos.1 ha
    rw [hb]
    rfl
  refine ⟨fun a b hb => ?_, fun a ha => ?_, fun a b hb c hc => ?_⟩
  · have hpos := hs.holds.settled a b hb
    have ha := hcounted a
    rw [inner_eq_places hs.holds.settled, refs, hb] at ha
    unfold weight at ha
    simp only at ha
    omega
  · exact hisSome (hcounted.refs_of_reach (.root (List.count_pos_iff.2 ha)))
  · refine hisSome ?_
    rw [hcounted]
    have := Edge.inner_pos ⟨b, hb, hs.holds.settled a b hb, hc⟩
    omega

/-- Every legal run is defined; all the way each count is the number of references, what is referred to is in memory, and
so is every pointer that is returned. -/
theorem json_counts_exact (hash : CStr → UInt64) (kind : R → RealKind) (cs : List (JCall R))
    (h : Follow.Throughout (JCall.exec hash kind) (fun s c => c.Legal s) .empty cs) :
    Follow.Always (JCall.exec hash kind)
      (fun _ _ r s' => s'.store.Exact s'.held ∧ ∀ a, r.2 = some (.block a) → (s'.store.read a).isSome = true) .empty cs := by
  refine h.always (I := fun s => s.Ok []) (fun s c hs hl => ?_) .empty
  obtain ⟨r, s', hrun, hd⟩ := hs.step hash kind hl
  refine ⟨r, s', hrun, ⟨hd.ok.exact, fun a ha => ?_⟩, hd.ok⟩
  have hreach : s'.store.Reach JBody.kids (fun x => (s'.held ++ []).count x) a := usable_append hd.usable a (by rw [ha]; rfl)
  obtain ⟨b, hb, -⟩ := refs_pos.1 (hd.ok.holds.counted.refs_of_reach hreach)
  rw [hb]
  rfl

theorem json_counts_exact_shared : Follow.Always (JCall.exec (fun _ => 0) fun _ => .valid)
    (fun _ _ r s' => s'.store.Exact s'.held ∧ ∀ a, r.2 = some (.block a) → (s'.store.read a).isSome = true) .empty
    (sharing ++ [.free (.block 0), .free (.block 0)]) :=
  json_counts_exact _ _ _ ((sharing_legal shared_freed).mono fun _ _ h => h.1)

/-- A container that is put into another one, and not below itself, closes no cycle. -/
theorem Stepped.acyclic {r : Int × Option JPtr} (hd : Stepped rest s c r s') (hs : s.Ok rest)
    (hacyc : s.store.Acyclic JBody.kids) (hdown : c.Downward s) : s'.store.Acyclic JBody.kids := by
  have hedge (x y : Nat) (he : s'.store.Edge JBody.kids x y) : s.store.Edge JBody.kids x y ∨
      c.target.bind JPtr.addr? = some x ∧ c.link.bind JPtr.addr? = some y := by
    obtain ⟨b', hb', -, hy⟩ := he
    by_cases hx : c.target.bind JPtr.addr? = some x
    · obtain ⟨b, hb, hgrown⟩ := hd.effect.grown x b' hb' hx
      rcases hgrown y hy with hy | hy
      · exact .inl ⟨b, hb, hs.holds.settled x b hb, hy⟩
      · exact .inr ⟨hx, hy⟩
    · rcases hd.effect.same x b' hb' hx with ⟨b, hb, hbody⟩ | ⟨-, hkids⟩
      · exact .inl ⟨b, hb, hs.holds.settled x b hb, hbody ▸ hy⟩
      · rw [hkids] at hy
        cases hy
  intro x
  cases ht : c.target.bind JPtr.addr? with
  | none =>
    refine fun hx => hacyc x (hx.lift id fun u v he => ?_)
    exact (hedge u v he).resolve_right fun h => nomatch ht.symm.trans h.1
  | some a =>
    cases hl : c.link.bind JPtr.addr? with
    | none =>
      refine fun hx => hacyc x (hx.lift id fun u v he => ?_)
      exact (hedge u v he).resolve_right fun h => nomatch hl.symm.trans h.2
    | some b =>
      refine acyclic_insert hacyc (fun u v he => ?_) (hdown a b ht hl) x
      refine (hedge u v he).imp_right fun h => ⟨?_, ?_⟩
      · exact Option.some.inj (h.1.symm.trans ht)
      · exact Option.some.inj (h.2.symm.trans hl)

/-- Where no container is put below itself, nothing is in memory but what the references lead to; it is all free when they
are given up. -/
theorem json_leaks_nothing (hash : CStr → UInt64) (kind : R → RealKind) (cs : List (JCall R))
    (h : Follow.Throughout (JCall.exec hash kind) (fun s c => c.Legal s ∧ c.Downward s) .empty cs) :
    Follow.Always (JCall.exec hash kind) (fun _ _ _ s' =>
      (∀ a, (s'.store.read a).isSome = true → s'.store.Reach JBody.kids (fun x => s'.held.count x) a) ∧
        (s'.held = [] → ∀ a, s'.store.read a = none)) .empty cs := by
  refine h.always (I := fun s => s.Ok [] ∧ s.store.Acyclic JBody.kids) ?_ ⟨.empty, fun a ha => ?_⟩
  · rintro s c ⟨hs, hacyc⟩ ⟨hl, hdown⟩
    obtain ⟨r, s', hrun, hd⟩ := hs.step hash kind hl
    have hacyc' := hd.acyclic hs hacyc hdown
    have hcounted := hd.ok.holds.counted
    rw [List.append_nil] at hcounted
    refine ⟨r, s', hrun, ⟨fun a ha => ?_, fun hheld a => ?_⟩, hd.ok, hacyc'⟩
    · obtain ⟨b, hb⟩ := Option.isSome_iff_exists.1 ha
      exact hcounted.reach_of_acyclic hacyc' (refs_pos.2 ⟨b, hb, hd.ok.holds.settled a b hb⟩)
    · exact (hcounted.congr fun x => by rw [hheld]; rfl).all_freed hacyc' hd.ok.holds.settled a
  · obtain ⟨c, ⟨b, hb, -⟩, -⟩ := Relation.TransGen.head'_iff.1 ha
    cases hb

theorem json_leaks_nothing_shared : Follow.Always (JCall.exec (fun _ => 0) fun _ => .valid) (fun _ _ _ s' =>
    (∀ a, (s'.store.read a).isSome = true → s'.store.Reach JBody.kids (fun x => s'.held.count x) a) ∧
      (s'.held = [] → ∀ a, s'.store.read a = none)) .empty (sharing ++ [.free (.block 0), .free (.block 0)]) :=
  json_leaks_nothing _ _ _ (sharing_legal shared_freed)

/-- What other references lead to stays as it is, unless it is changed itself. -/
theorem Stepped.frame {r : Int × Option JPtr} (hd : Stepped rest s c r s') (hs : s.Ok rest)
    (hother : ∀ a, c.target.bind JPtr.addr? = some a → ¬ s.store.Reach JBody.kids (fun x => rest.count x) a) (a : Nat) :
    (s'.store.Reach JBody.kids (fun x => rest.count x) a ↔ s.store.Reach JBody.kids (fun x => rest.count x) a) ∧
      (s.store.Reach JBody.kids (fun x => rest.count x) a →
        ∃ b b', s.store.read a = some b ∧ s'.store.read a = some b' ∧ b'.body = b.body) := by
  have hrest {h : JStore R} {x : Nat} (hx : h.Reach JBody.kids (fun y => rest.count y) x) (held : List Nat) :
      h.Reach JBody.kids (fun y => (held ++ rest).count y) x :=
    hx.mono fun y hy => List.count_pos_iff.2 (List.mem_append_right held (List.count_pos_iff.1 hy))
  have hbody {x : Nat} (hx : s.store.Reach JBody.kids (fun y => rest.count y) x)
      (hx' : s'.store.Reach JBody.kids (fun y => rest.count y) x) :
      ∃ b b', s.store.read x = some b ∧ s'.store.read x = some b' ∧ b'.body = b.body := by
    obtain ⟨b, hb, -⟩ := refs_pos.1 (hs.holds.counted.refs_of_reach (hrest hx s.held))
    obtain ⟨b', hb', -⟩ := refs_pos.1 (hd.ok.holds.counted.refs_of_reach (hrest hx' s'.held))
    rcases hd.effect.same x b' hb' fun ht => hother x ht hx with ⟨b₁, hb₁, hbody⟩ | ⟨hnone, -⟩
    · cases hb.symm.trans hb₁
      exact ⟨b, b', hb, hb', hbody.symm⟩
    · cases hb.symm.trans hnone
  have hthere {x : Nat} (hx : s.store.Reach JBody.kids (fun y => rest.count y) x) :
      s'.store.Reach JBody.kids (fun y => rest.count y) x := by
    induction hx with
    | root hx => exact .root hx
    | step hp hedge ih =>
      obtain ⟨b, b', hb, hb', hbody⟩ := hbody hp ih
      obtain ⟨b₁, hb₁, -, hc⟩ := hedge
      cases hb.symm.trans hb₁
      exact .step ih ⟨b', hb', hd.ok.holds.settled _ b' hb', hbody ▸ hc⟩
  refine ⟨⟨fun hx => ?_, hthere⟩, fun hx => hbody hx (hthere hx)⟩
  induction hx with
  | root hx => exact .root hx
  | step _ hedge ih =>
    obtain ⟨b, b', hb, hb', hbody⟩ := hbody ih (hthere ih)
    obtain ⟨b₁, hb₁, -, hc⟩ := hedge
    cases hb'.symm.trans hb₁
    exact .step ih ⟨b, hb, hs.holds.settled _ b hb, hbody ▸ hc⟩

/-- Of the references that a run ended with, `others` are kept by someone else: whatever the rest of the application does,
unless it changes a container that they lead to, what they lead to stays in memory as it is. -/
theorem json_others_untouched (hash : CStr → UInt64) (kind : R → RealKind) (pre cs : List (JCall R))
    (hpre : Follow.Throughout (JCall.exec hash kind) (fun s c => c.Legal s) .empty pre) {rs : List (Int × Option JPtr)}
    {s₀ : JApp R} (hrun : Follow.run (JCall.exec hash kind) .empty pre = some (rs, s₀)) {mine others : List Nat}
    (hheld : s₀.held = mine ++ others)
    (h : Follow.Throughout (JCall.exec hash kind) (fun s c => c.Legal s ∧ ∀ a, c.target.bind JPtr.addr? = some a →
      ¬ s₀.store.Reach JBody.kids (fun x => others.count x) a) { s₀ with held := mine } cs) :
    Follow.Always (JCall.exec hash kind) (fun _ _ _ s' => ∀ a, s₀.store.Reach JBody.kids (fun x => others.count x) a →
      ∃ b b', s₀.store.read a = some b ∧ s'.store.read a = some b' ∧ b'.body = b.body) { s₀ with held := mine } cs := by
  have hs₀ : s₀.Ok [] := by
    refine hpre.ends (I := fun s => s.Ok []) (fun s c r s' hs hl hstep => ?_) .empty hrun
    obtain ⟨r', s'', hexec, hd⟩ := hs.step hash kind hl
    cases hstep.symm.trans hexec
    exact hd.ok
  have hshared : ({ s₀ with held := mine } : JApp R).Ok others := by
    refine ⟨?_, hs₀.thawed⟩
    have := hs₀.holds
    rwa [List.append_nil, hheld] at this
  refine h.always (I := fun s => s.Ok others ∧ ∀ a,
    (s.store.Reach JBody.kids (fun x => others.count x) a ↔ s₀.store.Reach JBody.kids (fun x => others.count x) a) ∧
      (s₀.store.Reach JBody.kids (fun x => others.count x) a →
        ∃ b b', s₀.store.read a = some b ∧ s.store.read a = some b' ∧ b'.body = b.body)) ?_ ⟨hshared, fun a => ?_⟩
  · rintro s c ⟨hs, hsame⟩ ⟨hl, hother⟩
    obtain ⟨r, s', hexec, hd⟩ := hs.step hash kind hl
    have hframe := hd.frame hs fun a ha hreach => hother a ha ((hsame a).1.1 hreach)
    have hsame' (a : Nat) (ha : s₀.store.Reach JBody.kids (fun x => others.count x) a) :
        ∃ b b', s₀.store.read a = some b ∧ s'.store.read a = some b' ∧ b'.body = b.body := by
      obtain ⟨b, b₁, hb, hb₁, hbody⟩ := (hsame a).2 ha
      obtain ⟨b₂, b', hb₂, hb', hbody'⟩ := (hframe a).2 ((hsame a).1.2 ha)
      cases hb₁.symm.trans hb₂
      exact ⟨b, b', hb, hb', hbody'.trans hbody⟩
    exact ⟨r, s', hexec, hsame', hd.ok, fun a => ⟨(hframe a).1.trans (hsame a).1, hsame' a⟩⟩
  · refine ⟨Iff.rfl, fun ha => ?_⟩
    have hreach : s₀.store.Reach JBody.kids (fun x => s₀.held.count x) a := ha.mono fun x hx =>
      List.count_pos_iff.2 (hheld ▸ List.mem_append_right mine (List.count_pos_iff.1 hx))
    have hcounted := hs₀.holds.counted
    rw [List.append_nil] at hcounted
    obtain ⟨b, hb, -⟩ := refs_pos.1 (hcounted.refs_of_reach hreach)
    exact ⟨b, b, hb, hb, rfl⟩

theorem json_others_untouched_shared : Follow.Always (JCall.exec (fun _ => 0) fun _ => .valid) (fun _ _ _ s' =>
    ∀ a, shared.store.Reach JBody.kids (fun x => [0].count x) a →
      ∃ b b', shared.store.read a = some b ∧ s'.store.read a = some b' ∧ b'.body = b.body)
    { shared with held := [0] } [.free (.block 0)] := by
  refine json_others_untouched _ _ (sharing ++ []) _
    ((sharing_legal (show Follow.Throughout _ _ shared [] from trivial)).mono fun _ _ h => h.1) rfl rfl ?_
  refine .next ⟨[some ⟨1, .arr [.block 1]⟩, some ⟨1, .int 5⟩], .zero, []⟩ rfl ⟨?_, fun a ha => nomatch ha⟩ trivial
  rintro _ ⟨⟩
  decide

end JApp
end Pcl

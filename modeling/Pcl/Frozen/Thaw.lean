import Pcl.Frozen.Suppress
import Pcl.Json.PathEnds
import Pcl.Log.Vevent

/-!
# What thaws a frozen error state

`pcl_htable_put`, `pcl_json_match`, `pcl_log_vevent`, `pcl_file_close` and `pcl_proc_exec` freeze the error state for a
while and then thaw it, whatever it was before. The rules for a computation that gets to such a thaw, or to none, and the
functions that put an entry into a table.
-/

namespace Pcl

theorem ErrState.Moves.of_thawed {e e' : ErrState} {t : Prop} (ht : t) (he' : e'.frozen = false) : e.Moves t e' :=
  ⟨fun _ => he', fun hn => absurd ht hn, fun hn => absurd ht hn⟩

/-- The frozen state of a thread that has set no error. -/
def ErrState.iced : ErrState := ⟨true, eOkay, 0, []⟩

namespace ErrM
variable {α β : Type} {x y : ErrM α} {f : α → ErrM β}

/-- The computation leaves the state unfrozen. -/
def Thaws (x : ErrM α) : Prop := ∀ e a e', x e = some (a, e') → e'.frozen = false

/-- It leaves an unfrozen state unfrozen. -/
def StaysThawed (x : ErrM α) : Prop := ∀ e a e', x e = some (a, e') → e.frozen = false → e'.frozen = false

theorem Thaws.staysThawed (h : x.Thaws) : x.StaysThawed := fun e a e' hrun _ => h e a e' hrun

theorem StaysThawed.pure (a : α) : (Pure.pure a : ErrM α).StaysThawed := by
  rintro e _ _ hrun he
  cases hrun
  exact he

theorem StaysThawed.undef : (undef : ErrM α).StaysThawed := fun _ _ _ hrun => nomatch hrun

theorem StaysThawed.bind (hx : x.StaysThawed) (hf : ∀ a, (f a).StaysThawed) : (x >>= f).StaysThawed := by
  intro e b e'' hrun he
  obtain ⟨⟨a, e'⟩, ha, hrest⟩ := Option.bind_eq_some_iff.1 hrun
  exact hf a e' b e'' hrest (hx e a e' ha he)

theorem Thaws.bind (hx : x.Thaws) (hf : ∀ a, (f a).StaysThawed) : (x >>= f).Thaws := by
  intro e b e'' hrun
  obtain ⟨⟨a, e'⟩, ha, hrest⟩ := Option.bind_eq_some_iff.1 hrun
  exact hf a e' b e'' hrest (hx e a e' ha)

theorem Thaws.of_bind (hf : ∀ a, (f a).Thaws) : (x >>= f).Thaws := by
  intro e b e'' hrun
  obtain ⟨⟨a, e'⟩, ha, hrest⟩ := Option.bind_eq_some_iff.1 hrun
  exact hf a e' b e'' hrest

theorem thaws_errFreeze : (errFreeze false).Thaws := by
  rintro e _ _ hrun
  cases hrun
  rfl

theorem staysThawed_errVtrace (l : Loc) (msg : Option CStr) : (errVtrace l msg).StaysThawed := by
  intro e a e' hrun he
  rw [errVtrace_run] at hrun
  cases hrun
  rw [traced_frozen, he]

theorem staysThawed_errVset (l : Loc) (err : Int) (oserr : UInt32) (msg : Option CStr) :
    (errVset l err oserr msg).StaysThawed := by
  intro e a e' hrun he
  by_cases h : err = eOkay
  · simp only [errVset, he, Bool.false_eq_true, if_false, errClear_run, Option.bind_some, if_pos h] at hrun
    cases hrun
    rw [cleared_frozen, he]
  · rw [errVset_run _ _ _ _ _ h] at hrun
    cases hrun
    rw [raised_frozen, he]

theorem staysThawed_trcNull (l : Loc) : (trcNull l : ErrM (Option α)).StaysThawed :=
  (staysThawed_errVtrace l none).bind fun _ => .pure none

theorem staysThawed_setErrNull (l : Loc) (err : Int) : (setErrNull l err : ErrM (Option α)).StaysThawed :=
  (staysThawed_errVset l err 0 none).bind fun _ => .pure none

/-- In a frozen state the computation returns `a`, and leaves the state as it is. -/
def Gives (x : ErrM α) (a : α) : Prop := ∀ e, e.frozen = true → x e = some (a, e)

/-- In every frozen state the computation comes to the same, and leaves the state as it is. -/
def Blind (x : ErrM α) : Prop := ∀ e, e.frozen = true → x e = (x .iced).map fun p => (p.1, e)

/-- Where it returns from a frozen state, it has thawed it just under `t`, and else left it as it is. -/
def ThawsIf (x : ErrM α) (t : Prop) : Prop := ∀ e a e', e.frozen = true → x e = some (a, e') → e.Moves t e'

theorem Gives.pure (a : α) : (Pure.pure a : ErrM α).Gives a := fun _ _ => rfl

theorem gives_errVset (l : Loc) (err : Int) (oserr : UInt32) (msg : Option CStr) : (errVset l err oserr msg).Gives 0 :=
  fun _ he => if_pos he

theorem gives_errVtrace (l : Loc) (msg : Option CStr) : (errVtrace l msg).Gives 0 := fun _ he => if_pos he

theorem Gives.bind {a : α} {b : β} (hx : x.Gives a) (hf : (f a).Gives b) : (x >>= f).Gives b := by
  intro e he
  rw [bind_run, hx e he, Option.bind_some, hf e he]

theorem Gives.andPure {a : α} (hx : x.Gives a) (b : β) : (do let _ ← x; return b : ErrM β).Gives b := hx.bind (.pure b)

theorem Gives.ignores {a : α} (h : x.Gives a) : x.Ignores := fun e he => ⟨a, h e he⟩

theorem ThawsIf.congr {t u : Prop} (h : x.ThawsIf t) (htu : t ↔ u) : x.ThawsIf u :=
  fun e a e' he hrun => (h e a e' he hrun).congr htu

theorem ThawsIf.undef (t : Prop) : (undef : ErrM α).ThawsIf t := by
  intro e a e' he hrun
  cases hrun

/-- What follows thaws nothing. -/
theorem ThawsIf.bind {t : Prop} (hx : x.ThawsIf t) (hf : ∀ a, (f a).ThawsIf False) (hs : ∀ a, (f a).StaysThawed) :
    (x >>= f).ThawsIf t := by
  intro e b e'' he hrun
  obtain ⟨⟨a, e'⟩, ha, hrest⟩ := Option.bind_eq_some_iff.1 hrun
  have hm := hx e a e' he ha
  by_cases ht : t
  · have he'' := hs a e' b e'' hrest (hm.thawed ht)
    exact .of_thawed ht he''
  · obtain rfl := hm.same ht he
    exact (hf a _ b e'' he hrest).congr (iff_of_false id ht)

theorem Gives.blind {a : α} (h : x.Gives a) : x.Blind := by
  intro e he
  rw [h e he, h .iced rfl]
  rfl

theorem Blind.pure (a : α) : (Pure.pure a : ErrM α).Blind := fun _ _ => rfl

theorem Blind.of_none (h : ∀ e, e.frozen = true → x e = none) : x.Blind := by
  intro e he
  rw [h e he, h .iced rfl]
  rfl

theorem Blind.undef : (undef : ErrM α).Blind := .of_none fun _ _ => rfl

theorem Blind.iced {e' : ErrState} {a : α} (h : x.Blind) (hrun : x .iced = some (a, e')) : e' = .iced := by
  have hiced := h .iced rfl
  rw [hrun] at hiced
  cases hiced
  rfl

theorem Blind.bind (hx : x.Blind) (hf : ∀ a, (f a).Blind) : (x >>= f).Blind := by
  intro e he
  rw [bind_run, bind_run, hx e he]
  cases hrun : x .iced with
  | none => rfl
  | some p =>
    rw [← Prod.eta p] at hrun
    rw [Option.map_some, Option.bind_some, Option.bind_some, hx.iced hrun]
    exact hf p.1 e he

theorem Blind.ite {c : Prop} [Decidable c] (hx : x.Blind) (hy : y.Blind) : (if c then x else y).Blind := by
  split
  · exact hx
  · exact hy

end ErrM

open ErrM

/-! ### The hash table -/

section
variable {K V R : Type}

theorem rehash_staysThawed (ht : HTable K V) (grow : Bool) : (ipclHtableRehash ht grow).StaysThawed := by
  have hchk : ∀ n, (ipclHtableChkcapacity n).StaysThawed := by
    intro n
    unfold ipclHtableChkcapacity
    dsimp only
    split
    · exact staysThawed_errVset _ _ _ _
    · exact .pure _
  refine (hchk _).bind fun n => ?_
  split
  · exact (staysThawed_errVtrace _ _).bind fun _ => .pure _
  · dsimp only
    split
    · exact .undef
    · exact .pure _

/-- With a key, `pcl_htable_put` thaws the state. -/
theorem htablePut_thaws (ht : HTable K V) (key : K) (value : Option V) (unique : Bool) :
    (htablePut ht (some key) value unique).Thaws := by
  refine .of_bind fun _ => .of_bind fun found => thaws_errFreeze.bind fun _ => ?_
  cases found with
  | some i =>
    dsimp only
    split
    · exact (staysThawed_errVset _ _ _ _).bind fun _ => .pure _
    · exact .pure _
  | none =>
    dsimp only
    split <;> [refine (rehash_staysThawed ht true).bind fun p => ?_; refine (StaysThawed.pure (0, ht)).bind fun p => ?_]
    -- the entry is added, to the table as it is now
    all_goals
      split
      · exact (staysThawed_errVtrace _ _).bind fun _ => .pure _
      · split
        · exact .undef
        · exact .pure _

/-! ### Objects -/

variable (errName : Int → CStr) (errOsname : UInt32 → CStr) {m : List (CStr × Json R)}

theorem objectPut_thaws (m : List (CStr × Json R)) (key : CStr) (value : Json R) : (objectPut m key value).Thaws := by
  refine .of_bind fun _ => .of_bind fun found => thaws_errFreeze.bind fun _ => ?_
  cases found with
  | some v => exact (staysThawed_errVset _ _ _ _).bind fun _ => .pure _
  | none => exact .pure _

theorem utf8Check_staysThawed (s : List UInt8) (len : Nat) : (utf8Check s len).StaysThawed := by
  unfold utf8Check
  dsimp only
  split
  · exact .pure _
  · exact staysThawed_errVset _ _ _ _

theorem checkText_staysThawed (flags : JsonFlags) (s : CStr) (len : Nat) : (checkText flags s len).StaysThawed := by
  unfold checkText
  split
  · exact .pure _
  · exact utf8Check_staysThawed _ _

theorem objputRest_thaws (m : List (CStr × Json R)) (key : CStr) (value : Json R) : (do
    let (r, m) ← objectPut m key value
    if r < 0 then
      let r ← errVtrace (loc "json_objput.c" "pcl_json_objput" 79)
        (some (.ofBytes (txt "failed to put '" ++ key.bytes ++ txt "' key")))
      return (r, some (.obj m))
    else return (0, some (.obj m)) : ErrM (Int × Option (Json R))).Thaws := by
  refine (objectPut_thaws m key value).bind fun p => ?_
  dsimp only
  split
  · exact (staysThawed_errVtrace _ _).bind fun _ => .pure _
  · exact .pure _

/-- A frozen state accepts any text. -/
theorem checkText_gives (flags : JsonFlags) (s : CStr) (len : Nat) : (checkText flags s len).Gives 0 := by
  unfold checkText
  split
  · exact .pure _
  · unfold utf8Check
    dsimp only
    split
    · exact .pure _
    · exact gives_errVset _ _ _ _

theorem jsonObjput_thaws {e e' : ErrState} {p : Int × Option (Json R)} {key : CStr} {value : Json R} {flags : JsonFlags}
    (he : e.frozen = true) (h : jsonObjput (some (.obj m)) (some key) (some value) flags e = some (p, e')) :
    e'.frozen = false := by
  unfold jsonObjput at h
  dsimp only at h
  rw [ErrM.bind_run, checkText_gives flags key 0 e he, Option.bind_some] at h
  exact objputRest_thaws m key value e p e' h

theorem jsonObjput_staysThawed (obj : Option (Json R)) (key : Option CStr) (value : Option (Json R)) (flags : JsonFlags) :
    (jsonObjput obj key value flags).StaysThawed := by
  unfold jsonObjput
  split
  · refine (checkText_staysThawed _ _ _).bind fun r => ?_
    split
    · exact (staysThawed_errVtrace _ _).bind fun _ => .pure _
    · exact (objputRest_thaws _ _ _).staysThawed
  · exact (staysThawed_errVset _ _ _ _).bind fun _ => .pure _
  · exact (staysThawed_errVset _ _ _ _).bind fun _ => .pure _

end

end Pcl

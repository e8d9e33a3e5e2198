import Pcl.Json.Object
import Pcl.Json.PathWalk

/-!
# The error state as JSON

`src/error/err_vjson.c` and `err_setjson.c`. The names of the error codes are a parameter: they are members of the
object, which nothing reads. `pcl_err_setjson` freezes the state to ignore errors while it adds the traces, and
`pcl_err_vtrace` adds none to a frozen state: the traces are always lost.
-/

namespace Pcl

/-- `pcl_err_get`. -/
def errGet : ErrM ErrState := fun e => some (e, e)

/-- `pcl_err_trace` without further arguments: `format` with a directive, which would take one, is undefined. It is
looked at only after the test of the frozen flag. -/
def errTraceFormat (l : Loc) (format : Option CStr) : ErrM Int := fun e =>
  if e.frozen then some (0, e)
  else
    match format with
    | none => errVtrace l none e
    | some format =>
      if format.bytes = [] then errVtrace l none e
      else if ch '%' ∈ format.bytes then none
      else errVtrace l (some format) e

section
variable {R : Type} (errName : Int → CStr) (errOsname : UInt32 → CStr)

/-! ### `pcl_err_vjson` -/

/-- `keyflags` and `strflags`. -/
def strflags : JsonFlags := ⟨true, true, true⟩

/-- A step of `pcl_err_vjson`: `FAILED`, or on with the object. -/
def orFailed (line : Int) (put : ErrM (Int × Option (Json R))) (next : Option (Json R) → ErrM (Option (Json R))) :
    ErrM (Option (Json R)) := do
  let (r, root) ← put
  if r < 0 then trcNull (loc "err_vjson.c" "pcl_err_vjson" line) else next root

/-- The object of a trace. -/
def errVjsonTrace (t : Trace) : ErrM (Option (Json R)) :=
  orFailed 89 (jsonObjputstr (some (.obj [])) (.lit "file") t.file strflags) fun jtrace =>
  orFailed 95 (jsonObjputstr jtrace (.lit "func") t.func strflags) fun jtrace =>
  orFailed 101 (jsonObjputint jtrace (.lit "line") t.line strflags) fun jtrace =>
  orFailed 107 (jsonObjputstr jtrace (.lit "msg") t.msg strflags) fun jtrace => return jtrace

/-- The loop over the traces. -/
def errVjsonTraces : List Trace → ErrM (Option (List (Json R)))
  | [] => return some []
  | t :: ts => do
    match ← errVjsonTrace t with
    | none => return none
    | some jtrace =>
      match ← errVjsonTraces ts with
      | none => return none
      | some strace => return some (jtrace :: strace)

/-- The array at a key, which was empty when it was put, has these elements. -/
def Json.fill (key : CStr) (l : List (Json R)) : Json R → Json R
  | .obj m => .obj (OMap.replace Json.keyEq m key (.arr l))
  | v => v

/-- `pcl_err_vjson`; `message` is the formatted message, if there is one. -/
def errVjson (message : Option CStr) : ErrM (Option (Json R)) := do
  let err ← errGet
  orFailed 52 (jsonObjputint (some (.obj [])) (.lit "err") err.err strflags) fun root => do
  let err ← errGet
  let name := if err.err ≠ 0 then some (errName err.err) else none
  orFailed 57 (jsonObjputstr root (.lit "name") name strflags) fun root => do
  let err ← errGet
  orFailed 60 (jsonObjputint root (.lit "oserr") err.oserr.toNat strflags) fun root => do
  let err ← errGet
  let name := if err.oserr ≠ 0 then some (errOsname err.oserr) else none
  orFailed 65 (jsonObjputstr root (.lit "osname") name strflags) fun root => do
  let jmsg ← jsonStr message { strflags with skipUtf8Chk := false }
  orFailed 75 (jsonObjput root (some (.lit "msg")) jmsg strflags) fun root => do
  orFailed 80 (jsonObjput root (some (.lit "strace")) (some (.arr [])) strflags) fun root => do
  let err ← errGet
  match ← errVjsonTraces err.strace with
  | none => return none
  | some strace => return root.map (Json.fill (.lit "strace") strace)

/-! ### `pcl_err_setjson` -/

/-- The body of the loop of `pcl_err_setjson`. -/
def addTrace (trc : Option (Json R)) : ErrM Unit :=
  match trc with
  | some (.obj m) => do
    let file ← jsonObjgetstr (.obj m) (.lit "file")
    let func ← jsonObjgetstr (.obj m) (.lit "func")
    let line ← jsonObjgetint (.obj m) (.lit "line")
    let msg ← jsonObjgetstr (.obj m) (.lit "msg")
    let line := if line = jsonInvint then 0 else line
    let _ ← errTraceFormat ⟨file, func, toInt line⟩ msg
    return ()
  | _ => return ()

/-- The loop of `pcl_err_setjson`, from the last trace to the first. -/
def addTraces (strace : List (Json R)) : Nat → ErrM Unit
  | 0 => return ()
  | i + 1 => do
    let trc ← jsonArrget strace i
    addTrace trc
    addTraces strace i

/-- The codes are set and the state is frozen. -/
def errSetCodes (errcode oscode : Int) : ErrM Unit := fun e =>
  some ((), { e with frozen := true, err := toInt errcode, oserr := UInt32.ofInt oscode })

/-- `pcl_err_setjson`. -/
def errSetjson (error : Option (Json R)) : ErrM Int := do
  let err ← errGet
  if err.frozen then return 0
  else
    match error with
    | some (.obj m) =>
      let errcode ← jsonObjgetint (.obj m) (.lit "err")
      let oscode ← jsonObjgetint (.obj m) (.lit "oserr")
      let strace ← jsonObjget (.obj m) (.lit "strace")
      match strace with
      | some (.arr strace) =>
        if errcode = jsonInvint ∨ oscode = jsonInvint then setErr (loc "err_setjson.c" "pcl_err_setjson" 54) eFormat
        else
          let _ ← errClear
          -- ignore errors while building
          errSetCodes errcode oscode
          addTraces strace strace.length
          errFreeze false
          return 0
      | _ => setErr (loc "err_setjson.c" "pcl_err_setjson" 54) eFormat
    | _ => setErr (loc "err_setjson.c" "pcl_err_setjson" 47) eType

end

/-! ### In a frozen state -/

namespace ErrM
variable {α β : Type}

/-- The computation returns in a frozen state, and leaves it as it is. -/
def Ignores (x : ErrM α) : Prop := ∀ e : ErrState, e.frozen = true → ∃ a, x e = some (a, e)

theorem Ignores.pure (a : α) : (Pure.pure a : ErrM α).Ignores := fun _ _ => ⟨a, rfl⟩

theorem Ignores.bind {x : ErrM α} {f : α → ErrM β} (hx : x.Ignores) (hf : ∀ a, (f a).Ignores) : (x >>= f).Ignores := by
  intro e he
  obtain ⟨a, ha⟩ := hx e he
  obtain ⟨b, hb⟩ := hf a e he
  exact ⟨b, by rw [bind_run, ha, Option.bind_some, hb]⟩

theorem Yields.ignores {x : ErrM α} {a : α} (h : x.Yields a False) : x.Ignores := by
  intro e he
  obtain ⟨e', hrun, hm⟩ := h e
  rw [hm.same not_false he] at hrun
  exact ⟨a, hrun⟩

theorem errVset_ignores (l : Loc) (err : Int) (oserr : UInt32) (msg : Option CStr) : (errVset l err oserr msg).Ignores := by
  intro e he
  exact ⟨0, by rw [errVset, if_pos he]⟩

theorem errVtrace_ignores (l : Loc) (msg : Option CStr) : (errVtrace l msg).Ignores := by
  intro e he
  exact ⟨0, by rw [errVtrace, if_pos he]⟩

end ErrM

open ErrM

section
variable {R : Type}

theorem trcNull_ignores {α : Type} (l : Loc) : (trcNull l : ErrM (Option α)).Ignores :=
  (errVtrace_ignores l none).bind fun _ => .pure none

theorem errTraceFormat_ignores (l : Loc) (format : Option CStr) : (errTraceFormat l format).Ignores := by
  intro e he
  unfold errTraceFormat
  exact ⟨0, by rw [if_pos he]⟩

theorem jsonObjgetstr_ignores (m : List (CStr × Json R)) (key : CStr) : (jsonObjgetstr (.obj m) key).Ignores := by
  refine (jsonObjget_yields m key).ignores.bind fun v => ?_
  cases v with
  | none => exact trcNull_ignores _
  | some v => cases v <;> first | exact .pure _ | exact (errVset_ignores _ _ _ _).bind fun _ => .pure _

theorem jsonObjgetint_ignores (m : List (CStr × Json R)) (key : CStr) : (jsonObjgetint (.obj m) key).Ignores := by
  refine (jsonObjget_yields m key).ignores.bind fun v => ?_
  cases v with
  | none => exact (errVtrace_ignores _ _).bind fun _ => .pure _
  | some v => cases v <;> first | exact .pure _ | exact (errVset_ignores _ _ _ _).bind fun _ => .pure _

theorem jsonArrget_ignores (l : List (Json R)) (i : Int) : (jsonArrget l i).Ignores := by
  refine (arrayGet_yields l i).ignores.bind fun v => ?_
  cases v with
  | none => exact trcNull_ignores _
  | some v => exact .pure _

theorem addTrace_ignores (trc : Option (Json R)) : (addTrace trc).Ignores := by
  unfold addTrace
  split
  · exact (jsonObjgetstr_ignores _ _).bind fun _ => (jsonObjgetstr_ignores _ _).bind fun _ =>
      (jsonObjgetint_ignores _ _).bind fun _ => (jsonObjgetstr_ignores _ _).bind fun _ =>
        (errTraceFormat_ignores _ _).bind fun _ => .pure ()
  · exact .pure ()

theorem addTraces_ignores (strace : List (Json R)) (n : Nat) : (addTraces strace n).Ignores := by
  induction n with
  | zero => exact .pure ()
  | succ i ih => exact (jsonArrget_ignores _ _).bind fun trc => (addTrace_ignores trc).bind fun _ => ih

/-! ### Reading the object -/

variable {m : List (CStr × Json R)} {key key' : CStr} {e : ErrState}

theorem jsonObjget_found {v : Json R} (h : OMap.find Json.keyEq m key = some (key', v)) (e : ErrState) :
    jsonObjget (.obj m) key e = some (some v, e.cleared) := by
  unfold jsonObjget objectGet
  simp only [h, ErrM.bind_run, errClear_run, Option.bind_some]
  rfl

theorem jsonObjgetint_found {i : Int} (h : OMap.find Json.keyEq m key = some (key', .int i)) (e : ErrState) :
    jsonObjgetint (.obj m) key e = some (i, e.cleared) := by
  unfold jsonObjgetint
  simp only [ErrM.bind_run, jsonObjget_found h, Option.bind_some]
  rfl

/-- The object of an error: its codes and its traces. -/
structure ErrObject (m : List (CStr × Json R)) (err oserr : Int) (strace : List (Json R)) : Prop where
  err_eq : ∃ key, OMap.find Json.keyEq m (.lit "err") = some (key, .int err)
  oserr_eq : ∃ key, OMap.find Json.keyEq m (.lit "oserr") = some (key, .int oserr)
  strace_eq : ∃ key, OMap.find Json.keyEq m (.lit "strace") = some (key, .arr strace)

/-- The codes are restored, the traces are not. -/
theorem errSetjson_run {err oserr : Int} {strace : List (Json R)} (h : ErrObject m err oserr strace)
    (herr : err ≠ jsonInvint) (hoserr : oserr ≠ jsonInvint) (he : e.frozen = false) :
    errSetjson (some (.obj m)) e = some (0, ⟨false, toInt err, UInt32.ofInt oserr, []⟩) := by
  obtain ⟨_, h₁⟩ := h.err_eq
  obtain ⟨_, h₂⟩ := h.oserr_eq
  obtain ⟨_, h₃⟩ := h.strace_eq
  have hinv : ¬ (err = jsonInvint ∨ oserr = jsonInvint) := not_or.2 ⟨herr, hoserr⟩
  obtain ⟨u, hloop⟩ := addTraces_ignores strace strace.length ⟨true, toInt err, UInt32.ofInt oserr, []⟩ rfl
  have hclear : e.cleared = ⟨false, eOkay, 0, []⟩ := by
    obtain ⟨frozen, _, _, _⟩ := e
    cases he
    rfl
  unfold errSetjson errGet
  simp only [ErrM.bind_run, Option.bind_some, he, Bool.false_eq_true, if_false, jsonObjgetint_found h₁,
    jsonObjgetint_found h₂, jsonObjget_found h₃, if_neg hinv, errClear_run, hclear]
  have hcodes : errSetCodes err oserr (⟨false, eOkay, 0, []⟩ : ErrState).cleared.cleared.cleared =
      some ((), ⟨true, toInt err, UInt32.ofInt oserr, []⟩) := rfl
  rw [hcodes, Option.bind_some, hloop, Option.bind_some]
  rfl

/-! ### Building it -/

theorem thawed_eq (he : e.frozen = false) : e.thawed = e := by
  obtain ⟨frozen, _, _, _⟩ := e
  cases he
  rfl

theorem errGet_bind {α : Type} (f : ErrState → ErrM α) (e : ErrState) : (errGet >>= f) e = f e e := rfl

section
variable {line : Int} {put : ErrM (Int × Option (Json R))} {next : Option (Json R) → ErrM (Option (Json R))}

theorem orFailed_ok {root : Option (Json R)} {e' : ErrState} (h : put e = some ((0, root), e')) :
    orFailed line put next e = next root e' := by
  unfold orFailed
  simp only [ErrM.bind_run, h, Option.bind_some, Int.lt_irrefl, if_false]

theorem orFailed_failed {root : Option (Json R)} {r : Int} {e' : ErrState} (h : put e = some ((r, root), e'))
    (hr : r < 0) :
    orFailed line put next e = some (none, e'.traced (loc "err_vjson.c" "pcl_err_vjson" line) none) := by
  unfold orFailed
  simp only [ErrM.bind_run, h, Option.bind_some, if_pos hr, trcNull_run]

theorem orFailed_put (he : e.frozen = false) (v : Json R) (h : OMap.find Json.keyEq m key = none) :
    orFailed line (jsonObjput (some (.obj m)) (some key) (some v) strflags) next e =
      next (some (.obj (m ++ [(key, v)]))) e := by
  rw [orFailed_ok (jsonObjput_new e rfl h), thawed_eq he]

theorem orFailed_int (he : e.frozen = false) {i : Int} (hi : i ≠ jsonInvint) (h : OMap.find Json.keyEq m key = none) :
    orFailed line (jsonObjputint (some (.obj m)) key i strflags) next e = next (some (.obj (m ++ [(key, .int i)]))) e := by
  rw [orFailed_ok (jsonObjputint_new e hi rfl h), thawed_eq he]

theorem orFailed_str (he : e.frozen = false) (str : Option CStr) (h : OMap.find Json.keyEq m key = none) :
    orFailed line (jsonObjputstr (some (.obj m)) key str strflags) next e =
      next (some (.obj (m ++ [(key, .ofOption str)]))) e := by
  have hput : jsonObjputstr (some (.obj m)) key str strflags e =
      some ((0, some (.obj (m ++ [(key, Json.ofOption str)]))), e.thawed) := jsonObjputstr_new e str h
  rw [orFailed_ok hput, thawed_eq he]

end

variable (errName : Int → CStr) (errOsname : UInt32 → CStr)

/-- The members before the message. -/
def codeMembers (e : ErrState) : List (CStr × Json R) :=
  [(.lit "err", .int e.err), (.lit "name", .ofOption (if e.err ≠ 0 then some (errName e.err) else none)),
    (.lit "oserr", .int e.oserr.toNat),
    (.lit "osname", .ofOption (if e.oserr ≠ 0 then some (errOsname e.oserr) else none))]

/-- What `pcl_err_vjson` goes on with behind the codes. -/
def errVjsonRest (message : Option CStr) (root : Option (Json R)) : ErrM (Option (Json R)) := do
  let jmsg ← jsonStr message { strflags with skipUtf8Chk := false }
  orFailed 75 (jsonObjput root (some (.lit "msg")) jmsg strflags) fun root => do
  orFailed 80 (jsonObjput root (some (.lit "strace")) (some (.arr [])) strflags) fun root => do
  let err ← errGet
  match ← errVjsonTraces err.strace with
  | none => return none
  | some strace => return root.map (Json.fill (.lit "strace") strace)

theorem errVjson_codes (he : e.frozen = false) (herr : e.err ≠ jsonInvint) (message : Option CStr) :
    errVjson (R := R) errName errOsname message e =
      errVjsonRest message (some (.obj (codeMembers errName errOsname e))) e := by
  have hoserr : (e.oserr.toNat : Int) ≠ jsonInvint := by
    intro h
    have hneg : jsonInvint < 0 := by decide
    omega
  unfold errVjson
  rw [errGet_bind, orFailed_int he herr rfl, errGet_bind, orFailed_str he _ rfl, errGet_bind,
    orFailed_int he hoserr rfl, errGet_bind, orFailed_str he _ rfl]
  rfl

theorem checkText_all (s : CStr) : checkText { strflags with skipUtf8Chk := false } s s.strlen =
    (utf8Scan s.bytes).elim (pure 0) fun p =>
      errVset (loc "utf8_check.c" "pcl_utf8_check" p.1) eIlseq 0 (some p.2) := by
  have hlen : (if s.strlen = 0 then (CStr.ofBytes s.bytes).strlen else s.strlen) = s.strlen := by
    rw [CStr.ofBytes_bytes, ite_self]
  have htake : s.bytes.take s.strlen = s.bytes := List.take_length
  unfold checkText utf8Check
  rw [if_neg (by decide)]
  dsimp only
  rw [hlen, htake]
  cases utf8Scan s.bytes <;> rfl

theorem jsonStr_taken {message : Option CStr} (h : ∀ s ∈ message, Utf8Ok s.bytes) (e : ErrState) :
    ∃ v : Json R, jsonStr message { strflags with skipUtf8Chk := false } e = some (some v, e) := by
  cases message with
  | none => exact ⟨.null, rfl⟩
  | some s =>
    have hok : utf8Scan s.bytes = none := h s rfl
    unfold jsonStr
    simp only [checkText_all, hok, Option.elim_none, ErrM.bind_run, ErrM.pure_run, Option.bind_some,
      Int.lt_irrefl, if_false]
    split
    · exact ⟨_, rfl⟩
    · exact ⟨_, rfl⟩

theorem noMessage_ok : ∀ s ∈ (none : Option CStr), Utf8Ok s.bytes := by
  rintro s ⟨⟩

theorem jsonStr_refused {s : CStr} (h : ¬ Utf8Ok s.bytes) (he : e.frozen = false) :
    ∃ e', jsonStr (R := R) (some s) { strflags with skipUtf8Chk := false } e = some (none, e') ∧ e'.frozen = false := by
  obtain ⟨⟨line, msg⟩, hscan⟩ := Option.ne_none_iff_exists'.1 h
  refine ⟨(e.raised (loc "utf8_check.c" "pcl_utf8_check" line) eIlseq 0 (some msg)).traced
    (loc "json_str.c" "pcl_json_str" 50) none, ?_, by rw [traced_frozen, raised_frozen, he]⟩
  unfold jsonStr
  simp only [checkText_all, hscan, Option.elim_some, ErrM.bind_run, errVset_run _ _ _ _ _ (show eIlseq ≠ eOkay by decide), he,
    Bool.false_eq_true, if_false, Option.bind_some]
  rw [if_pos (by decide), trcNull_run]

/-- A value that could not be made is not put. -/
theorem jsonObjput_none (he : e.frozen = false) (m : List (CStr × Json R)) (key : CStr) (flags : JsonFlags) :
    jsonObjput (some (.obj m)) (some key) none flags e =
      some ((-1, some (.obj m)), e.raised (loc "json_objput.c" "pcl_json_objput" 47) eInval 0 none) := by
  unfold jsonObjput
  simp only [ErrM.bind_run, badArg_run, he, Bool.false_eq_true, if_false, Option.bind_some]
  rfl

theorem errVjson_object (he : e.frozen = false) (herr : e.err ≠ jsonInvint) {message : Option CStr} {obj : Json R}
    {e₁ : ErrState} (h : errVjson errName errOsname message e = some (some obj, e₁)) :
    ∃ m strace, obj = .obj m ∧ ErrObject m e.err e.oserr.toNat strace := by
  rw [errVjson_codes errName errOsname he herr] at h
  unfold errVjsonRest at h
  rw [ErrM.bind_run] at h
  by_cases hm : ∀ s ∈ message, Utf8Ok s.bytes
  · obtain ⟨v, hv⟩ := jsonStr_taken (R := R) hm e
    rw [hv, Option.bind_some, orFailed_put he _ rfl, orFailed_put he _ rfl, errGet_bind, ErrM.bind_run] at h
    obtain ⟨⟨strace, e₂⟩, hstrace, hrest⟩ := Option.bind_eq_some_iff.1 h
    cases strace with
    | none => cases hrest
    | some strace =>
      cases hrest
      exact ⟨_, strace, rfl, ⟨_, rfl⟩, ⟨_, rfl⟩, ⟨_, rfl⟩⟩
  · obtain ⟨s, rfl, hs⟩ : ∃ s, message = some s ∧ ¬ Utf8Ok s.bytes := by simpa using hm
    obtain ⟨e', hv, he'⟩ := jsonStr_refused (R := R) hs he
    rw [hv, Option.bind_some, orFailed_failed (jsonObjput_none he' _ _ _) (by decide)] at h
    cases h

theorem errVjsonTrace_returns (he : e.frozen = false) {t : Trace} (ht : t.line ≠ jsonInvint) :
    ∃ jtrace : Json R, errVjsonTrace t e = some (some jtrace, e) := by
  unfold errVjsonTrace
  rw [orFailed_str he _ rfl, orFailed_str he _ rfl, orFailed_int he ht rfl, orFailed_str he _ rfl]
  exact ⟨_, rfl⟩

theorem errVjsonTraces_returns (he : e.frozen = false) {ts : List Trace} (hts : ∀ t ∈ ts, t.line ≠ jsonInvint) :
    ∃ strace : List (Json R), errVjsonTraces ts e = some (some strace, e) := by
  induction ts with
  | nil => exact ⟨[], rfl⟩
  | cons t ts ih =>
    obtain ⟨jtrace, ht⟩ := errVjsonTrace_returns (R := R) he (hts t List.mem_cons_self)
    obtain ⟨strace, hrest⟩ := ih fun t ht => hts t (List.mem_cons_of_mem _ ht)
    refine ⟨jtrace :: strace, ?_⟩
    unfold errVjsonTraces
    simp only [ErrM.bind_run, ht, Option.bind_some, hrest]
    rfl

/-- With a message that is accepted, or none, an object is produced, with an entry for each trace. -/
theorem errVjson_returns (he : e.frozen = false) (herr : e.err ≠ jsonInvint) (hts : ∀ t ∈ e.strace, t.line ≠ jsonInvint)
    {message : Option CStr} (hm : ∀ s ∈ message, Utf8Ok s.bytes) :
    ∃ obj : Json R, errVjson errName errOsname message e = some (some obj, e) := by
  obtain ⟨v, hv⟩ := jsonStr_taken (R := R) hm e
  obtain ⟨strace, hstrace⟩ := errVjsonTraces_returns (R := R) he hts
  rw [errVjson_codes errName errOsname he herr]
  refine ⟨Json.fill (.lit "strace") strace (.obj (codeMembers errName errOsname e ++ [(.lit "msg", v)] ++
    [(.lit "strace", .arr [])])), ?_⟩
  unfold errVjsonRest
  rw [ErrM.bind_run, hv, Option.bind_some, orFailed_put he _ rfl, orFailed_put he _ rfl, errGet_bind,
    ErrM.bind_run, hstrace]
  rfl

/-! ### Transport -/

/-- An object is produced from the state, and each one that is restores it in every unfrozen state. -/
def Transports (e : ErrState) : Prop :=
  (∃ (message : Option CStr) (obj : Json R) (e₁ : ErrState),
    errVjson errName errOsname message e = some (some obj, e₁)) ∧
  ∀ (message : Option CStr) (obj : Json R) (e₁ : ErrState),
    errVjson errName errOsname message e = some (some obj, e₁) → ∀ e' : ErrState, e'.frozen = false →
      ∃ r e₂, errSetjson (some obj) e' = some (r, e₂) ∧ e₂.err = e.err ∧ e₂.oserr = e.oserr ∧ e₂.strace = e.strace

/-- The error state is restored just when it has no traces. -/
theorem errJson_transports_iff {e : ErrState} (he : e.frozen = false) (herr : -2 ^ 31 ≤ e.err ∧ e.err < 2 ^ 31) :
    Transports (R := R) errName errOsname e ↔ e.strace = [] := by
  have hinv : e.err ≠ jsonInvint := by
    unfold jsonInvint
    omega
  have hoserr : (e.oserr.toNat : Int) ≠ jsonInvint := by
    unfold jsonInvint
    omega
  have hcode : UInt32.ofInt (e.oserr.toNat : Int) = e.oserr := by
    have hlt := e.oserr.toNat_lt
    have hmod : ((e.oserr.toNat : Int) % 2 ^ 32).toNat = e.oserr.toNat := by omega
    rw [UInt32.ofInt, hmod, UInt32.ofNat_toNat]
  constructor
  · rintro ⟨⟨message, obj, e₁, h⟩, hall⟩
    obtain ⟨m, strace, rfl, hobj⟩ := errVjson_object errName errOsname he hinv h
    obtain ⟨r, e₂, hset, -, -, hstrace⟩ := hall message _ e₁ h e he
    rw [errSetjson_run hobj hinv hoserr he] at hset
    cases hset
    exact hstrace.symm
  · intro hstrace
    have hts : ∀ t ∈ e.strace, t.line ≠ jsonInvint := by
      rw [hstrace]
      exact fun t ht => nomatch ht
    obtain ⟨obj, hobj⟩ := errVjson_returns (R := R) errName errOsname he hinv hts noMessage_ok
    refine ⟨⟨none, obj, e, hobj⟩, fun message obj e₁ h e' he' => ?_⟩
    obtain ⟨m, strace, rfl, hobj⟩ := errVjson_object errName errOsname he hinv h
    refine ⟨0, _, errSetjson_run hobj hinv hoserr he', toInt_eq herr, hcode, hstrace.symm⟩

/-- A state with an error code that nothing was traced for. -/
theorem errJson_transports_iff_bare : (⟨false, eRange, 34, []⟩ : ErrState).frozen = false ∧
    Transports (R := Unit) (fun _ => .lit "PCL_ERANGE") (fun _ => .lit "ERANGE") ⟨false, eRange, 34, []⟩ :=
  ⟨rfl, (errJson_transports_iff _ _ rfl (by decide)).2 rfl⟩

/-- The trace of an error is lost. -/
theorem errJson_loses_trace : ¬ Transports (R := Unit) (fun _ => .lit "PCL_EINVAL") (fun _ => .lit "Unknown")
    ⟨false, eInval, 0, [⟨some (.lit "a.c"), some (.lit "f"), 1, some (.lit "100%")⟩]⟩ := by
  rintro ⟨-, hall⟩
  obtain ⟨obj, hobj⟩ := errVjson_returns (R := Unit) (e := ⟨false, eInval, 0,
    [⟨some (.lit "a.c"), some (.lit "f"), 1, some (.lit "100%")⟩]⟩) (fun _ => .lit "PCL_EINVAL") (fun _ => .lit "Unknown")
    rfl (by decide) (by decide) noMessage_ok
  obtain ⟨m, strace, rfl, hm⟩ := errVjson_object _ _ rfl (by decide) hobj
  obtain ⟨r, e₂, hset, -, -, hstrace⟩ := hall none _ _ hobj .zero rfl
  rw [errSetjson_run hm (by decide) (by decide) rfl] at hset
  cases hset
  cases hstrace

end
end Pcl

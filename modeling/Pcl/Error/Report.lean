import Pcl.Buf.Run
import Pcl.Json.Encode
import Pcl.Log.Vevent

/-!
# Reporting an error

`ipcl_err_serialize` with the text it builds and `pcl_err_vsprintf` over it, and what they and `pcl_err_json` leave
of the error state. The buffer of the thread is reset before it is used again, it is taken for a new one. Its text is taken to stay below
2 ^ 29 bytes, where no put into it leaves `int` (`Fill.fits_small`).
-/

namespace Pcl

section
variable (errName errMsg : Int → CStr)

/-! ### `ipcl_err_serialize` -/

/-- The characters of a string that may be `NULL`. -/
def strBytes (s : Option CStr) : List UInt8 := s.elim [] CStr.bytes

/-- `!strempty(s)`. -/
def hasStr (s : Option CStr) : Bool := strBytes s ≠ []

/-- `%*s` of a blank, or of nothing without an indent. -/
def indentText (indent : Nat) : List UInt8 := List.replicate indent (ch ' ')

/-- `line`. -/
def lineText (line : Int) : List UInt8 := textIf (line > 0) (ch '(' :: (decimal line ++ [ch ')']))

/-- Where a trace was made. -/
def placeText (t : Trace) : List UInt8 :=
  strBytes t.file ++ (textIf (hasStr t.file && hasStr t.func) [ch ':'] ++ (strBytes t.func ++ lineText t.line))

/-- The line of a trace that is not the last. -/
def traceText (t : Trace) (indent : Nat) : List UInt8 :=
  indentText indent ++ (placeText t ++ (textIf (hasStr t.msg) (txt ": ") ++ (strBytes t.msg ++ txt "\n")))

/-- The line of the last trace, with the code. -/
def siteText (err : Int) (t : Trace) (indent : Nat) : List UInt8 :=
  indentText indent ++ (placeText t ++ (textIf (hasStr t.file || hasStr t.func || t.line > 0) (txt ": ") ++
    ((errName err).bytes ++ (txt " - " ++ ((errMsg err).bytes ++ txt "\n")))))

/-- The line of the message of the last trace. -/
def siteMsgText (t : Trace) (indent : Nat) : List UInt8 :=
  indentText (indent + 2) ++ (txt ">" ++ (strBytes t.msg ++ txt "\n"))

/-- A put into the buffer, whose result is not looked at. -/
def put (x : ErrM (Int × Buf UInt8)) : ErrM (Buf UInt8) := do
  let (_, b) ← x
  return b

/-- The loop over the traces, and what is put behind it. -/
def serializeTraces (err : Int) : List Trace → Nat → Buf UInt8 → ErrM (Buf UInt8)
  | [], _, b => pure b
  | t :: ts, indent, b =>
    if ts.isEmpty then do
      let b ← put (bufPutf b (siteText errName errMsg err t indent))
      putIf (hasStr t.msg) (fun b => put (bufPutf b (siteMsgText t indent))) b
    else do
      let b ← put (bufPutf b (traceText t indent))
      serializeTraces err ts (indent + 2) b

/-- The message is terminated with a line feed. -/
def endLine (b : Buf UInt8) : ErrM (Buf UInt8) :=
  match b.data[b.len - 1]? with
  | some (some c) => if c ≠ ch '\n' then put (bufPutchar b (ch '\n')) else pure b
  | _ => ErrM.undef

/-- `prefix`. -/
def severity (panic : Bool) : List UInt8 := if panic then txt "PANIC: " else txt "ERROR: "

/-- The message of a report. -/
def serializeMessage (panic : Bool) (indent : Nat) (message : Option (Except Int (List UInt8))) (b : Buf UInt8) :
    ErrM (Buf UInt8) :=
  match message with
  | none => pure b
  | some message => do
    let b ← put (bufPutf b (indentText indent ++ severity panic))
    let b ← put (bufVputf b message)
    endLine b

/-- `ipcl_err_serialize`; `message` is what the format gives, if there is one. -/
def ipclErrSerialize (indent : Int) (message : Option (Except Int (List UInt8))) : ErrM (Option (Buf UInt8)) := do
  let err ← errGet
  if err.strace = [] ∨ err.err = eOkay then return none
  else
    let panic := decide (indent = -1)
    let indent := (max 0 indent).toNat
    let b ← serializeMessage panic indent message (bufInit 512 .text)
    let b ← serializeTraces errName errMsg (← errGet).err err.strace indent b
    return some b

/-- `pcl_err_vsprintf`: the result, and what is copied to the buffer of `size` bytes. -/
def pclErrVsprintf (size : Nat) (indent : Int) (message : Option (Except Int (List UInt8))) :
    ErrM (Int × Option (List UInt8)) := do
  match ← whileFrozen (ipclErrSerialize errName errMsg indent message) with
  | none => return (0, none)
  | some b =>
    if size ≤ b.len then return (-1, none)
    else
      match (b.data.take (b.len + 1)).mapM id with
      | none => ErrM.undef
      | some data => return (b.len, some data)

/-! ### The text of a report -/

/-- The lines of the traces. -/
def tracesText (err : Int) : List Trace → Nat → List UInt8
  | [], _ => []
  | t :: ts, indent =>
    if ts.isEmpty then siteText errName errMsg err t indent ++ textIf (hasStr t.msg) (siteMsgText t indent)
    else traceText t indent ++ tracesText err ts (indent + 2)

/-- The line of the message; a format that fails gives no text. -/
def messageText (panic : Bool) (indent : Nat) (message : Option (Except Int (List UInt8))) : List UInt8 :=
  match message with
  | none => []
  | some message =>
    let text := indentText indent ++ severity panic ++ message.toOption.getD []
    text ++ textIf (text.getLast? ≠ some (ch '\n')) (txt "\n")

/-- The text of a report. -/
def reportText (indent : Int) (message : Option (Except Int (List UInt8))) (err : Int) (strace : List Trace) :
    List UInt8 :=
  messageText (indent = -1) (max 0 indent).toNat message ++ tracesText errName errMsg err strace (max 0 indent).toNat

/-- `f` appends `text` to a terminated buffer, which stays terminated. -/
def Writes (f : Buf UInt8 → ErrM (Buf UInt8)) (text : List UInt8) : Prop :=
  ∀ (b : Buf UInt8) bs e, b.Holds bs true → b.mode = .text →
    ∃ b', f b e = some (b', e) ∧ b'.Holds (bs ++ text) true ∧ b'.mode = .text

namespace Writes
variable {f g : Buf UInt8 → ErrM (Buf UInt8)} {s t : List UInt8}

theorem nil : Writes (fun b => pure b) [] := by
  intro b bs e hb hm
  exact ⟨b, rfl, by rwa [List.append_nil], hm⟩

theorem bind (hf : Writes f s) (hg : Writes g t) : Writes (fun b => f b >>= g) (s ++ t) := by
  intro b bs e hb hm
  obtain ⟨b₁, h₁, hb₁, hm₁⟩ := hf b bs e hb hm
  obtain ⟨b₂, h₂, hb₂, hm₂⟩ := hg b₁ (bs ++ s) e hb₁ hm₁
  rw [List.append_assoc] at hb₂
  exact ⟨b₂, by simp only [ErrM.bind_run, h₁, Option.bind_some, h₂], hb₂, hm₂⟩

theorem putchar (c : UInt8) : Writes (fun b => put (bufPutchar b c)) [c] := by
  intro b bs e hb hm
  obtain ⟨b', h, hb', hm'⟩ := hb.putchar c e
  exact ⟨b', by simp only [put, ErrM.bind_run, h, Option.bind_some, ErrM.pure_run], hb', hm'.trans hm⟩

theorem putf (s : List UInt8) : Writes (fun b => put (bufPutf b s)) s := by
  intro b bs e hb hm
  obtain ⟨b', h, hb', hm'⟩ := hb.putf (s := s) hm e
  exact ⟨b', by simp only [put, ErrM.bind_run, h, Option.bind_some, ErrM.pure_run], hb', hm'.trans hm⟩

theorem ite {c : Prop} [Decidable c] (hf : c → Writes f s) (hg : ¬ c → Writes g t) :
    Writes (fun b => if c then f b else g b) (if c then s else t) := by
  by_cases hc : c
  · simp only [if_pos hc]
    exact hf hc
  · simp only [if_neg hc]
    exact hg hc

theorem putIf (c : Bool) (hf : Writes f s) : Writes (putIf c f) (textIf c s) := .ite (fun _ => hf) fun _ => nil

end Writes

theorem serializeTraces_writes (err : Int) (ts : List Trace) (indent : Nat) :
    Writes (serializeTraces errName errMsg err ts indent) (tracesText errName errMsg err ts indent) := by
  induction ts generalizing indent with
  | nil => exact .nil
  | cons t ts ih =>
    exact Writes.ite (c := ts.isEmpty = true) (fun _ => (Writes.putf _).bind (.putIf _ (.putf _))) fun _ =>
      (Writes.putf _).bind (ih (indent + 2))

section
variable {b : Buf UInt8} {bs : List UInt8}

theorem endLine_run (hb : b.Holds bs true) (hm : b.mode = .text) (hne : bs ≠ []) (e : ErrState) :
    ∃ b', endLine b e = some (b', e) ∧
      b'.Holds (bs ++ textIf (bs.getLast? ≠ some (ch '\n')) (txt "\n")) true ∧ b'.mode = .text := by
  obtain ⟨s, c, rfl⟩ : ∃ s c, bs = s ++ [c] := ⟨_, _, (List.dropLast_append_getLast hne).symm⟩
  obtain ⟨k, hk⟩ := hb.data_eq
  have hlast : b.data[b.len - 1]? = some (some c) := by
    have hidx : b.len - 1 = (s.map some).length := by
      rw [hb.len_eq, List.length_append, List.length_map]
      rfl
    rw [hk, hidx, List.map_append, List.append_assoc, List.getElem?_append_right (le_refl _), Nat.sub_self]
    rfl
  have hhead : (s ++ [c]).getLast? = some c := List.getLast?_concat
  unfold endLine
  simp only [hlast, hhead]
  by_cases hc : c = ch '\n'
  · rw [hc, if_neg (not_not.2 rfl)]
    refine ⟨b, rfl, ?_, hm⟩
    rw [← hc]
    simpa [textIf, hc] using hb
  · rw [if_pos hc]
    have htext : textIf (decide (some c ≠ some (ch '\n'))) (txt "\n") = [ch '\n'] := by simp [textIf, hc]; rfl
    rw [htext]
    exact Writes.putchar (ch '\n') b _ e hb hm

/-- A format that fails reports an error, which a frozen state ignores. -/
theorem bufVputf_run (hb : b.Holds bs true) (hm : b.mode = .text) (s : Except Int (List UInt8)) {e : ErrState}
    (he : e.frozen = true) :
    ∃ b', put (bufVputf b s) e = some (b', e) ∧ b'.Holds (bs ++ s.toOption.getD []) true ∧ b'.mode = .text := by
  cases s with
  | error err =>
    have hnil : bs ++ (Except.error err : Except Int (List UInt8)).toOption.getD [] = bs := List.append_nil bs
    rw [hnil]
    refine ⟨b, ?_, hb, hm⟩
    have hset : setErr (loc "buf_vputf.c" "pcl_buf_vputf" 48) err e = some (0, e) := if_pos he
    unfold put bufVputf
    simp only [ErrM.bind_run, hset, Option.bind_some]
    rfl
  | ok s => exact Writes.putf s b bs e hb hm

theorem serializeMessage_run (panic : Bool) (indent : Nat) (message : Option (Except Int (List UInt8))) {e : ErrState}
    (he : e.frozen = true) : ∃ b', serializeMessage panic indent message (bufInit 512 .text) e = some (b', e) ∧
      b'.Holds (messageText panic indent message) true ∧ b'.mode = .text := by
  have hinit : (bufInit 512 .text : Buf UInt8).Holds [] true := .init (by decide) .text
  cases message with
  | none => exact ⟨_, rfl, hinit, rfl⟩
  | some message =>
    obtain ⟨b₁, h₁, hb₁, hm₁⟩ := Writes.putf (indentText indent ++ severity panic) _ [] e hinit rfl
    obtain ⟨b₂, h₂, hb₂, hm₂⟩ := bufVputf_run hb₁ hm₁ message he
    have hne : [] ++ (indentText indent ++ severity panic) ++ message.toOption.getD [] ≠ [] := by
      cases panic <;> simp [severity, txt]
    obtain ⟨b₃, h₃, hb₃, hm₃⟩ := endLine_run hb₂ hm₂ hne e
    refine ⟨b₃, ?_, hb₃, hm₃⟩
    unfold serializeMessage
    simp only [ErrM.bind_run, h₁, Option.bind_some, h₂, h₃]

/-- In a frozen state with an error the text of the report is built, and the state is left alone. -/
theorem ipclErrSerialize_run (indent : Int) (message : Option (Except Int (List UInt8))) {e : ErrState}
    (he : e.frozen = true) (h : ¬ (e.strace = [] ∨ e.err = eOkay)) :
    ∃ b, ipclErrSerialize errName errMsg indent message e = some (some b, e) ∧
      b.Holds (reportText errName errMsg indent message e.err e.strace) true := by
  obtain ⟨b₁, h₁, hb₁, hm₁⟩ := serializeMessage_run (decide (indent = -1)) (max 0 indent).toNat message he
  obtain ⟨b₂, h₂, hb₂, -⟩ := serializeTraces_writes errName errMsg e.err e.strace (max 0 indent).toNat b₁ _ e hb₁ hm₁
  refine ⟨b₂, ?_, hb₂⟩
  unfold ipclErrSerialize
  rw [errGet_bind, if_neg h]
  simp only [ErrM.bind_run, h₁, Option.bind_some]
  show ((errGet >>= fun err => serializeTraces errName errMsg err.err e.strace (max 0 indent).toNat b₁) e).bind _ = _
  rw [errGet_bind, h₂]
  rfl

end

/-- A computation that leaves the frozen state alone leaves the state alone. -/
theorem whileFrozen_run {α : Type} {x : ErrM α} {a : α} {e : ErrState}
    (h : x { e with frozen := true } = some (a, { e with frozen := true })) : whileFrozen x e = some (a, e) := by
  unfold whileFrozen
  rw [errGet_bind, ErrM.bind_run, errFreeze_run, Option.bind_some, ErrM.bind_run, h]
  rfl

/-- What `pcl_err_vsprintf` prints is the text of the report, and none of the calls that build it reports an error. -/
theorem pclErrVsprintf_eq (size : Nat) (indent : Int) (message : Option (Except Int (List UInt8))) (e : ErrState) :
    pclErrVsprintf errName errMsg size indent message e =
      errVsprintf size ⟨reportText errName errMsg indent message e.err e.strace, [], 0⟩ e := by
  by_cases hnone : e.strace = [] ∨ e.err = eOkay
  · have h₁ : whileFrozen (ipclErrSerialize errName errMsg indent message) e = some (none, e) :=
      whileFrozen_run (by unfold ipclErrSerialize; rw [errGet_bind, if_pos hnone]; rfl)
    have h₂ (out : Printed) : whileFrozen (errSerialize out) e = some (none, e) :=
      whileFrozen_run (by unfold errSerialize; rw [errGet_bind, if_pos hnone]; rfl)
    unfold pclErrVsprintf errVsprintf
    rw [ErrM.bind_run, ErrM.bind_run, h₁, h₂]
    rfl
  · obtain ⟨b, hrun, hb⟩ :=
      ipclErrSerialize_run errName errMsg indent message (e := { e with frozen := true }) rfl hnone
    have hb : b.Holds (reportText errName errMsg indent message e.err e.strace) true := hb
    have hcopy := hb.copy
    rw [hb.len_eq] at hcopy
    have h₁ : whileFrozen (ipclErrSerialize errName errMsg indent message) e = some (some b, e) := whileFrozen_run hrun
    have h₂ (text : List UInt8) : whileFrozen (errSerialize ⟨text, [], 0⟩) e = some (some text, e) :=
      whileFrozen_run (by unfold errSerialize; rw [errGet_bind, if_neg hnone]; rfl)
    unfold pclErrVsprintf errVsprintf
    rw [ErrM.bind_run, ErrM.bind_run, h₁, h₂, Option.bind_some, Option.bind_some]
    simp only [hb.len_eq, hcopy]
    split <;> rfl

/-! ### What is left of the error state -/

/-- The computation returns, and the error state is what it was. -/
def LeavesError {α : Type} (x : ErrM α) (e : ErrState) : Prop := ∃ a, x e = some (a, e)

theorem whileFrozen_leaves {α : Type} {x : ErrM α} (h : x.Ignores) (e : ErrState) : LeavesError (whileFrozen x) e := by
  obtain ⟨a, ha⟩ := h { e with frozen := true } rfl
  exact ⟨a, whileFrozen_run ha⟩

theorem pclErrVsprintf_leaves (size : Nat) (indent : Int) (message : Option (Except Int (List UInt8))) (e : ErrState) :
    LeavesError (pclErrVsprintf errName errMsg size indent message) e := by
  unfold LeavesError
  rw [pclErrVsprintf_eq]
  have hignores := errSerialize_ignores ⟨reportText errName errMsg indent message e.err e.strace, [], 0⟩
  obtain ⟨b, hb⟩ := whileFrozen_leaves hignores e
  unfold errVsprintf
  rw [ErrM.bind_run, hb, Option.bind_some]
  cases b <;> exact ⟨_, rfl⟩

variable {R : Type} (errOsname : UInt32 → CStr) {e : ErrState}

/-- The state that a message leaves behind which is not accepted as UTF-8. -/
def messageRefused : ErrState :=
  (ErrState.zero.raised (loc "json_objput.c" "pcl_json_objput" 47) eInval 0 none).traced
    (loc "err_vjson.c" "pcl_err_vjson" 75) none

/-- The error of a state and the lines of its traces are of type `int`. -/
structure ErrState.Ints (e : ErrState) : Prop where
  err : intMin ≤ e.err ∧ e.err ≤ intMax
  lines : ∀ t ∈ e.strace, intMin ≤ t.line ∧ t.line ≤ intMax

theorem int_ne_jsonInvint {i : Int} (h : intMin ≤ i ∧ i ≤ intMax) : i ≠ jsonInvint := by
  unfold intMin intMax at h
  unfold jsonInvint
  omega

theorem errVjson_taken (he : e.frozen = false) (hint : e.Ints) {message : Option CStr}
    (h : ∀ s ∈ message, Utf8Ok s.bytes) : LeavesError (errVjson (R := R) errName errOsname message) e := by
  obtain ⟨obj, hrun⟩ := errVjson_returns (R := R) errName errOsname he (int_ne_jsonInvint hint.err)
    (fun t ht => int_ne_jsonInvint (hint.lines t ht)) h
  exact ⟨_, hrun⟩

theorem errVjson_refused (he : e.frozen = false) (hint : e.Ints) {s : CStr} (h : ¬ Utf8Ok s.bytes) :
    errVjson (R := R) errName errOsname (some s) e = some (none, messageRefused) := by
  obtain ⟨e', hstr, he'⟩ := jsonStr_refused (R := R) h he
  have hraised : e'.raised (loc "json_objput.c" "pcl_json_objput" 47) eInval 0 none =
      ErrState.zero.raised (loc "json_objput.c" "pcl_json_objput" 47) eInval 0 none := by
    unfold ErrState.raised
    rw [he']
    rfl
  rw [errVjson_codes errName errOsname he (int_ne_jsonInvint hint.err)]
  unfold errVjsonRest
  rw [ErrM.bind_run, hstr, Option.bind_some, orFailed_failed (jsonObjput_none he' _ _ _) (by decide), hraised]
  rfl

/-- `pcl_err_json` and `pcl_err_sprintf` leave an error alone exactly if the message of the object is accepted as
UTF-8, or the error is the one that a refused message leaves. -/
theorem errReport_leaves_iff (he : e.frozen = false) (hint : e.Ints) (message : Option CStr) :
    (LeavesError (errVjson (R := R) errName errOsname message) e ∧ ∀ size indent text,
      LeavesError (pclErrVsprintf errName errMsg size indent text) e) ↔
      (∀ s ∈ message, Utf8Ok s.bytes) ∨ e = messageRefused := by
  constructor
  · rintro ⟨⟨obj, hrun⟩, -⟩
    by_cases h : ∀ s ∈ message, Utf8Ok s.bytes
    · exact .inl h
    · rw [not_forall] at h
      obtain ⟨s, h⟩ := h
      rw [Classical.not_imp] at h
      obtain ⟨rfl, hs⟩ := h
      rw [errVjson_refused errName errOsname he hint hs] at hrun
      injection hrun with hrun
      injection hrun with _ hrun
      exact .inr hrun.symm
  · intro h
    refine ⟨?_, fun size indent text => pclErrVsprintf_leaves errName errMsg size indent text e⟩
    by_cases hm : ∀ s ∈ message, Utf8Ok s.bytes
    · exact errVjson_taken errName errOsname he hint hm
    · rw [not_forall] at hm
      obtain ⟨s, hm⟩ := hm
      rw [Classical.not_imp] at hm
      obtain ⟨rfl, hs⟩ := hm
      exact ⟨none, by rw [errVjson_refused errName errOsname he hint hs, h.resolve_left fun hall => hs (hall s rfl)]⟩

theorem errReport_leaves_iff_main : (LeavesError (errVjson (R := Unit) (fun _ => .lit "PCL_EINVAL") (fun _ => .lit "Unknown")
      (some (.lit "no file"))) ⟨false, eInval, 0, [⟨some (.lit "main.c"), some (.lit "main"), 7, none⟩]⟩ ∧
      ∀ size indent text, LeavesError (pclErrVsprintf (fun _ => .lit "PCL_EINVAL") (fun _ => .lit "Invalid argument") size
        indent text) ⟨false, eInval, 0, [⟨some (.lit "main.c"), some (.lit "main"), 7, none⟩]⟩) ↔
    (∀ s ∈ some (CStr.lit "no file"), Utf8Ok s.bytes) ∨
      (⟨false, eInval, 0, [⟨some (.lit "main.c"), some (.lit "main"), 7, none⟩]⟩ : ErrState) = messageRefused :=
  errReport_leaves_iff _ _ _ rfl ⟨by decide, by decide⟩ _

/-- A message of one byte that starts no character replaces the error by that of the object that is not built. -/
theorem errReport_alters : ¬ LeavesError (errVjson (R := Unit) (fun _ => .lit "PCL_ERANGE") (fun _ => .lit "ERANGE")
    (some ⟨[0xFF], by decide⟩)) ⟨false, eRange, 34, []⟩ := by
  rintro ⟨obj, hrun⟩
  have hints : (⟨false, eRange, 34, []⟩ : ErrState).Ints := ⟨by decide, fun t ht => absurd ht List.not_mem_nil⟩
  rw [errVjson_refused _ _ rfl hints (by decide)] at hrun
  injection hrun with hrun
  injection hrun with _ hrun
  cases hrun

end
end Pcl

import Pcl.Frozen.Thaw
import Pcl.Json.Decode

/-!
# The token parsers with the error state

`ipcl_json_parse_string` and `ipcl_json_parse_number` as they are called in any error state: they set and trace their
errors. In a state that is not frozen they are the parsers of `ParseString` and `ParseNumber`. In a frozen one an error
that is set looks like a success to a caller that tests for it: a text that is no UTF-8 is accepted, a code point that
there is not is left out, and a number that was not stored is read all the same.
-/

namespace Pcl

open ErrM
variable {R : Type} {α β : Type}

/-- A parser that sets its errors, and returns a value or `NULL`. -/
abbrev JE (α : Type) := JState → ErrM (Option α × JState)

namespace JE

/-- Continue with the value of a parser. -/
def andThen (f : α → JE β) : Option α × JState → ErrM (Option β × JState)
  | (none, s) => return (none, s)
  | (some a, s) => f a s

instance : Monad JE where
  pure a := fun s => (return (some a, s) : ErrM _)
  bind x f := fun s => (x s : ErrM _) >>= andThen f

/-- A parser that sets no error. -/
def of (x : JM α) : JE α := fun s =>
  match x s with
  | none => ErrM.undef
  | some (.ok a s) => return (some a, s)
  | some (.fail _ s) => return (none, s)

/-- A parser that sets its error at a location. -/
def raising (l : Loc) (x : JM α) : JE α := fun s =>
  match x s with
  | none => ErrM.undef
  | some (.ok a s) => return (some a, s)
  | some (.fail f s) => do
    let _ ← errVset l f.err f.oserr f.msg
    return (none, s)

/-- `JSON_THROW`. -/
def throw (l : Loc) (parts : List (List UInt8)) : JE α := raising l (JM.throw parts)

/-- Call a parser and go on whether it succeeds or not. -/
def ignore (x : JE α) : JE Unit := fun s => do
  let (_, s) ← x s
  return (some (), s)

/-- A function that makes a value. -/
def call (x : ErrM (Option α)) : JE α := fun s => do
  let val ← x
  return (val, s)

/-- The frames that a failure is traced with, the innermost first. -/
def traceAll : List (Loc × Option CStr) → ErrM Unit
  | [] => return ()
  | (l, msg) :: frames => do
    let _ ← errVtrace l msg
    traceAll frames

/-- A call that stores its result, or sets an error at a location; the callers trace it. While the state is frozen they
take the failure for a success, and read what was not stored. -/
def stored (l : Loc) (frames : List (Loc × Option CStr)) (x : Except Fault α) : JE α := fun s =>
  match x with
  | .ok a => return (some a, s)
  | .error f => do
    let r ← errVset l f.err f.oserr f.msg
    if r = 0 then ErrM.undef
    else
      traceAll frames
      return (none, s)

/-- A call that sets an error at a location, and its caller that tests for it and traces it; while the state is frozen
the caller goes on with what it has. -/
def refused (l frame : Loc) (f : Fault) (hidden : α) : JE α := fun s => do
  let r ← errVset l f.err f.oserr f.msg
  if r < 0 then
    let _ ← trc frame
    return (none, s)
  else return (some hidden, s)

/-! ### Strings -/

/-- Where `pcl_strtol` and `pcl_strtoll` set their errors. -/
def strtolLine (s : List UInt8) (base : Nat) : Int :=
  if s.headD 0 = 0 then 48 else if (scanNumeral base s).isSome then 58 else 64

/-- `hex2num`. -/
def hex2num : JE UInt32 := do
  let s ← of JM.get
  let num := s.rest.take 4
  let (n, rest) ← stored (loc "strtol.c" "pcl_strtol" (strtolLine num 16))
    [(loc "strtoi.c" "pcl_strtoi" 49, none),
      (loc "json_parse_string.c" "hex2num" 45, some (.ofBytes (txt "parsing \\u sequence '" ++ num ++ txt "'")))]
    (strtoi num 16)
  if rest.headD 0 ≠ 0 then
    throw (loc "json_parse_string.c" "hex2num" 49) [txt "invalid unicode character: '", num, txt "'"]
  else
    of (JM.skip 4)
    return UInt32.ofNat (n % 2 ^ 32).toNat

/-- `pcl_utf8_encode`; while the state is frozen a code point that there is not has no bytes. -/
def utf8Encode (code : UInt32) : JE (List UInt8) :=
  match Pcl.utf8Encode code with
  | .ok bytes => return bytes
  | .error f =>
    refused (loc "utf8_encode.c" "pcl_utf8_encode" 71) (loc "json_parse_string.c" "utf16_to_utf8" 104) f []

/-- Write bytes behind the text of a buffer that has room for them. -/
def storeCode (b : Buf UInt8) (bytes : List UInt8) : JM (Buf UInt8) :=
  match storeAt b.data b.pos bytes with
  | none => JM.undef
  | some data =>
    if InInt ((b.pos : Int) + bytes.length) ∧ InInt ((b.len : Int) + bytes.length) then
      pure { b with data := data, pos := b.pos + bytes.length, len := b.len + bytes.length }
    else JM.undef

def putCode (b : Buf UInt8) (code : UInt32) : JE (Buf UInt8) :=
  if ∀ x ∈ growInts b 4, InInt x then do
    let bytes ← utf8Encode code
    of (storeCode (bufGrow b 4) bytes)
  else of JM.undef

def secondUnit (b : Buf UInt8) (first : UInt32) (rest : List UInt8) : JE (Buf UInt8) := do
  let s' ← of JM.get
  if s'.left < 6 then
    throw (loc "json_parse_string.c" "utf16_to_utf8" 78)
      [txt "unexpected end of input: \\u0000 encoding missing digits"]
  else if s'.rest.headD 0 ≠ ch '\\' ∨ (s'.rest.drop 1).headD 0 ≠ ch 'u' then
    throw (loc "json_parse_string.c" "utf16_to_utf8" 81)
      [txt "invalid unicode character: missing UTF-16 surrogate '", (txt "\\u" ++ rest).take 12, txt "'"]
  else
    of (JM.skip 2)
    let second ← hex2num
    if second < 0xdc00 ∨ second > 0xdfff then
      throw (loc "json_parse_string.c" "utf16_to_utf8" 90)
        [txt "invalid unicode character: surrogate '", s'.rest.take 6, txt "'"]
    else putCode b ((0x10000 : UInt32) + ((first &&& 0x03ff) <<< 10) + (second &&& 0x03ff))

/-- `utf16_to_utf8`. -/
def utf16ToUtf8 (b : Buf UInt8) : JE (Buf UInt8) := do
  let s ← of JM.get
  if s.left < 4 then
    throw (loc "json_parse_string.c" "utf16_to_utf8" 69)
      [txt "unexpected end of input: \\u0000 encoding missing digits"]
  else
    let first ← hex2num
    if first ≥ 0xd800 ∧ first ≤ 0xdbff then secondUnit b first s.rest
    else putCode b first

/-- The loop of `ipcl_json_parse_string`. -/
def stringLoop : Nat → Buf UInt8 → JE (Buf UInt8)
  | 0, _ => of JM.undef
  | n + 1, b => do
    let c ← of JM.peek
    if c = 0 ∨ c = ch '"' then
      return b
    else if c ≠ ch '\\' then
      let b ← of (putChar b c)
      of (JM.skip 1)
      stringLoop n b
    else
      of (JM.skip 1)
      let c ← of JM.peek
      if c = ch 'u' then
        of (JM.skip 1)
        let b ← utf16ToUtf8 b
        stringLoop n b
      else
        match unescape c with
        | some x =>
          let b ← of (putChar b x)
          of (JM.skip 1)
          stringLoop n b
        | none =>
          throw (loc "json_parse_string.c" "ipcl_json_parse_string" 180)
            [txt "invalid escape sequence within string \\", [c]]

/-- `pcl_utf8_check` of the text. -/
def utf8Check (bytes : List UInt8) : JE Unit :=
  match utf8Scan bytes with
  | none => return ()
  | some (line, msg) =>
    refused (loc "utf8_check.c" "pcl_utf8_check" line) (loc "json_parse_string.c" "ipcl_json_parse_string" 194)
      ⟨eIlseq, 0, some msg⟩ ()

/-- `ipcl_json_parse_string` behind its loop. -/
def closeData (b : Buf UInt8) : JE MemBlock := do
  if (← of JM.peek) ≠ ch '"' then
    throw (loc "json_parse_string.c" "ipcl_json_parse_string" 187) [txt "expected closing double quote"]
  else
    of (JM.skip 1)
    match (b.data.take b.len).mapM id with
    | none => of JM.undef
    | some bytes =>
      utf8Check bytes
      return b.data

/-- `ipcl_json_parse_string`, which returns the block of its buffer. -/
def parseStringData : JE MemBlock := do
  if (← of JM.peek) ≠ ch '"' then
    throw (loc "json_parse_string.c" "ipcl_json_parse_string" 116) [txt "expected opening quote"]
  else
    of JM.mark
    of (JM.skip 1)
    let s ← of JM.get
    let b ← stringLoop (s.rest.length + 1) (bufInit 32 .text)
    closeData b

/-- The string that a caller of `ipcl_json_parse_string` reads. -/
def parseString (mem : Stale) : JE CStr := do
  let data ← parseStringData
  return blockStr mem data

/-! ### Numbers -/

/-- The scan of `ipcl_json_parse_number`. -/
def scanNumber : List UInt8 → Int → NumFlags → JE (NumFlags × Int)
  | [], left, fl => return (fl, left)
  | c :: rest, left, fl =>
    let throw (line : Int) (parts : List (List UInt8)) : JE (NumFlags × Int) :=
      throw (loc "json_parse_number.c" "ipcl_json_parse_number" line) parts
    if left ≤ 0 then return (fl, left)
    else if c = ch 'e' ∨ c = ch 'E' then
      if fl.exp then throw 55 [txt "invalid number format: multiple exponents '", [c], txt "'"]
      else scanNumber rest (left - 1) { fl with exp := true }
    else if c = ch '.' then
      if fl.decimal then throw 62 [txt "invalid number format: multiple decimal signs"]
      else scanNumber rest (left - 1) { fl with decimal := true }
    else if c = ch '-' ∨ c = ch '+' then
      if !fl.exp then throw 69 [txt "invalid number format: sign '", [c], txt "' in wrong position"]
      else if fl.expsign then throw 72 [txt "invalid number format: multiple exponent signs"]
      else scanNumber rest (left - 1) { fl with expsign := true }
    else if c < ch '0' ∨ c > ch '9' then return (fl, left)
    else scanNumber rest (left - 1) fl

/-- `ipcl_json_parse_number`. -/
def parseNumber (D : Doubles R) : JE (Json R) := do
  let s ← of JM.get
  let sign := if s.rest.headD 0 = ch '-' then 1 else 0
  let (fl, left) ← scanNumber (s.rest.drop sign) (s.left - sign) ⟨false, false, false⟩
  if left = 0 then
    throw (loc "json_parse_number.c" "ipcl_json_parse_number" 84) [txt "unexpected end of input parsing number"]
  else if s.rest.headD 0 = ch '0' ∧ isdigit ((s.rest.drop 1).headD 0) then
    throw (loc "json_parse_number.c" "ipcl_json_parse_number" 87) [txt "invalid number value: begins with 0"]
  else if fl.exp || fl.decimal then
    match scanDecimal s.rest with
    | none =>
      throw (loc "json_parse_number.c" "ipcl_json_parse_number" 107) [txt "invalid number value: no digits found"]
    | some (neg, m, e, rest) =>
      let (num, range) := D.ofDecimal neg m e
      if range && !D.isZero num then
        raising (loc "json_parse_number.c" "ipcl_json_parse_number" 101)
          (JM.fault ⟨eRange, 0, some (.lit "invalid number value")⟩)
      else
        of (JM.goto rest)
        call (Pcl.jsonReal D num)
  else
    let (num, rest) ← stored (loc "strtoll.c" "pcl_strtoll" (strtolLine s.rest 10))
      [(loc "json_parse_number.c" "ipcl_json_parse_number" 116, none)] (strtoll s.rest 10)
    of (JM.goto rest)
    call (Pcl.jsonInt num)

end JE

/-! ### In any frozen state -/

/-- In every frozen state the parser comes to the same, and leaves the state as it is. -/
def JE.Blind (x : JE α) : Prop := ∀ s, (x s).Blind

namespace JE.Blind
variable {x y : JE α}

theorem pure (a : α) : (Pure.pure a : JE α).Blind := fun s => ErrM.Blind.pure (some a, s)

theorem bind {f : α → JE β} (hx : x.Blind) (hf : ∀ a, (f a).Blind) : (x >>= f).Blind := by
  intro s
  refine ErrM.Blind.bind (hx s) fun p => ?_
  obtain ⟨a, s'⟩ := p
  cases a with
  | none => exact .pure _
  | some a => exact hf a s'

theorem of (x : JM α) : (JE.of x).Blind := by
  intro s
  unfold JE.of
  split
  · exact .undef
  · exact .pure _
  · exact .pure _

theorem raising (l : Loc) (x : JM α) : (JE.raising l x).Blind := by
  intro s
  unfold JE.raising
  split
  · exact .undef
  · exact .pure _
  · exact ((gives_errVset _ _ _ _).andPure _).blind

theorem ignore (hx : x.Blind) : x.ignore.Blind := fun s => (hx s).bind fun _ => .pure _

theorem call {x : ErrM (Option α)} (hx : x.Blind) : (JE.call x).Blind := fun _ => hx.bind fun _ => .pure _

/-- A failure that a frozen state hides leaves nothing to go on with. -/
theorem stored (l : Loc) (frames : List (Loc × Option CStr)) (r : Except Fault α) : (JE.stored l frames r).Blind := by
  intro s
  unfold JE.stored
  cases r with
  | ok a => exact .pure _
  | error f =>
    refine .of_none fun e he => ?_
    dsimp only
    rw [bind_run, gives_errVset _ _ _ _ e he]
    rfl

end JE.Blind

/-! ### In any other state -/

/-- The outcome that a parser without error state has: its value, or its error. -/
def ComesTo (r : Option (PRes α)) (p : Option ((Option α × JState) × ErrState)) : Prop :=
  match r with
  | none => p = none
  | some (.ok a s) => ∃ e, e.frozen = false ∧ p = some ((some a, s), e)
  | some (.fail f s) => ∃ e, e.frozen = false ∧ e.err = f.err ∧ p = some ((none, s), e)

/-- In a state that is not frozen the first parser comes to what the second does. -/
def JE.Agrees (x : JE α) (y : JM α) : Prop := ∀ s e, e.frozen = false → ComesTo (y s) (x s e)

/-- A parser that fails nowhere. -/
def JM.Sure (x : JM α) : Prop := ∀ s f s', x s ≠ some (.fail f s')

namespace JE.Agrees
variable {x : JE α} {y : JM α}

theorem pure (a : α) : (Pure.pure a : JE α).Agrees (Pure.pure a) := fun _ e he => ⟨e, he, rfl⟩

theorem bind {f : α → JE β} {g : α → JM β} (hx : x.Agrees y) (hf : ∀ a, (f a).Agrees (g a)) :
    (x >>= f).Agrees (y >>= g) := by
  intro s e he
  have h := hx s e he
  show ComesTo (JM.andThen (y s) g) ((x s e).bind fun p => JE.andThen f p.1 p.2)
  cases hy : y s with
  | none =>
    rw [hy] at h
    rw [show x s e = none from h]
    rfl
  | some r =>
    rw [hy] at h
    cases r with
    | ok a s' =>
      obtain ⟨e', he', hrun⟩ := h
      rw [hrun]
      exact hf a s' e' he'
    | fail f s' =>
      obtain ⟨e', he', herr, hrun⟩ := h
      rw [hrun]
      exact ⟨e', he', herr, rfl⟩

theorem of {y : JM α} (hy : y.Sure) : (JE.of y).Agrees y := by
  intro s e he
  unfold JE.of
  cases hr : y s with
  | none => rfl
  | some r =>
    cases r with
    | ok a s' => exact ⟨e, he, rfl⟩
    | fail f s' => exact absurd hr (hy s f s')

theorem raising (l : Loc) (y : JM α) : (JE.raising l y).Agrees y := by
  intro s e he
  unfold JE.raising
  cases hr : y s with
  | none => rfl
  | some r =>
    cases r with
    | ok a s' => exact ⟨e, he, rfl⟩
    | fail f s' =>
      dsimp only
      by_cases hf : f.err = eOkay
      · refine ⟨e.cleared, (cleared_frozen e).trans he, ?_, ?_⟩
        · simp [ErrState.cleared, he, hf]
        · simp [errVset, he, hf]
      · obtain ⟨e', hset, he', herr⟩ := errVset_fails he l hf f.oserr f.msg
        refine ⟨e', he', herr, ?_⟩
        simp only [bind_run, hset, Option.bind_some, pure_run]

theorem ignore (h : x.Agrees y) : x.ignore.Agrees (JM.ignore y) := by
  intro s e he
  have hx := h s e he
  unfold JE.ignore JM.ignore
  rw [bind_run]
  cases hy : y s with
  | none =>
    rw [hy] at hx
    rw [show x s e = none from hx]
    rfl
  | some r =>
    rw [hy] at hx
    cases r with
    | ok a s' =>
      obtain ⟨e', he', hrun⟩ := hx
      rw [hrun]
      exact ⟨e', he', rfl⟩
    | fail f s' =>
      obtain ⟨e', he', -, hrun⟩ := hx
      rw [hrun]
      exact ⟨e', he', rfl⟩

theorem traceAll (frames : List (Loc × Option CStr)) {e : ErrState} (he : e.frozen = false) :
    ∃ e', JE.traceAll frames e = some ((), e') ∧ e'.frozen = false ∧ e'.err = e.err := by
  induction frames generalizing e with
  | nil => exact ⟨e, rfl, he, rfl⟩
  | cons frame frames ih =>
    obtain ⟨l, msg⟩ := frame
    obtain ⟨e', hrun, he', herr⟩ := ih ((traced_frozen e l msg).trans he)
    refine ⟨e', ?_, he', herr.trans (traced_err e l msg)⟩
    rw [JE.traceAll, bind_run, errVtrace_run, Option.bind_some, hrun]

theorem stays (h : x.Agrees y) (s : JState) : (x s).StaysThawed := by
  intro e r e' hrun he
  have hx := h s e he
  rw [hrun] at hx
  cases hy : y s with
  | none =>
    rw [hy] at hx
    cases hx
  | some r' =>
    rw [hy] at hx
    cases r' with
    | ok a s' =>
      obtain ⟨e₁, he₁, heq⟩ := hx
      cases heq
      exact he₁
    | fail f s' =>
      obtain ⟨e₁, he₁, -, heq⟩ := hx
      cases heq
      exact he₁

end JE.Agrees

/-! ### The tokens -/

/-- The first parser is the second with the error state. -/
structure JE.Models (x : JE α) (y : JM α) : Prop where
  blind : x.Blind
  agrees : x.Agrees y

/-- What a function of `src/strint` comes to. -/
def JM.ofExcept : Except Fault α → JM α
  | .ok a => pure a
  | .error f => fault f

namespace JM.Sure

theorem get : JM.Sure JM.get := fun _ _ _ h => by cases h

theorem peek : JM.Sure JM.peek := fun _ _ _ h => by cases h

theorem mark : JM.Sure JM.mark := fun _ _ _ h => by cases h

theorem skip (n : Nat) : (JM.skip n).Sure := fun _ _ _ h => by cases h

theorem goto (rest : List UInt8) : (JM.goto rest).Sure := fun _ _ _ h => by cases h

theorem undef : (JM.undef : JM α).Sure := fun _ _ _ h => by cases h

theorem putChar (b : Buf UInt8) (c : UInt8) : (Pcl.putChar b c).Sure := by
  intro s f s' h
  unfold Pcl.putChar JM.lift at h
  split at h
  · cases h
  · cases h

theorem storeCode (b : Buf UInt8) (bytes : List UInt8) : (JE.storeCode b bytes).Sure := by
  unfold JE.storeCode
  cases storeAt b.data b.pos bytes with
  | none => exact undef
  | some data =>
    dsimp only
    split
    · exact fun _ _ _ h => by cases h
    · exact undef

end JM.Sure

theorem strtol_err {s : List UInt8} {base : Nat} {f : Fault} (h : strtol s base = .error f) : f.err ≠ eOkay := by
  unfold strtol at h
  repeat' split at h
  all_goals cases h
  all_goals decide

theorem strtoll_err {s : List UInt8} {base : Nat} {f : Fault} (h : strtoll s base = .error f) : f.err ≠ eOkay := by
  unfold strtoll at h
  repeat' split at h
  all_goals cases h
  all_goals decide

theorem strtoi_err {s : List UInt8} {base : Nat} {f : Fault} (h : strtoi s base = .error f) : f.err ≠ eOkay := by
  unfold strtoi at h
  cases hl : strtol s base with
  | error f' =>
    rw [hl] at h
    cases h
    exact strtol_err hl
  | ok p =>
    rw [hl] at h
    cases h

namespace JE.Models

theorem pure (a : α) : (Pure.pure a : JE α).Models (Pure.pure a) := ⟨.pure a, .pure a⟩

theorem bind {x : JE α} {y : JM α} {f : α → JE β} {g : α → JM β} (hx : x.Models y) (hf : ∀ a, (f a).Models (g a)) :
    (x >>= f).Models (y >>= g) :=
  ⟨hx.blind.bind fun a => (hf a).blind, hx.agrees.bind fun a => (hf a).agrees⟩

theorem ite {c : Prop} [Decidable c] {x x' : JE α} {y y' : JM α} (h : x.Models y) (h' : x'.Models y') :
    (if c then x else x').Models (if c then y else y') := by
  split
  · exact h
  · exact h'

theorem of {y : JM α} (hy : y.Sure) : (JE.of y).Models y := ⟨.of y, .of hy⟩

theorem raising (l : Loc) (y : JM α) : (JE.raising l y).Models y := ⟨.raising l y, .raising l y⟩

theorem throw (l : Loc) (parts : List (List UInt8)) : (JE.throw l parts : JE α).Models (JM.throw parts) := raising l _

theorem stored (l : Loc) (frames : List (Loc × Option CStr)) {r : Except Fault α}
    (herr : ∀ f, r = .error f → f.err ≠ eOkay) : (JE.stored l frames r).Models (JM.ofExcept r) := by
  refine ⟨.stored l frames r, fun s e he => ?_⟩
  cases r with
  | ok a => exact ⟨e, he, rfl⟩
  | error f =>
    obtain ⟨e₁, hset, he₁, herr₁⟩ := errVset_fails he l (herr f rfl) f.oserr f.msg
    obtain ⟨e₂, htrace, he₂, herr₂⟩ := JE.Agrees.traceAll frames he₁
    refine ⟨e₂, he₂, herr₂.trans herr₁, ?_⟩
    unfold JE.stored
    dsimp only
    rw [bind_run, hset, Option.bind_some]
    dsimp only
    rw [if_neg (by decide), bind_run, htrace]
    rfl

/-- An error that the caller tests for. -/
theorem refused_bind {l frame : Loc} {f : Fault} {hidden : α} (hf : f.err ≠ eOkay) {g : α → JE β}
    (hg : ∀ a, (g a).Blind) : (JE.refused l frame f hidden >>= g).Models (JM.fault f) := by
  have hblind : (JE.refused l frame f hidden).Blind := fun s =>
    (gives_errVset _ _ _ _).blind.bind fun _ => .ite ((gives_errVtrace _ _).andPure _).blind (.pure _)
  refine ⟨hblind.bind hg, fun s e he => ?_⟩
  obtain ⟨e₁, hset, he₁, herr₁⟩ := errVset_fails he l hf f.oserr f.msg
  refine ⟨e₁.traced frame none, (traced_frozen e₁ frame none).trans he₁, (traced_err e₁ frame none).trans herr₁, ?_⟩
  have hrun : JE.refused l frame f hidden s e = some ((none, s), e₁.traced frame none) := by
    unfold JE.refused
    rw [bind_run, hset, Option.bind_some]
    dsimp only
    rw [if_pos (by decide), bind_run, trc_run]
    rfl
  show ((JE.refused l frame f hidden s e).bind fun p => JE.andThen g p.1 p.2) = _
  rw [hrun]
  rfl

/-! The parsers of strings. -/

theorem hex2num : JE.hex2num.Models Pcl.hex2num := by
  have heq : Pcl.hex2num = do
      let s ← JM.get
      let p ← JM.ofExcept (strtoi (s.rest.take 4) 16)
      if p.2.headD 0 ≠ 0 then JM.throw [txt "invalid unicode character: '", s.rest.take 4, txt "'"]
      else
        JM.skip 4
        return UInt32.ofNat (p.1 % 2 ^ 32).toNat := by
    funext s
    simp only [Pcl.hex2num, JM.bind_run, JM.get, JM.andThen_ok]
    cases strtoi (s.rest.take 4) 16 with
    | error f => rfl
    | ok p =>
      dsimp only
      show _ = (if p.2.headD 0 ≠ 0 then _ else _ : JM UInt32) s
      split
      · rfl
      · rfl
  rw [heq]
  refine .bind (.of .get) fun s => .bind (.stored _ _ fun f => strtoi_err) fun p => .ite (.throw _ _) ?_
  exact .bind (.of (.skip 4)) fun _ => .pure _

theorem putCode (b : Buf UInt8) (code : UInt32) : (JE.putCode b code).Models (Pcl.putCode b code) := by
  unfold JE.putCode Pcl.putCode JE.utf8Encode
  refine .ite ?_ (.of .undef)
  dsimp only
  cases hcode : Pcl.utf8Encode code with
  | ok bytes => exact .of (.storeCode _ bytes)
  | error f =>
    have hf : f.err ≠ eOkay := by
      unfold Pcl.utf8Encode at hcode
      repeat' split at hcode
      all_goals cases hcode
      show eInvcodept ≠ eOkay
      decide
    exact refused_bind hf fun bytes => .of _

theorem secondUnit (b : Buf UInt8) (first : UInt32) (rest : List UInt8) :
    (JE.secondUnit b first rest).Models (Pcl.secondUnit b first rest) := by
  refine .bind (.of .get) fun s' => .ite (.throw _ _) (.ite (.throw _ _) ?_)
  exact .bind (.of (.skip 2)) fun _ => .bind hex2num fun second => .ite (.throw _ _) (.putCode _ _)

theorem utf16ToUtf8 (b : Buf UInt8) : (JE.utf16ToUtf8 b).Models (Pcl.utf16ToUtf8 b) :=
  .bind (.of .get) fun _ => .ite (.throw _ _) (.bind hex2num fun _ => .ite (.secondUnit _ _ _) (.putCode _ _))

theorem stringLoop (n : Nat) (b : Buf UInt8) : (JE.stringLoop n b).Models (Pcl.stringLoop n b) := by
  induction n generalizing b with
  | zero => exact .of .undef
  | succ n ih =>
    refine .bind (.of .peek) fun c => .ite (.pure b) (.ite ?_ ?_)
    · exact .bind (.of (.putChar b c)) fun b => .bind (.of (.skip 1)) fun _ => ih b
    · refine .bind (.of (.skip 1)) fun _ => .bind (.of .peek) fun c => .ite ?_ ?_
      · exact .bind (.of (.skip 1)) fun _ => .bind (.utf16ToUtf8 b) fun b => ih b
      · cases unescape c with
        | some x => exact .bind (.of (.putChar b x)) fun b => .bind (.of (.skip 1)) fun _ => ih b
        | none => exact .throw _ _

theorem closeData (b : Buf UInt8) : (JE.closeData b).Models (Pcl.closeData b) := by
  refine .bind (.of .peek) fun c => .ite (.throw _ _) (.bind (.of (.skip 1)) fun _ => ?_)
  cases (b.data.take b.len).mapM id with
  | none => exact .of .undef
  | some bytes =>
    dsimp only
    unfold JE.utf8Check
    cases utf8Scan bytes with
    | none => exact .pure b.data
    | some p =>
      have hf : eIlseq ≠ eOkay := by decide
      exact refused_bind hf fun _ => .pure b.data

/-- `ipcl_json_parse_string` with the error state. -/
theorem parseString (mem : Stale) : (JE.parseString mem).Models (ipclJsonParseString mem) := by
  have hdata : JE.parseStringData.Models ipclJsonParseStringData := by
    refine .bind (.of .peek) fun c => .ite (.throw _ _) (.bind (.of .mark) fun _ => .bind (.of (.skip 1)) fun _ => ?_)
    exact .bind (.of .get) fun s => .bind (.stringLoop _ _) fun b => .closeData b
  exact .bind hdata fun data => .pure _

end JE.Models

/-! The parser of numbers. -/

theorem scanNumber_cases (l : List UInt8) (left : Int) (fl : NumFlags) :
    (∃ p, scanNumber l left fl = .ok p ∧ JE.scanNumber l left fl = pure p) ∨
      ∃ f loc, scanNumber l left fl = .error f ∧ JE.scanNumber l left fl = JE.raising loc (JM.fault f) := by
  induction l generalizing left fl with
  | nil => exact .inl ⟨_, rfl, rfl⟩
  | cons c rest ih =>
    rw [JE.scanNumber, scanNumber]
    dsimp only
    split
    · exact .inl ⟨_, rfl, rfl⟩
    · split
      · split
        · exact .inr ⟨_, _, rfl, rfl⟩
        · exact ih _ _
      · split
        · split
          · exact .inr ⟨_, _, rfl, rfl⟩
          · exact ih _ _
        · split
          · split
            · exact .inr ⟨_, _, rfl, rfl⟩
            · split
              · exact .inr ⟨_, _, rfl, rfl⟩
              · exact ih _ _
          · split
            · exact .inl ⟨_, rfl, rfl⟩
            · exact ih _ _

theorem raising_fault_bind (l : Loc) (f : Fault) (g : α → JE β) :
    (JE.raising l (JM.fault f) >>= g) = JE.raising l (JM.fault f) := by
  funext s e
  show ((errVset l f.err f.oserr f.msg e).bind _).bind _ = (errVset l f.err f.oserr f.msg e).bind _
  cases errVset l f.err f.oserr f.msg e with
  | none => rfl
  | some p => rfl

theorem stored_error_bind (l : Loc) (frames : List (Loc × Option CStr)) (f : Fault) (g : α → JE β) :
    (JE.stored l frames (.error f) >>= g) = JE.stored l frames (.error f) := by
  funext s e
  show ((errVset l f.err f.oserr f.msg e).bind _).bind _ = (errVset l f.err f.oserr f.msg e).bind _
  cases errVset l f.err f.oserr f.msg e with
  | none => rfl
  | some p =>
    simp only [Option.bind_some]
    by_cases hr : p.1 = 0
    · simp only [if_pos hr]
      rfl
    · simp only [if_neg hr, bind_run]
      cases JE.traceAll frames p.2 with
      | none => rfl
      | some q => rfl

namespace JE.Models

/-- A function that sets an error and returns `NULL`. -/
theorem call_errVset (l : Loc) (f : Fault) : (JE.call (do
      let _ ← errVset l f.err f.oserr f.msg
      return none) : JE α).Models (JM.fault f) := by
  have heq : (JE.call (do
      let _ ← errVset l f.err f.oserr f.msg
      return none) : JE α) = JE.raising l (JM.fault f) := by
    funext s e
    unfold JE.call
    simp only [bind_run]
    show _ = (errVset l f.err f.oserr f.msg e).bind _
    cases errVset l f.err f.oserr f.msg e with
    | none => rfl
    | some p => rfl
  rw [heq]
  exact .raising l _

theorem call_pure (a : α) : (JE.call (Pure.pure (some a))).Models (Pure.pure a) := JE.Models.pure a

theorem call_jsonInt (i : Int) : (JE.call (Pcl.jsonInt i) : JE (Json R)).Models (JM.jsonInt i) := by
  unfold Pcl.jsonInt JM.jsonInt
  split
  · exact call_errVset _ ⟨eInval, 0, none⟩
  · exact call_pure _

theorem call_jsonReal (D : Doubles R) (x : R) : (JE.call (Pcl.jsonReal D x)).Models (JM.jsonReal D x) := by
  unfold Pcl.jsonReal JM.jsonReal
  cases D.kind x with
  | valid => exact call_pure _
  | invreal => exact call_errVset _ ⟨eInval, 0, none⟩
  | nan => exact call_errVset _ ⟨eInval, 0, some (.lit "NaN not supported")⟩
  | inf => exact call_errVset _ ⟨eInval, 0, some (.lit "Infinity not supported")⟩

/-- `ipcl_json_parse_number` with the error state. -/
theorem parseNumber (D : Doubles R) : (JE.parseNumber D).Models (ipclJsonParseNumber D) := by
  refine .bind (.of .get) fun s => ?_
  dsimp only
  rcases scanNumber_cases (s.rest.drop (if s.rest.headD 0 = ch '-' then 1 else 0))
    (s.left - (if s.rest.headD 0 = ch '-' then 1 else 0 : Nat)) ⟨false, false, false⟩ with
    ⟨⟨fl, left⟩, hr, hx⟩ | ⟨f, l, hr, hx⟩
  · rw [hr, hx]
    refine .ite (.throw _ _) (.ite (.throw _ _) (.ite ?_ ?_))
    · cases scanDecimal s.rest with
      | none => exact .throw _ _
      | some q =>
        obtain ⟨neg, m, e, rest⟩ := q
        exact .ite (.raising _ _) (.bind (.of (.goto rest)) fun _ => call_jsonReal D _)
    · cases hnum : strtoll s.rest 10 with
      | error f =>
        rw [stored_error_bind]
        exact .stored _ _ fun f' h => by cases h; exact strtoll_err hnum
      | ok p => exact .bind (.of (.goto p.2)) fun _ => call_jsonInt p.1
  · rw [hr, hx, raising_fault_bind]
    exact .raising l _

end JE.Models

end Pcl

import Pcl.Json.Value
import Pcl.Buf.Get

/-!
# The state of the parser

`ipcl_json_state_t`. A pointer into the text is the bytes from there up to the terminating NUL, with
the distance to `s->end`, which is negative once the pointer is behind it. The parsers are in `JM`: on
failure the error that was set is their result (frames traced on the way up are left out, and the error
state is not frozen), and they have no result where the C program has no defined behaviour. The `int` that counts the
lines has no bound here.
-/

namespace Pcl

/-- `ipcl_json_state_t`. -/
structure JState where
  rest : List UInt8
  left : Int
  line : Int
  ctx : List UInt8
  ctxLeft : Int

/-- What a parser ends with: a value, or `NULL` with the error set. -/
inductive PRes (α : Type) where
  | ok (a : α) (s : JState)
  | fail (f : Fault) (s : JState)

/-- The state at the end of a parser. -/
def PRes.state {α : Type} : PRes α → JState
  | .ok _ s | .fail _ s => s

abbrev JM (α : Type) := JState → Option (PRes α)

namespace JM
variable {α β : Type}

/-- Continue with the value of a parser. -/
def andThen (x : Option (PRes α)) (f : α → JM β) : Option (PRes β) :=
  match x with
  | none => none
  | some (.fail e s) => some (.fail e s)
  | some (.ok a s) => f a s

instance : Monad JM where
  pure a := fun s => some (.ok a s)
  bind x f := fun s => andThen (x s) f

@[simp] theorem pure_run (a : α) (s : JState) : (pure a : JM α) s = some (.ok a s) := rfl

@[simp] theorem bind_run (x : JM α) (f : α → JM β) (s : JState) : (x >>= f) s = andThen (x s) f := rfl

@[simp] theorem andThen_ok (a : α) (s : JState) (f : α → JM β) : andThen (some (.ok a s)) f = f a s := rfl

@[simp] theorem andThen_fail (e : Fault) (s : JState) (f : α → JM β) :
    andThen (some (.fail e s)) f = some (.fail e s) := rfl

@[simp] theorem andThen_none (f : α → JM β) : andThen none f = none := rfl

/-- No defined behaviour. -/
def undef : JM α := fun _ => none

/-- Fail with an error of a function that was called. -/
def fault (f : Fault) : JM α := fun s => some (.fail f s)

/-- `JSON_THROW`; the message is given in parts. -/
def throw (parts : List (List UInt8)) : JM α := fault ⟨eSyntax, 0, some (.ofBytes parts.flatten)⟩

/-- A call that sets no error. -/
def lift (x : ErrM α) : JM α := fun s =>
  match x .zero with
  | none => none
  | some (a, _) => some (.ok a s)

def get : JM JState := fun s => some (.ok s s)

/-- `*s->next`. -/
def peek : JM UInt8 := fun s => some (.ok (s.rest.headD 0) s)

/-- `s->next += n`. -/
def skip (n : Nat) : JM Unit := fun s => some (.ok () { s with rest := s.rest.drop n, left := s.left - n })

/-- `s->ctx = s->next`. -/
def mark : JM Unit := fun s => some (.ok () { s with ctx := s.rest, ctxLeft := s.left })

/-- Call a parser and go on whether it succeeds or not. -/
def ignore (x : JM α) : JM Unit := fun s =>
  match x s with
  | none => none
  | some (.ok _ s) | some (.fail _ s) => some (.ok () s)

end JM

/-- The loop of `ipcl_json_skipws`, and whether it stopped before the end. -/
def skipwsLoop : List UInt8 → Int → Int → Bool × List UInt8 × Int × Int
  | [], left, line => (decide (left > 0), [], left, line)
  | b :: rest, left, line =>
    if left ≤ 0 then (false, b :: rest, left, line)
    else if !isspace b then (true, b :: rest, left, line)
    else if b = ch '\r' then
      match rest with
      | b' :: rest' =>
        if b' = ch '\n' then skipwsLoop rest' (left - 2) (line + 1) else skipwsLoop (b' :: rest') (left - 1) line
      | [] => skipwsLoop [] (left - 1) line
    else skipwsLoop rest (left - 1) (if b = ch '\n' then line + 1 else line)

/-- `ipcl_json_skipws`. -/
def ipclJsonSkipws : JM Unit := fun s =>
  let (found, rest, left, line) := skipwsLoop s.rest s.left s.line
  let s := { s with rest := rest, left := left, line := line }
  if found then some (.ok () s) else JM.throw [txt "unexpected end of input"] s

end Pcl

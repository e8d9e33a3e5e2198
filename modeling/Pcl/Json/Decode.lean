import Pcl.Json.ParseString
import Pcl.Json.ParseNumber

/-!
# The recursive-descent parser

`ipcl_json_parse_value`, `ipcl_json_parse_array` and `ipcl_json_parse_object`, over given parsers of
string and number tokens, and `pcl_json_decode`. The recursion of the parsers and the loops are bounded
by a fuel; no fuel, no result. An array is a list and an object a map: the `int` capacity of the one, which cannot be
doubled from 2 ^ 30 elements on, and the error of the other at 2 ^ 30 entries are left out.
-/

namespace Pcl

variable {R : Type}

/-- The parsers of the tokens. -/
structure Tokens (R : Type) where
  string : JM CStr
  number : JM (Json R)

/-- The loop of `ipcl_json_parse_array`, from an element on. -/
def arrayLoop (value : JM (Json R)) : Nat → List (Json R) → JM (Json R)
  | 0, _ => JM.undef
  | n + 1, arr => do
    let val ← value
    ipclJsonSkipws
    if (← JM.peek) = ch ']' then
      JM.skip 1
      return .arr (arr ++ [val])
    else
      let c ← JM.peek
      JM.skip 1
      if c ≠ ch ',' then
        JM.throw [txt "missing comma after value"]
      else
        ipclJsonSkipws
        let s ← JM.get
        if s.left > 0 then arrayLoop value n (arr ++ [val])
        else JM.throw [txt "unexpected end of input"]

/-- `ipcl_json_parse_array`. -/
def ipclJsonParseArray (value : JM (Json R)) (fuel : Nat) : JM (Json R) := do
  let c ← JM.peek
  JM.skip 1
  if c ≠ ch '[' then
    JM.throw [txt "expected opening array '['"]
  else
    -- the result is not looked at
    JM.ignore ipclJsonSkipws
    JM.mark
    if (← JM.peek) = ch ']' then
      JM.skip 1
      return .arr []
    else arrayLoop value fuel []

/-- The loop of `ipcl_json_parse_object`, from a key on. -/
def objectLoop (string : JM CStr) (value : JM (Json R)) : Nat → List (CStr × Json R) → JM (Json R)
  | 0, _ => JM.undef
  | n + 1, obj => do
    let key ← string
    ipclJsonSkipws
    let c ← JM.peek
    JM.skip 1
    if c ≠ ch ':' then
      JM.throw [txt "expected value ':' separator"]
    else
      let val ← value
      match Json.objput obj key val with
      | none => JM.fault ⟨eExist, 0, none⟩
      | some obj =>
        ipclJsonSkipws
        if (← JM.peek) = ch '\x7d' then
          JM.skip 1
          return .obj obj
        else
          let c ← JM.peek
          JM.skip 1
          if c ≠ ch ',' then
            JM.throw [txt "missing comma after value"]
          else
            ipclJsonSkipws
            let s ← JM.get
            if s.left > 0 then objectLoop string value n obj
            else JM.throw [txt "unexpected end of input"]

/-- `ipcl_json_parse_object`. -/
def ipclJsonParseObject (string : JM CStr) (value : JM (Json R)) (fuel : Nat) : JM (Json R) := do
  let c ← JM.peek
  JM.skip 1
  if c ≠ ch '\x7b' then
    JM.throw [txt "expected opening object '\x7b'"]
  else
    ipclJsonSkipws
    JM.mark
    if (← JM.peek) = ch '\x7d' then
      JM.skip 1
      return .obj []
    else objectLoop string value fuel []

/-- A literal of `ipcl_json_parse_value`, by its bytes behind the first. -/
def parseLiteral (tail : List UInt8) (val : Json R) : JM (Json R) := do
  let s ← JM.get
  if s.left < tail.length + 1 ∨ (s.rest.drop 1).take tail.length ≠ tail then
    JM.throw [txt "invalid json value"]
  else
    JM.skip (tail.length + 1)
    return val

/-- `ipcl_json_parse_value`. -/
def ipclJsonParseValue (T : Tokens R) : Nat → JM (Json R)
  | 0 => JM.undef
  | n + 1 => do
    JM.mark
    ipclJsonSkipws
    JM.mark
    let c ← JM.peek
    if c = ch '\x7b' then
      ipclJsonParseObject T.string (ipclJsonParseValue T n) n
    else if c = ch '[' then
      ipclJsonParseArray (ipclJsonParseValue T n) n
    else if c = ch '"' then
      let str ← T.string
      return .str str
    else if c = ch 't' then
      parseLiteral (txt "rue") (.bool true)
    else if c = ch 'f' then
      parseLiteral (txt "alse") (.bool false)
    else if c = ch 'n' then
      parseLiteral (txt "ull") .null
    else if c = ch '-' ∨ isdigit c then
      T.number
    else
      JM.throw [txt "expected json value"]

/-- The byte order mark of UTF-8. -/
def bom : List UInt8 := [0xEF, 0xBB, 0xBF]

/-- How `pcl_json_decode` shows a byte around the error site. -/
def showByte (c : UInt8) : List UInt8 :=
  if c = 0x0c then txt "\\f"
  else if c = 0x09 then txt "\\t"
  else if c = 0x0d then txt "\\r"
  else if c = 0x0a then txt "\\n"
  else if c = 0x08 then txt "\\b"
  else [c]

/-- The message of the last trace of a failed `pcl_json_decode`: the line and some context, which may run out of
the memory of the text and its NUL. -/
def contextMsg (s : JState) : Option CStr :=
  let mem := s.ctx ++ [0]
  -- the length is unsigned
  let len := if s.ctxLeft < 0 then 20 else min s.ctxLeft.toNat 20
  if mem.length < len then none
  else
    some (.ofBytes (txt "line=" ++ txt (toString s.line) ++ txt ", context=" ++ (mem.take len).flatMap showByte))

/-- The parsers of `pcl_json_decode`. -/
def tokens (D : Doubles R) (mem : Stale) : Tokens R := ⟨ipclJsonParseString mem, ipclJsonParseNumber D⟩

/-- `pcl_json_decode` over given token parsers, of the bytes `json` and the NUL behind them: the value
and the offset of `*end`, or the error and the message of its last trace. -/
def decodeWith (T : Tokens R) (json : List UInt8) (len : Nat) :
    Option (Except (Fault × Option CStr) (Json R × Int)) :=
  let empty : Fault := ⟨eInval, 0, some (.lit "empty json string")⟩
  let len := if len = 0 then (CStr.ofBytes json).strlen else len
  if len = 0 then some (.error (empty, none))
  else
    let start := if len ≥ 3 ∧ json.take 3 = bom then 3 else 0
    let left := len - start
    if left = 0 then some (.error (empty, none))
    else
      let text := json.drop start
      match ipclJsonParseValue T (left + 1) ⟨text, left, 1, text, left⟩ with
      | none => none
      | some (.ok val s) => some (.ok (val, len - s.left))
      | some (.fail f s) => (contextMsg s).map fun msg => .error (f, some msg)

/-- `pcl_json_decode`. -/
def jsonDecode (D : Doubles R) (mem : Stale) (json : List UInt8) (len : Nat) :
    Option (Except (Fault × Option CStr) (Json R × Int)) :=
  decodeWith (tokens D mem) json len

end Pcl

import Pcl.Json.State
import Pcl.Buf.Run
import Pcl.Str.Utf8

/-!
# String tokens

`ipcl_json_parse_string` unescapes into a growing buffer. A character put there is followed by a NUL,
the bytes of a `\u` escape are not: when a string ends in one, nothing terminates the buffer that
becomes the string. `Stale` stands for what a reader finds in the memory there. The position and the size of the
buffer are of type `int`: there is no result where one of them leaves it.
-/

namespace Pcl

/-- What follows the written bytes of an unterminated block, up to the next NUL. -/
abbrev Stale := List UInt8 → CStr

/-- A block of memory, where `none` was not written. -/
abbrev MemBlock := List (Option UInt8)

/-- The C string at the start of a block. -/
def blockStr (mem : Stale) (block : MemBlock) : CStr :=
  let written := (block.takeWhile Option.isSome).filterMap id
  if 0 ∈ written then .ofBytes written else .ofBytes (written ++ (mem written).bytes)

/-- `hex2num`. -/
def hex2num : JM UInt32 := fun s =>
  let num := s.rest.take 4
  match strtoi num 16 with
  | .error f => some (.fail f s)
  | .ok (n, rest) =>
    if rest.headD 0 ≠ 0 then
      JM.throw [txt "invalid unicode character: '", num, txt "'"] s
    else
      some (.ok (UInt32.ofNat (n % 2 ^ 32).toNat) { s with rest := s.rest.drop 4, left := s.left - 4 })

/-- Write the bytes of a code point behind the text of a buffer, without a NUL. -/
def putCode (b : Buf UInt8) (code : UInt32) : JM (Buf UInt8) :=
  if ∀ x ∈ growInts b 4, InInt x then
    let b := bufGrow b 4
    match utf8Encode code with
    | .error f => JM.fault f
    | .ok bytes =>
      match storeAt b.data b.pos bytes with
      | none => JM.undef
      | some data =>
        if InInt ((b.pos : Int) + bytes.length) ∧ InInt ((b.len : Int) + bytes.length) then
          pure { b with data := data, pos := b.pos + bytes.length, len := b.len + bytes.length }
        else JM.undef
  else JM.undef

/-- `utf16_to_utf8` behind the first unit of a surrogate pair; `rest` is for its message. -/
def secondUnit (b : Buf UInt8) (first : UInt32) (rest : List UInt8) : JM (Buf UInt8) := do
  let s' ← JM.get
  if s'.left < 6 then
    JM.throw [txt "unexpected end of input: \\u0000 encoding missing digits"]
  else if s'.rest.headD 0 ≠ ch '\\' ∨ (s'.rest.drop 1).headD 0 ≠ ch 'u' then
    JM.throw [txt "invalid unicode character: missing UTF-16 surrogate '", (txt "\\u" ++ rest).take 12, txt "'"]
  else
    JM.skip 2
    let second ← hex2num
    if second < 0xdc00 ∨ second > 0xdfff then
      JM.throw [txt "invalid unicode character: surrogate '", s'.rest.take 6, txt "'"]
    else
      let code := (0x10000 : UInt32) + ((first &&& 0x03ff) <<< 10) + (second &&& 0x03ff)
      putCode b code

/-- `utf16_to_utf8`. -/
def utf16ToUtf8 (b : Buf UInt8) : JM (Buf UInt8) := do
  let s ← JM.get
  if s.left < 4 then
    JM.throw [txt "unexpected end of input: \\u0000 encoding missing digits"]
  else
    let first ← hex2num
    if first ≥ 0xd800 ∧ first ≤ 0xdbff then
      secondUnit b first s.rest
    else
      putCode b first

/-- `pcl_buf_putchar` on the buffer of a string. -/
def putChar (b : Buf UInt8) (c : UInt8) : JM (Buf UInt8) := JM.lift (BufOp.exec b (.putchar c))

/-- What the one-letter escapes stand for. -/
def unescape (c : UInt8) : Option UInt8 :=
  if c = ch '\\' ∨ c = ch '/' ∨ c = ch '"' then some c
  else if c = ch 'n' then some 0x0a
  else if c = ch 'r' then some 0x0d
  else if c = ch 'b' then some 0x08
  else if c = ch 'f' then some 0x0c
  else if c = ch 't' then some 0x09
  else none

/-- The loop of `ipcl_json_parse_string`, which ends at a quote or a NUL. -/
def stringLoop : Nat → Buf UInt8 → JM (Buf UInt8)
  | 0, _ => JM.undef
  | n + 1, b => do
    let c ← JM.peek
    if c = 0 ∨ c = ch '"' then
      return b
    else if c ≠ ch '\\' then
      let b ← putChar b c
      JM.skip 1
      stringLoop n b
    else
      JM.skip 1
      let c ← JM.peek
      if c = ch 'u' then
        JM.skip 1
        let b ← utf16ToUtf8 b
        stringLoop n b
      else
        match unescape c with
        | some x =>
          let b ← putChar b x
          JM.skip 1
          stringLoop n b
        | none => JM.throw [txt "invalid escape sequence within string \\", [c]]

/-- `ipcl_json_parse_string` behind its loop. -/
def closeData (b : Buf UInt8) : JM MemBlock := do
  if (← JM.peek) ≠ ch '"' then
    JM.throw [txt "expected closing double quote"]
  else
    JM.skip 1
    -- the unescaping did not check that the text is valid UTF-8
    match (b.data.take b.len).mapM id with
    | none => JM.undef
    | some bytes =>
      match utf8Scan bytes with
      | some (_, msg) => JM.fault ⟨eIlseq, 0, some msg⟩
      | none => return b.data

/-- `ipcl_json_parse_string`, which returns the block of its buffer. -/
def ipclJsonParseStringData : JM MemBlock := do
  if (← JM.peek) ≠ ch '"' then
    JM.throw [txt "expected opening quote"]
  else
    JM.mark
    JM.skip 1
    let s ← JM.get
    let b ← stringLoop (s.rest.length + 1) (bufInit 32 .text)
    closeData b

/-- The string that a caller of `ipcl_json_parse_string` reads. -/
def ipclJsonParseString (mem : Stale) : JM CStr := do
  let data ← ipclJsonParseStringData
  return blockStr mem data

end Pcl

import Pcl.Buf.Run
import Pcl.Vector.Ops

/-!
# Buffers as bytes

`tag_pcl_buf` with its `chrsize` and the pointer to its block, and all of `src/buf` that works on one: the
offsets are those that the code computes from `pos` and `chrsize`, whatever the two are. Values of `int`
are `checked`. `zeroFails` is whether a request of no bytes fails.
-/

namespace Pcl

/-- The computation, where the values of its `int` arithmetic are in range. -/
def checked {α : Type} (ints : List Int) (x : ErrM α) : ErrM α := if ∀ i ∈ ints, InInt i then x else ErrM.undef

/-- A failure of the allocator does not return. -/
def ErrM.ofMem {α : Type} : Except MemFault α → ErrM α
  | .ok a => pure a
  | .error _ => ErrM.undef

/-- `sizeof` of the character type. -/
def BufMode.chrsize : BufMode → Nat
  | .textW => 4
  | .binary | .text => 1

/-- `wcslen`. -/
def wcslen : List UInt8 → Option Nat
  | a :: b :: c :: d :: s => if a = 0 ∧ b = 0 ∧ c = 0 ∧ d = 0 then some 0 else (wcslen s).map (· + 1)
  | _ => none

/-- `tag_pcl_buf`. -/
structure RawBuf where
  mode : BufMode
  chrsize : Nat
  pos : Nat
  len : Nat
  size : Nat
  data : Elems

namespace RawBuf

/-- `pcl_buf_init` of a buffer that was given; its `data` is left as it is for no characters. -/
def init (size : Nat) (mode : BufMode) : RawBuf where
  mode := mode
  chrsize := mode.chrsize
  pos := 0
  len := 0
  size := size
  data := if size = 0 then .wild
    else .block (List.replicate mode.chrsize (some 0) ++ List.replicate ((size - 1) * mode.chrsize) none)

section
variable (zeroFails : Bool) (b : RawBuf)

/-- `pcl_buf_grow`. -/
def grow (len : Int) : ErrM RawBuf :=
  let avail : Int := b.size - b.pos
  checked [(b.size : Int), avail] <|
    if len ≥ avail then
      checked [len - avail] do
        let size := ((b.size + (len - avail)) * 2).toNat
        let data ← .ofMem (pclRealloc b.data (size * b.chrsize) zeroFails)
        return { b with size := size, data := data }
    else return b

/-- `s` at the position, the position `n` characters on and a NUL there. -/
def write (s : List UInt8) (n : Nat) : ErrM RawBuf :=
  let stored := (Block.store b.data.bytes (b.pos * b.chrsize) (s.map some)).bind fun bytes =>
    Block.store bytes ((b.pos + n) * b.chrsize) (List.replicate b.chrsize (some 0))
  match stored with
  | none => ErrM.undef
  | some bytes => return { b with data := .block bytes, pos := b.pos + n, len := max b.len (b.pos + n) }

/-- The values of the offsets of a put of `len` characters. -/
def offsets (len : Int) : List Int :=
  [(b.pos : Int) * b.chrsize, len * b.chrsize, (b.pos : Int) + len, ((b.pos : Int) + len) * b.chrsize]

/-- `pcl_buf_put`; `data` is the memory that is read. -/
def put (data : List UInt8) (len : Int) : ErrM (Int × RawBuf) :=
  if len = 0 then do
    let r ← badArg (loc "buf_put.c" "pcl_buf_put" 39)
    return (r, b)
  else
    checked [len + 1] do
      let b ← b.grow zeroFails (len + 1)
      checked (b.offsets len) <|
        if len < 0 ∨ (data.length : Int) < len * b.chrsize then ErrM.undef
        else do
          -- always NUL terminate, just not added to len
          let b ← b.write (data.take (len.toNat * b.chrsize)) len.toNat
          return (len, b)

/-- `pcl_buf_putchar`. -/
def putchar (c : UInt32) : ErrM (Int × RawBuf) := b.put zeroFails (leBytes 4 c.toNat) 1

/-- `pcl_buf_putstr`; `s` is the string with its NUL. -/
def putstr (s : List UInt8) : ErrM (Int × RawBuf) :=
  match if b.chrsize = 1 then strlenIn (s.map some) else wcslen s with
  | none => ErrM.undef
  | some len =>
    let n : Int := if b.mode = .binary then len + 1 else len
    checked [(len : Int), n] (b.put zeroFails s n)

/-- `pcl_buf_putint8`. -/
def putint8 (i : UInt8) : ErrM (Int × RawBuf) :=
  if b.mode = .binary then b.put zeroFails [i] 1
  else do
    let r ← badArg (loc "buf_putint8.c" "pcl_buf_putint8" 39)
    return (r, b)

/-- A put of an `n`-byte integer in network order. -/
def putint (l : Loc) (n i : Nat) : ErrM (Int × RawBuf) :=
  if b.mode ≠ .binary then do
    let r ← badArg l
    return (r, b)
  else b.put zeroFails (leBytes n (swap n i)) n

/-- `pcl_buf_putint16`. -/
def putint16 (i : UInt16) : ErrM (Int × RawBuf) :=
  b.putint zeroFails (loc "buf_putint16.c" "pcl_buf_putint16" 40) 2 i.toNat

/-- `pcl_buf_putint32`. -/
def putint32 (i : UInt32) : ErrM (Int × RawBuf) :=
  b.putint zeroFails (loc "buf_putint32.c" "pcl_buf_putint32" 40) 4 i.toNat

/-- `pcl_buf_putint64`. -/
def putint64 (i : UInt64) : ErrM (Int × RawBuf) :=
  b.putint zeroFails (loc "buf_putint64.c" "pcl_buf_putint64" 45) 8 i.toNat

/-- `pcl_buf_vputf`; `s` are the characters that were formatted, or the error of it. -/
def vputf : Except Int (List UInt32) → ErrM (Int × RawBuf)
  | .error err => checked [err, -err] do
    let r ← setErr (loc "buf_vputf.c" "pcl_buf_vputf" 48) err
    return (r, b)
  | .ok s =>
    let len := s.length
    let n := if b.mode = .binary then len + 1 else len
    checked [(len : Int), (n : Int)] do
      let b ← b.grow zeroFails n
      checked [(b.pos : Int) + len, (b.pos : Int) + n, ((b.pos : Int) + n) * b.chrsize] do
        let b ← b.write ((s ++ [0]).flatMap fun (c : UInt32) => leBytes b.chrsize c.toNat) n
        return ((n : Int), b)

end

section
variable (b : RawBuf)

/-- `pcl_buf_get`; `buf` is what is read into. -/
def get (buf : List UInt8) (len : Int) : ErrM ((Int × List UInt8) × RawBuf) :=
  if b.mode ≠ .binary then do
    let r ← setErr (loc "buf_get.c" "pcl_buf_get" 39) eInval
    return ((r, buf), b)
  else
    checked [(b.len : Int) - b.pos] <|
      -- reading past the end of the buffer
      if len > (b.len : Int) - b.pos then do
        let r ← setErr (loc "buf_get.c" "pcl_buf_get" 43) eEof
        return ((r, buf), b)
      else if len < 0 then ErrM.undef
      else
        checked [(b.pos : Int) * b.chrsize, len * b.chrsize, b.pos + len] <|
          match (loadAt b.data.bytes (b.pos * b.chrsize) (len.toNat * b.chrsize)).bind (storeFront buf) with
          | none => ErrM.undef
          | some buf => pure ((len, buf), { b with pos := b.pos + len.toNat })

/-- `pcl_buf_getstr`. -/
def getstr (buf : List UInt8) (len : Int) : ErrM ((Int × List UInt8) × RawBuf) :=
  if b.mode ≠ .binary then do
    let r ← badArg (loc "buf_getstr.c" "pcl_buf_getstr" 39)
    return ((r, buf), b)
  else
    match strlenIn (b.data.bytes.drop b.pos) with
    | none => ErrM.undef
    | some m =>
      let n : Int := m + 1
      checked [n] <|
        if n > len then do
          let r ← setErr (loc "buf_getstr.c" "pcl_buf_getstr" 44) eBuf
          return ((r, buf), b)
        else b.get buf n

/-- `pcl_buf_getchar`. -/
def getchar (c : UInt32) : ErrM ((Int × List UInt8) × RawBuf) := b.get (leBytes 4 c.toNat) 1

/-- `pcl_buf_getint8`. -/
def getint8 (i : UInt8) : ErrM ((Int × List UInt8) × RawBuf) :=
  if b.mode = .binary then b.get [i] 1
  else do
    let r ← badArg (loc "buf_getint8.c" "pcl_buf_getint8" 39)
    return ((r, [i]), b)

/-- A get of an `n`-byte integer in network order; `bad` and `trace` are where its errors are set. -/
def getint (bad trace : Loc) (n i : Nat) : ErrM ((Int × List UInt8) × RawBuf) :=
  if b.mode ≠ .binary then do
    let r ← badArg bad
    return ((r, leBytes n i), b)
  else do
    let ((r, buf), b) ← b.get (leBytes n i) n
    if r < 0 then
      let r ← trc trace
      return ((r, buf), b)
    else return (((n : Int), leBytes n (swap n (ofLe buf))), b)

/-- `pcl_buf_getint16`. -/
def getint16 (i : UInt16) : ErrM ((Int × List UInt8) × RawBuf) :=
  b.getint (loc "buf_getint16.c" "pcl_buf_getint16" 39) (loc "buf_getint16.c" "pcl_buf_getint16" 44) 2 i.toNat

/-- `pcl_buf_getint32`. -/
def getint32 (i : UInt32) : ErrM ((Int × List UInt8) × RawBuf) :=
  b.getint (loc "buf_getint32.c" "pcl_buf_getint32" 39) (loc "buf_getint32.c" "pcl_buf_getint32" 44) 4 i.toNat

/-- `pcl_buf_getint64`. -/
def getint64 (i : UInt64) : ErrM ((Int × List UInt8) × RawBuf) :=
  b.getint (loc "buf_getint64.c" "pcl_buf_getint64" 44) (loc "buf_getint64.c" "pcl_buf_getint64" 49) 8 i.toNat

/-- `pcl_buf_reset`. -/
def reset : ErrM RawBuf :=
  match b.data with
  | .wild => ErrM.undef
  | .null => return { b with pos := 0, len := 0 }
  | .block bytes =>
    match Block.store bytes 0 (List.replicate b.chrsize (some 0)) with
    | none => ErrM.undef
    | some bytes => return { b with pos := 0, len := 0, data := .block bytes }

/-- `pcl_buf_clear`. -/
def clear : ErrM RawBuf :=
  match b.data with
  | .wild => ErrM.undef
  | .null | .block _ => return { b with size := 0, len := 0, pos := 0, data := .null }

/-- The program sets `pos` to a character of the text or to its end. -/
def seek (pos : Nat) : ErrM RawBuf := if pos ≤ b.len then return { b with pos := pos } else ErrM.undef

end

/-- The buffer that `pcl_buf_copy` fills. -/
def copyDest (zeroFails : Bool) (dest : Option RawBuf) (src : RawBuf) : ErrM RawBuf :=
  match dest with
  | none => return init src.size src.mode
  | some dest => do
    let data ← .ofMem (pclRealloc dest.data (src.size * src.chrsize) zeroFails)
    return { dest with data := data, mode := src.mode, size := src.size }

/-- `memcpy` of `n` bytes between the blocks of two buffers. -/
def copyBytes (dest src : RawBuf) (n : Nat) : ErrM RawBuf :=
  match (Block.load src.data.bytes 0 n).bind (Block.store dest.data.bytes 0) with
  | none => ErrM.undef
  | some bytes => return { dest with data := .block bytes }

/-- `pcl_buf_copy`; an absent buffer is `NULL`. -/
def copy (zeroFails : Bool) (dest src : Option RawBuf) : ErrM (Option RawBuf) :=
  match src with
  | none => do
    let _ ← setErr (loc "buf_copy.c" "pcl_buf_copy" 40) eInval
    return none
  | some src => do
    let dest ← copyDest zeroFails dest src
    let n := (src.len + 1) * dest.chrsize
    checked [(src.len : Int) + 1, (n : Int)] do
      let dest ← copyBytes { dest with len := src.len, pos := src.pos } src n
      return some dest

end RawBuf

/-! ### Runs -/

/-- What a program does with a buffer: the functions above, with the memory that they read and write. -/
inductive BufCall where
  | put (data : List UInt8) (len : Int)
  | putchar (c : UInt32)
  | putstr (s : List UInt8)
  | putint8 (i : UInt8)
  | putint16 (i : UInt16)
  | putint32 (i : UInt32)
  | putint64 (i : UInt64)
  | vputf (s : Except Int (List UInt32))
  | get (buf : List UInt8) (len : Int)
  | getstr (buf : List UInt8) (len : Int)
  | getchar (c : UInt32)
  | getint8 (i : UInt8)
  | getint16 (i : UInt16)
  | getint32 (i : UInt32)
  | getint64 (i : UInt64)
  | grow (len : Int)
  | reset
  | clear
  | seek (pos : Nat)

namespace RawBuf

/-- The result of a call that reads nothing. -/
def noOutput (x : ErrM (Int × RawBuf)) : ErrM ((Int × List UInt8) × RawBuf) := do
  let (r, b) ← x
  return ((r, []), b)

/-- A call with nothing but the buffer as its result. -/
def noResult (x : ErrM RawBuf) : ErrM ((Int × List UInt8) × RawBuf) := do
  let b ← x
  return ((0, []), b)

/-- A call: what it returns, what is in its output buffer and the buffer after it. -/
def call (zeroFails : Bool) (b : RawBuf) : BufCall → ErrM ((Int × List UInt8) × RawBuf)
  | .put data len => noOutput (b.put zeroFails data len)
  | .putchar c => noOutput (b.putchar zeroFails c)
  | .putstr s => noOutput (b.putstr zeroFails s)
  | .putint8 i => noOutput (b.putint8 zeroFails i)
  | .putint16 i => noOutput (b.putint16 zeroFails i)
  | .putint32 i => noOutput (b.putint32 zeroFails i)
  | .putint64 i => noOutput (b.putint64 zeroFails i)
  | .vputf s => noOutput (b.vputf zeroFails s)
  | .get buf len => b.get buf len
  | .getstr buf len => b.getstr buf len
  | .getchar c => b.getchar c
  | .getint8 i => b.getint8 i
  | .getint16 i => b.getint16 i
  | .getint32 i => b.getint32 i
  | .getint64 i => b.getint64 i
  | .grow len => noResult (b.grow zeroFails len)
  | .reset => noResult b.reset
  | .clear => noResult b.clear
  | .seek pos => noResult (b.seek pos)

/-- What is to be seen of a buffer: its fields, and its characters with the NUL behind them. -/
def visible (b : RawBuf) : RawBuf :=
  match b.data with
  | .wild | .null => b
  | .block bytes => { b with data := .block (bytes.take ((b.len + 1) * b.chrsize)) }

/-- The results of a sequence of calls, with what is to be seen after each. -/
def calls (zeroFails : Bool) : List BufCall → RawBuf → ErrM (List ((Int × List UInt8) × RawBuf))
  | [], _ => return []
  | op :: ops, b => do
    let (out, b) ← b.call zeroFails op
    let outs ← calls zeroFails ops b
    return (out, b.visible) :: outs

/-- The buffers of a program, with new copies and those into a buffer whose characters are as large. -/
inductive Reach (zeroFails : Bool) : RawBuf → Prop
  | init (size : Nat) (mode : BufMode) : Reach zeroFails (init size mode)
  | call {b b' : RawBuf} {op : BufCall} {out : Int × List UInt8} {e e' : ErrState} (h : Reach zeroFails b)
    (hrun : b.call zeroFails op e = some ((out, b'), e')) : Reach zeroFails b'
  | copy {dest : Option RawBuf} {src b : RawBuf} {e e' : ErrState} (hdest : ∀ d, dest = some d → Reach zeroFails d)
    (hsrc : Reach zeroFails src) (hchr : ∀ d, dest = some d → d.chrsize = src.chrsize)
    (hrun : copy zeroFails dest (some src) e = some (some b, e')) : Reach zeroFails b

end RawBuf
end Pcl

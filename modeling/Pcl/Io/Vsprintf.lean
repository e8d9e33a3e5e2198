import Pcl.ErrState
import Pcl.Io.FmtconvSpec
import Pcl.Lib.Block
import Pcl.Str.Search

/-!
# Formatting into a buffer

`pcl_sprintf` of `src/io/vsprintf.c` on Unix, for formats whose directives are all "%s" once they are converted. The
system cuts the text off where the buffer ends; that it did is told by the result alone.
-/

namespace Pcl

/-- What the system's `printf` writes; a directive without an argument, and one this model leaves out, has no result. -/
def formatted : List XChar → List CStr → Option (List UInt8)
  | [], _ => some []
  | c :: fmt, args =>
    if c = X '%' then
      match fmt, args with
      | s :: fmt, arg :: args => if s = X 's' then (formatted fmt args).map (arg.bytes ++ ·) else none
      | _, _ => none
    else (formatted fmt args).map (UInt8.ofNat c :: ·)

/-- `vsnprintf`; `buf` is the memory of `size` bytes. A text that is too long for an `int` leaves it unspecified. -/
def vsnprintf (buf : List UInt8) (fmt : List XChar) (args : List CStr) : Option (Int × List UInt8) := do
  let text ← formatted fmt args
  if 2 ^ 31 ≤ text.length then none
  else if buf.length = 0 then return (text.length, buf)
  else
    let buf ← Block.store buf 0 (text.take (buf.length - 1) ++ [0])
    return (text.length, buf)

/-- `pcl_sprintf`. -/
def pclSprintf (buf : List UInt8) (format : List XChar) (args : List CStr) : Option (Int × List UInt8) := do
  let fmt ← Fmtconv.fmtconv format
  let (r, out) ← vsnprintf buf fmt args
  -- buffer to small
  if Int.bmod buf.length (2 ^ 32) ≤ r then return (-eBuf, out) else return (r, out)

@[simp] theorem formatted_nil (args : List CStr) : formatted [] args = some [] := rfl

@[simp] theorem formatted_arg (fmt : List XChar) (arg : CStr) (args : List CStr) :
    formatted (X '%' :: X 's' :: fmt) (arg :: args) = (formatted fmt args).map (arg.bytes ++ ·) := rfl

theorem formatted_literal {c : XChar} (h : c ≠ X '%') (fmt : List XChar) (args : List CStr) :
    formatted (c :: fmt) args = (formatted fmt args).map (UInt8.ofNat c :: ·) := by
  conv_lhs => unfold formatted
  rw [if_neg h]

/-- With room for at least the NUL, the system writes as much of the text as fits. -/
theorem vsnprintf_cuts {buf : List UInt8} {fmt : List XChar} {args : List CStr} {text : List UInt8} (hbuf : buf ≠ [])
    (htext : formatted fmt args = some text) (hint : text.length < 2 ^ 31) (hnul : (0 : UInt8) ∉ text) :
    ∃ out, vsnprintf buf fmt args = some ((text.length : Int), out) ∧ out.length = buf.length ∧
      (CStr.ofBytes out).bytes = text.take (buf.length - 1) := by
  have hpos : buf.length ≠ 0 := fun h => hbuf (List.length_eq_zero_iff.1 h)
  have hfit : (text.take (buf.length - 1) ++ [0]).length ≤ buf.length := by
    rw [List.length_append, List.length_take, List.length_singleton]
    omega
  have hstore := Block.store_front _ _ hfit
  have hrun : vsnprintf buf fmt args = some ((text.length : Int),
      text.take (buf.length - 1) ++ [0] ++ buf.drop (text.take (buf.length - 1) ++ [0]).length) := by
    unfold vsnprintf
    rw [htext, Option.bind_eq_bind, Option.bind_some, if_neg (Nat.not_le.2 hint), if_neg hpos, hstore, Option.bind_some,
      Option.pure_def]
  refine ⟨_, hrun, Block.store_length hstore, ?_⟩
  rw [List.append_assoc]
  exact ofBytes_append_nul (fun h => hnul (List.mem_of_mem_take h)) _

/-- Whatever its result says, the buffer holds what fits. -/
theorem pclSprintf_cuts {buf : List UInt8} {format : List XChar} {args : List CStr} {text : List UInt8} (hbuf : buf ≠ [])
    (htext : formatted (Fmtconv.conv format) args = some text) (hint : text.length < 2 ^ 31) (hnul : (0 : UInt8) ∉ text) :
    ∃ r out, pclSprintf buf format args = some (r, out) ∧ out.length = buf.length ∧
      (CStr.ofBytes out).bytes = text.take (buf.length - 1) := by
  obtain ⟨out, hrun, hout⟩ := vsnprintf_cuts hbuf htext hint hnul
  unfold pclSprintf
  rw [(Fmtconv.fmtconv_conv format).1, Option.bind_eq_bind, Option.bind_some, Option.bind_eq_bind, hrun, Option.bind_some]
  by_cases hsmall : Int.bmod buf.length (2 ^ 32) ≤ (text.length : Int)
  · exact ⟨-eBuf, out, if_pos hsmall, hout⟩
  · exact ⟨text.length, out, if_neg hsmall, hout⟩

end Pcl

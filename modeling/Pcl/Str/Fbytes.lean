import Mathlib.Data.Nat.Log
import Pcl.Io.FmtconvSpec
import Pcl.Json.ReadBack
import Pcl.Lib.Double

/-!
# Numbers of bytes in units

`pcl_strfbytes` of `src/string/strfbytes.c` and `pcl_sprintf` under it. The number is taken as an `int64_t` and
converted to a double wherever it is compared with a threshold or divided by one. The C library's `vsnprintf` is a parameter
that is given the quotient to print, which is exact, as numerator and denominator.
-/

namespace Pcl

/-- An argument of a format. -/
inductive FormatArg
  | int (i : Int)
  | double (num den : Int)

/-- `pcl_sprintf`: the length of the text or an error code made negative, and the buffer of `size` bytes. -/
def sprintf (vsnprintf : List XChar → List FormatArg → Except Int (List UInt8)) (buf : Option (List UInt8))
    (format : List XChar) (args : List FormatArg) : Option (Int × Option (List UInt8)) :=
  match Fmtconv.fmtconv format with
  | none => none
  | some fmt =>
    match vsnprintf fmt args with
    | .error err => some (-err, buf)
    | .ok text =>
      match buf with
      | none => some (text.length, none)
      | some buf =>
        let out := if buf = [] then buf else text.take (buf.length - 1) ++ 0 :: buf.drop (min text.length (buf.length - 1) + 1)
        if text.length ≥ Int.bmod buf.length (2 ^ 32) then some (-eBuf, some out) else some (text.length, some out)

def KiB : Int := 1024
def MiB : Int := 1048576
def GiB : Int := 1073741824
def TiB : Int := 1099511627776
def PiB : Int := 1125899906842624
def EiB : Int := 1152921504606846976

/-- The unit of a number that has one, and what it is divided by. -/
def fbytesUnit (n : Int) : UInt8 × Int :=
  if toDouble n < MiB then (ch 'K', KiB)
  else if toDouble n < GiB then (ch 'M', MiB)
  else if toDouble n < TiB then (ch 'G', GiB)
  else if toDouble n < PiB then (ch 'Y', TiB)
  else if toDouble n < EiB then (ch 'P', PiB)
  else (ch 'E', EiB)

/-- "%d". -/
def fmtInt : List XChar := [X '%', X 'd']

/-- "%.*lf%c". -/
def fmtUnit : List XChar := [X '%', X '.', X '*', X 'l', X 'f', X '%', X 'c']

/-- `pcl_strfbytes`. -/
def strfbytes (vsnprintf : List XChar → List FormatArg → Except Int (List UInt8)) (buf : Option (List UInt8))
    (nbytes : UInt64) (decimal : Int) : ErrM (Int × Option (List UInt8)) :=
  let n := Int.bmod nbytes.toNat (2 ^ 64)
  if toDouble n < KiB then
    match sprintf vsnprintf buf fmtInt [.int (Int.bmod n (2 ^ 32))] with
    | none => ErrM.undef
    | some (len, buf) =>
      if len < 0 then do
        let r ← setErr (loc "strfbytes.c" "pcl_strfbytes" 60) (-len)
        return (r, buf)
      else return (len, buf)
  else
    let unit := fbytesUnit n
    let decimal := if decimal < 0 then 0 else decimal
    let decimal := min decimal 15
    match sprintf vsnprintf buf fmtUnit [.int decimal, .double (toDouble n) unit.2, .int unit.1.toNat] with
    | none => ErrM.undef
    | some (len, buf) =>
      if len < -1 then do
        let r ← setErr (loc "strfbytes.c" "pcl_strfbytes" 104) (-len)
        return (r, buf)
      else return (len, buf)

/-- What is known of `vsnprintf`: "%d" prints a decimal number, and "%.*lf%c" a quotient below 1024 with at most four
digits in front of the point and as many as it is asked for behind it, and the character. -/
structure Prints (vsnprintf : List XChar → List FormatArg → Except Int (List UInt8)) : Prop where
  int : ∀ i, vsnprintf fmtInt [.int i] = .ok (decimal i)
  unit : ∀ (p num den : Int) (c : UInt8), 0 ≤ p → p ≤ 15 → 0 < den → 0 ≤ num → num < 1024 * den →
    ∃ number : List UInt8, number.length ≤ 20 ∧ vsnprintf fmtUnit [.int p, .double num den, .int c.toNat] = .ok (number ++ [c])

/-! ### The unit that is asked for -/

/-- `K` to `E`. -/
def unitNames : List UInt8 := txt "KMGTPE"

/-- The text is the number itself below 1024, and ends with the name of the largest unit that is at most the number
otherwise. -/
def FbytesText (n : Nat) (text : List UInt8) : Prop :=
  if n < 1024 then text = digits n else ∃ number, text = number ++ [unitNames.getD (Nat.log 1024 n - 1) 0]

/-- The text that is printed is the one asked for, in every buffer with room for it. -/
def StrfbytesMeets (vsnprintf : List XChar → List FormatArg → Except Int (List UInt8)) (nbytes : UInt64) : Prop :=
  ∀ decimal e, ∃ text, FbytesText nbytes.toNat text ∧ text.length < 32 ∧ ∀ buf : List UInt8, text.length < buf.length →
    buf.length < 2 ^ 31 → strfbytes vsnprintf (some buf) nbytes decimal e =
      some (((text.length : Int), some (text ++ 0 :: buf.drop (text.length + 1))), e)

/-- The place of the unit that is printed: zero for none. -/
def unitRank (nbytes : UInt64) : Nat :=
  let n := Int.bmod nbytes.toNat (2 ^ 64)
  if toDouble n < KiB then 0 else unitNames.idxOf (fbytesUnit n).1 + 1

/-! ### Formats -/

theorem fmtconv_int : Fmtconv.fmtconv fmtInt = some fmtInt := by
  rw [(Fmtconv.fmtconv_conv _).1]
  simp only [fmtInt]
  rw [Fmtconv.conv_spec _ (by decide) (by decide), Fmtconv.convFrom]
  rw [show Fmtconv.scanned [X 'd'] = none from by decide]
  simp only
  rw [Fmtconv.conv_literal (by decide), Fmtconv.conv_eq_nil]

theorem fmtconv_unit : Fmtconv.fmtconv fmtUnit = some fmtUnit := by
  rw [(Fmtconv.fmtconv_conv _).1]
  simp only [fmtUnit]
  rw [Fmtconv.conv_spec _ (by decide) (by decide), Fmtconv.convFrom,
    show Fmtconv.scanned [X '.', X '*', X 'l', X 'f', X '%', X 'c'] = none from by decide]
  simp only
  rw [Fmtconv.conv_literal (by decide), Fmtconv.conv_literal (by decide), Fmtconv.conv_literal (by decide),
    Fmtconv.conv_literal (by decide), Fmtconv.conv_spec _ (by decide) (by decide), Fmtconv.convFrom,
    show Fmtconv.scanned [X 'c'] = none from by decide]
  simp only
  rw [Fmtconv.conv_literal (by decide), Fmtconv.conv_eq_nil]

/-! ### Thresholds -/

/-- A number below 2^53 is compared as it is. -/
theorem toDouble_lt_iff {n k : Nat} (hk : k ≤ 53) : toDouble n < 2 ^ k ↔ n < 2 ^ k := by
  rw [toDouble_natCast, ← roundDouble_lt_small hk]
  norm_cast

theorem toDouble_lt_KiB {n : Nat} : toDouble n < KiB ↔ n < 1024 := toDouble_lt_iff (k := 10) (by decide)

/-- One close below an exbibyte is rounded to it. -/
theorem toDouble_lt_EiB {n : Nat} : toDouble n < EiB ↔ n + 64 < 2 ^ 60 := by
  have h := roundDouble_lt_two_pow (n := n) (show 54 ≤ 60 by decide)
  rw [toDouble_natCast, EiB]
  omega

theorem toDouble_lt_max {n : Nat} (h : n < 2 ^ 63) : toDouble n < 2 ^ 64 := by
  have hlt := (roundDouble_lt_two_pow (n := n) (show 54 ≤ 64 by decide)).2 (by omega)
  rw [toDouble_natCast]
  omega

/-- The number is compared as it is, or no unit is printed. -/
theorem toDouble_cases {n : Int} (h : n < 2 ^ 63) : toDouble n < KiB ∧ n < KiB ∨
    KiB ≤ toDouble n ∧ ∃ m : Nat, n = m ∧ 1024 ≤ m ∧ m < 2 ^ 63 := by
  rcases Int.lt_or_le n 0 with hneg | hnonneg
  · have := toDouble_neg hneg
    exact .inl (by unfold KiB; omega)
  · obtain ⟨m, rfl⟩ := Int.eq_ofNat_of_zero_le hnonneg
    by_cases hm : m < 1024
    · exact .inl ⟨toDouble_lt_KiB.2 hm, by unfold KiB; omega⟩
    · exact .inr ⟨Int.not_lt.1 (mt toDouble_lt_KiB.1 hm), m, rfl, by omega, by omega⟩

/-! ### What is printed -/

section
variable {vsnprintf : List XChar → List FormatArg → Except Int (List UInt8)}

/-- A text that fits is written with its NUL. -/
theorem sprintf_fits {fmt : List XChar} {args : List FormatArg} {text buf : List UInt8}
    (hfmt : Fmtconv.fmtconv fmt = some fmt) (htext : vsnprintf fmt args = .ok text) (hlt : text.length < buf.length)
    (hint : buf.length < 2 ^ 31) : sprintf vsnprintf (some buf) fmt args =
      some ((text.length : Int), some (text ++ 0 :: buf.drop (text.length + 1))) := by
  have hne : buf ≠ [] := List.length_pos_iff.1 (by omega)
  have hsize : Int.bmod buf.length (2 ^ 32) = buf.length := Int.bmod_eq_of_le (by omega) (by omega)
  unfold sprintf
  simp only [hfmt, htext, if_neg hne, hsize]
  rw [if_neg (by omega), List.take_of_length_le (by omega), Nat.min_eq_left (by omega)]

theorem decimal_length {i : Int} (hlow : -2 ^ 31 ≤ i) (hhigh : i < 2 ^ 31) : (decimal i).length < 32 := by
  have hdigits : (Nat.toDigits 10 i.natAbs).length ≤ 30 :=
    (Nat.length_toDigits_le_iff (by decide) (by decide)).2 (by omega)
  unfold decimal
  rw [List.length_append, List.length_map]
  split
  · rw [List.length_singleton]
    omega
  · rw [List.length_nil]
    omega

/-- A number below 1024 is printed as an `int`, any other with its unit behind it. -/
def FbytesPrinted (n : Int) (text : List UInt8) : Prop :=
  (toDouble n < KiB → text = decimal (Int.bmod n (2 ^ 32))) ∧ (KiB ≤ toDouble n → ∃ number, text = number ++ [(fbytesUnit n).1])

theorem strfbytes_run (hv : Prints vsnprintf) (nbytes : UInt64) (dec : Int) (e : ErrState) : ∃ text : List UInt8,
    FbytesPrinted (Int.bmod nbytes.toNat (2 ^ 64)) text ∧ text.length < 32 ∧ ∀ buf : List UInt8, text.length < buf.length → buf.length < 2 ^ 31 →
      strfbytes vsnprintf (some buf) nbytes dec e =
        some (((text.length : Int), some (text ++ 0 :: buf.drop (text.length + 1))), e) := by
  have hmax : Int.bmod nbytes.toNat (2 ^ 64) < 2 ^ 63 := Int.bmod_lt (by decide)
  unfold strfbytes
  generalize Int.bmod nbytes.toNat (2 ^ 64) = n at hmax ⊢
  rcases toDouble_cases hmax with ⟨hsmall, -⟩ | ⟨hlarge, m, rfl, hm, hm63⟩
  · simp only [if_pos hsmall]
    have hlow : -2 ^ 31 ≤ Int.bmod n (2 ^ 32) := Int.le_bmod (by decide)
    have hhigh : Int.bmod n (2 ^ 32) < 2 ^ 31 := Int.bmod_lt (by decide)
    refine ⟨decimal (Int.bmod n (2 ^ 32)), ⟨fun _ => rfl, fun hbig => by omega⟩, decimal_length hlow hhigh, fun buf hlt hint => ?_⟩
    rw [sprintf_fits fmtconv_int (hv.int _) hlt hint]
    simp only
    rw [if_neg (by omega), ErrM.pure_run]
  · simp only [if_neg (Int.not_lt.2 hlarge)]
    have hunit : 0 < (fbytesUnit m).2 ∧ toDouble m < 1024 * (fbytesUnit m).2 := by
      have hmax := toDouble_lt_max hm63
      unfold fbytesUnit KiB MiB GiB TiB PiB EiB
      grind
    have hdec : 0 ≤ min (if dec < 0 then 0 else dec) 15 := by
      split <;> omega
    obtain ⟨number, hlen, htext⟩ := hv.unit (min (if dec < 0 then 0 else dec) 15) (toDouble m) (fbytesUnit m).2 (fbytesUnit m).1
      hdec (by omega) hunit.1 (by unfold KiB at hlarge; omega) hunit.2
    refine ⟨number ++ [(fbytesUnit m).1], ⟨fun h => absurd h (Int.not_lt.2 hlarge), fun _ => ⟨number, rfl⟩⟩, ?_, fun buf hlt hint => ?_⟩
    · rw [List.length_append, List.length_singleton]
      omega
    · rw [sprintf_fits fmtconv_unit htext hlt hint]
      simp only
      rw [if_neg (by omega), ErrM.pure_run]

/-- So it is right just when that text is the one asked for. -/
theorem strfbytesMeets_iff (hv : Prints vsnprintf) {nbytes : UInt64}
    {P : Prop} (hP : ∀ text, FbytesPrinted (Int.bmod nbytes.toNat (2 ^ 64)) text → (FbytesText nbytes.toNat text ↔ P)) :
    StrfbytesMeets vsnprintf nbytes ↔ P := by
  constructor
  · intro h
    obtain ⟨text', hasked, hlen', hrun'⟩ := h 0 .zero
    obtain ⟨text, hshape, hlen, hrun⟩ := strfbytes_run hv nbytes 0 .zero
    have hroom : (List.replicate 64 (0 : UInt8)).length = 64 := List.length_replicate
    have heq := (hrun' (List.replicate 64 0) (by omega) (by omega)).symm.trans
      (hrun (List.replicate 64 0) (by omega) (by omega))
    simp only [Option.some.injEq, Prod.mk.injEq] at heq
    have htext := (List.append_inj heq.1.2 (by omega)).1
    exact (hP text hshape).1 (htext ▸ hasked)
  · intro h dec e
    obtain ⟨text, hshape, hlen, hrun⟩ := strfbytes_run hv nbytes dec e
    exact ⟨text, (hP text hshape).2 h, hlen, hrun⟩

end

/-! ### The unit -/

theorem log_unit {k n : Nat} (hlow : 1024 ^ k ≤ n) (hhigh : n < 1024 ^ (k + 1)) : Nat.log 1024 n = k :=
  Nat.log_eq_of_pow_le_of_lt_pow hlow hhigh

/-- The chain of thresholds finds the largest unit but for the fourth, which has another name, and close below the sixth. -/
theorem fbytesUnit_log {n : Nat} (hlow : 1024 ≤ n) (hhigh : n < 2 ^ 63) :
    (fbytesUnit n).1 = if 2 ^ 40 ≤ n ∧ n < 2 ^ 50 then ch 'Y' else
      if 2 ^ 60 ≤ n + 64 ∧ n < 2 ^ 60 then ch 'E' else unitNames.getD (Nat.log 1024 n - 1) 0 := by
  have hM : toDouble n < MiB ↔ n < 2 ^ 20 := toDouble_lt_iff (k := 20) (by decide)
  have hG : toDouble n < GiB ↔ n < 2 ^ 30 := toDouble_lt_iff (k := 30) (by decide)
  have hT : toDouble n < TiB ↔ n < 2 ^ 40 := toDouble_lt_iff (k := 40) (by decide)
  have hP : toDouble n < PiB ↔ n < 2 ^ 50 := toDouble_lt_iff (k := 50) (by decide)
  unfold fbytesUnit
  simp only [hM, hG, hT, hP, toDouble_lt_EiB]
  by_cases h₁ : n < 1024 ^ 2
  · rw [log_unit (k := 1) (by omega) h₁, if_pos (by omega), if_neg (by omega), if_neg (by omega)]
    rfl
  · by_cases h₂ : n < 1024 ^ 3
    · rw [log_unit (k := 2) (by omega) h₂, if_neg (by omega), if_pos (by omega), if_neg (by omega), if_neg (by omega)]
      rfl
    · by_cases h₃ : n < 1024 ^ 4
      · rw [log_unit (k := 3) (by omega) h₃, if_neg (by omega), if_neg (by omega), if_pos (by omega), if_neg (by omega),
          if_neg (by omega)]
        rfl
      · by_cases h₄ : n < 1024 ^ 5
        · rw [if_neg (by omega), if_neg (by omega), if_neg (by omega), if_pos (by omega), if_pos (by omega)]
        · rw [if_neg (by omega), if_neg (by omega), if_neg (by omega), if_neg (by omega),
            if_neg (show ¬ (2 ^ 40 ≤ n ∧ n < 2 ^ 50) by omega)]
          by_cases h₅ : n + 64 < 2 ^ 60
          · rw [log_unit (k := 5) (by omega) (by omega), if_pos h₅, if_neg (by omega)]
            rfl
          · rw [if_neg h₅]
            by_cases h₆ : n < 1024 ^ 6
            · rw [if_pos (by omega)]
            · rw [log_unit (k := 6) (by omega) (by omega), if_neg (by omega)]
              rfl

theorem pos_log {n : Nat} (h : 1024 ≤ n) : 0 < Nat.log 1024 n := Nat.log_pos (by decide) h

theorem log_lt {n : Nat} (h : n < 2 ^ 64) : Nat.log 1024 n < 7 := by
  by_cases hn : n = 0
  · rw [hn, Nat.log_zero_right]
    decide
  · exact Nat.log_lt_of_lt_pow hn (by omega)

/-- A number with its name is no decimal number. -/
theorem decimal_ne_unit (i : Int) (number : List UInt8) {c : UInt8} (hc : isdigit c = false) :
    decimal i ≠ number ++ [c] := by
  intro h
  have hne : digits i.natAbs ≠ [] := digits_ne_nil _
  obtain ⟨front, last, hlast⟩ := (List.eq_nil_or_concat (digits i.natAbs)).resolve_left hne
  have hdecimal : decimal i = ((if i < 0 then [ch '-'] else []) ++ front) ++ [last] := by
    rw [List.append_assoc, ← List.concat_eq_append, ← hlast]
    rfl
  rw [hdecimal] at h
  have heq := (List.append_inj' h rfl).2
  have hmem : last ∈ digits i.natAbs := by
    rw [hlast, List.concat_eq_append]
    exact List.mem_append_right _ List.mem_cons_self
  have hdigit := digits_isdigit _ last hmem
  rw [List.singleton_inj.1 heq, hc] at hdigit
  cases hdigit

theorem unitNames_spec : ∀ k < 7, 0 < k → isdigit (unitNames.getD (k - 1) 0) = false ∧
    unitNames.idxOf (unitNames.getD (k - 1) 0) + 1 = k := by decide

/-- The text is right outside the range that is called `Y`, the few that are called `E` and the half that is taken for
negative. -/
theorem printed_iff (nbytes : UInt64) (text : List UInt8) (h : FbytesPrinted (Int.bmod nbytes.toNat (2 ^ 64)) text) :
    FbytesText nbytes.toNat text ↔ nbytes.toNat < 2 ^ 40 ∨ 2 ^ 50 ≤ nbytes.toNat ∧ nbytes.toNat < 2 ^ 60 - 64 ∨
      2 ^ 60 ≤ nbytes.toNat ∧ nbytes.toNat < 2 ^ 63 := by
  have hlt : nbytes.toNat < 2 ^ 64 := nbytes.toNat_lt
  generalize nbytes.toNat = n at h hlt ⊢
  by_cases hneg : 2 ^ 63 ≤ n
  · have hbmod : Int.bmod n (2 ^ 64) < 0 := by
      rw [Int.bmod_def]
      split <;> omega
    have htext := h.1 (Int.lt_of_le_of_lt (toDouble_neg hbmod) (by decide))
    refine iff_of_false (fun hasked => ?_) (by omega)
    unfold FbytesText at hasked
    rw [if_neg (by omega)] at hasked
    obtain ⟨number, hnumber⟩ := hasked
    exact decimal_ne_unit _ number (unitNames_spec _ (log_lt hlt) (pos_log (by omega))).1 (htext.symm.trans hnumber)
  · have hbmod : Int.bmod n (2 ^ 64) = n := Int.bmod_eq_of_le (by omega) (by omega)
    rw [hbmod] at h
    unfold FbytesText
    by_cases hsmall : n < 1024
    · have htext := h.1 (toDouble_lt_KiB.2 hsmall)
      rw [if_pos hsmall]
      refine iff_of_true ?_ (.inl (by omega))
      rw [htext, Int.bmod_eq_of_le (by omega) (by omega)]
      unfold decimal digits
      rw [if_neg (by omega), List.nil_append, Int.natAbs_natCast]
    · obtain ⟨number, htext⟩ := h.2 (Int.not_lt.1 (mt toDouble_lt_KiB.1 hsmall))
      rw [if_neg hsmall]
      rw [fbytesUnit_log (by omega) (by omega)] at htext
      by_cases hT : 2 ^ 40 ≤ n ∧ n < 2 ^ 50
      · rw [if_pos hT] at htext
        refine iff_of_false ?_ (by omega)
        rintro ⟨number', htext'⟩
        have hlast := (List.append_inj' (htext.symm.trans htext') rfl).2
        rw [log_unit (k := 4) (by omega) (by omega)] at hlast
        exact absurd hlast (by decide)
      · rw [if_neg hT] at htext
        by_cases hE : 2 ^ 60 ≤ n + 64 ∧ n < 2 ^ 60
        · rw [if_pos hE] at htext
          refine iff_of_false ?_ (by omega)
          rintro ⟨number', htext'⟩
          have hlast := (List.append_inj' (htext.symm.trans htext') rfl).2
          rw [log_unit (k := 5) (by omega) (by omega)] at hlast
          exact absurd hlast (by decide)
        · rw [if_neg hE] at htext
          exact iff_of_true ⟨number, htext⟩ (by omega)

/-- The numbers whose unit is named right: below a tebibyte, and from a pebibyte to the largest `int64_t` without those that
a double takes for an exbibyte. -/
def UnitNamed (nbytes : UInt64) : Prop :=
  nbytes.toNat < 2 ^ 40 ∨ 2 ^ 50 ≤ nbytes.toNat ∧ nbytes.toNat < 2 ^ 60 - 64 ∨
    2 ^ 60 ≤ nbytes.toNat ∧ nbytes.toNat < 2 ^ 63

theorem unitRank_eq {nbytes : UInt64} (h : UnitNamed nbytes) : unitRank nbytes = Nat.log 1024 nbytes.toNat := by
  unfold UnitNamed at h
  unfold unitRank
  generalize nbytes.toNat = n at h ⊢
  have hbmod : Int.bmod n (2 ^ 64) = n := Int.bmod_eq_of_le (by omega) (by omega)
  rw [hbmod]
  by_cases hsmall : n < 1024
  · simp only [toDouble_lt_KiB, hsmall, if_true]
    exact (Nat.log_of_lt hsmall).symm
  · simp only [toDouble_lt_KiB, hsmall, if_false]
    rw [fbytesUnit_log (by omega) (by omega), if_neg (by omega), if_neg (by omega)]
    exact (unitNames_spec _ (log_lt (by omega)) (pos_log (by omega))).2

/-- The unit is right just for these, and among them a larger number never has a smaller one. -/
theorem strfbytes_meets_iff (vsnprintf : List XChar → List FormatArg → Except Int (List UInt8)) (hv : Prints vsnprintf)
    (n m : UInt64) : (StrfbytesMeets vsnprintf n ↔ UnitNamed n) ∧
      (UnitNamed n → UnitNamed m → n ≤ m → unitRank n ≤ unitRank m) := by
  refine ⟨strfbytesMeets_iff hv (printed_iff n), fun hn hm hle => ?_⟩
  rw [unitRank_eq hn, unitRank_eq hm]
  exact Nat.log_mono_right (UInt64.le_iff_toNat_le.1 hle)

/-- A quotient with `p` decimals. -/
def fixed (p num den : Nat) : List UInt8 :=
  let r := (num * 10 ^ p + den / 2) / den
  let frac := digits (r % 10 ^ p)
  digits (r / 10 ^ p) ++ if p = 0 then [] else ch '.' :: (List.replicate (p - frac.length) (ch '0') ++ frac)

/-- A `vsnprintf` of the two formats. -/
def vsnprintfFixed (fmt : List XChar) (args : List FormatArg) : Except Int (List UInt8) :=
  match args with
  | [.int i] => if fmt = fmtInt then .ok (decimal i) else .error eInval
  | [.int p, .double num den, .int c] =>
    if fmt = fmtUnit then .ok (fixed p.toNat num.toNat den.toNat ++ [UInt8.ofNat c.toNat]) else .error eInval
  | _ => .error eInval

theorem digits_length_le {n k : Nat} (hk : 0 < k) (h : n < 10 ^ k) : (digits n).length ≤ k := by
  unfold digits
  rw [List.length_map]
  exact (Nat.length_toDigits_le_iff (by decide) hk).2 h

theorem vsnprintfFixed_prints : Prints vsnprintfFixed where
  int _ := rfl
  unit p num den c hp hp15 hden hnum hlt := by
    obtain ⟨p, rfl⟩ := Int.eq_ofNat_of_zero_le hp
    obtain ⟨num, rfl⟩ := Int.eq_ofNat_of_zero_le hnum
    obtain ⟨den, rfl⟩ := Int.eq_ofNat_of_zero_le (Int.le_of_lt hden)
    have hpow : 0 < 10 ^ p := Nat.pow_pos (by decide)
    have hquot : (num * 10 ^ p + den / 2) / den ≤ 1024 * 10 ^ p := by
      have hnum' : num + 1 ≤ 1024 * den := by omega
      have hmul := Nat.mul_le_mul_right (10 ^ p) hnum'
      have hassoc : 1024 * den * 10 ^ p = 1024 * 10 ^ p * den := Nat.mul_right_comm 1024 den (10 ^ p)
      refine Nat.le_of_lt_succ ((Nat.div_lt_iff_lt_mul (by omega)).2 ?_)
      rw [Nat.succ_mul, ← hassoc]
      rw [Nat.add_mul, Nat.one_mul] at hmul
      omega
    have hwhole : (digits ((num * 10 ^ p + den / 2) / den / 10 ^ p)).length ≤ 4 := by
      refine digits_length_le (by decide) ?_
      have hle := Nat.div_le_div_right (c := 10 ^ p) hquot
      rw [Nat.mul_div_cancel _ hpow] at hle
      omega
    refine ⟨fixed p num den, ?_, ?_⟩
    · unfold fixed
      simp only [List.length_append]
      split
      · rw [List.length_nil]
        omega
      · rename_i hp0
        have hfrac := digits_length_le (by omega : 0 < p) (Nat.mod_lt ((num * 10 ^ p + den / 2) / den) hpow)
        rw [List.length_cons, List.length_append, List.length_replicate]
        omega
    · unfold vsnprintfFixed
      simp only [if_true, Int.toNat_natCast, UInt8.ofNat_toNat]

theorem strfbytes_meets_iff_kibi : StrfbytesMeets vsnprintfFixed 2048 ∧ unitRank 2048 ≤ unitRank 3145728 := by
  have h := strfbytes_meets_iff vsnprintfFixed vsnprintfFixed_prints 2048 3145728
  exact ⟨h.1.2 (.inl (by decide)), h.2 (.inl (by decide)) (.inl (by decide)) (by decide)⟩

/-- A tebibyte is called `Y`. -/
theorem strfbytes_tebibyte : Prints vsnprintfFixed ∧ ¬ StrfbytesMeets vsnprintfFixed 1099511627776 := by
  refine ⟨vsnprintfFixed_prints, fun h => ?_⟩
  have hnamed := (strfbytesMeets_iff vsnprintfFixed_prints (printed_iff 1099511627776)).1 h
  revert hnamed
  decide

end Pcl

import Pcl.Lib.Endian
import Pcl.Str.Decode

/-!
# Unsigned conversions

`pcl_strtoull` and `pcl_strtoui` of `src/strint` beside `pcl_strtoul`, against the numerals of a base: a sign, the prefix
of base 16 and digits, behind any blanks. The C library takes a negative numeral modulo 2 ^ 64 and reports only a
magnitude that is too large. `strtoui.c` does not include `limits.h` either, so `pcl_strtoui` is built as a call of
`pcl_strtoul` that takes the address of an `unsigned int` for that of an `unsigned long`.
-/

namespace Pcl

/-- `pcl_strtoull`; `unsigned long long` has 64 bits too, so the C library's `strtoull` is its `strtoul`. -/
def pclStrtoull (nptr : Option CStr) (base : Int) : ErrM PclStrtoulResult :=
  match nptr with
  | none => do
    let r ← badArg (loc "strtoull.c" "pcl_strtoull" 47)
    return ⟨r, none, none⟩
  | some nptr =>
    if nptr.bytes = [] then do
      let r ← badArg (loc "strtoull.c" "pcl_strtoull" 47)
      return ⟨r, none, none⟩
    else
      let res := xstrtoul nptr.bytes base
      if res.errno = osErange then do
        let r ← errVset (loc "strtoull.c" "pcl_strtoull" 57) eRange osErange none
        return ⟨r, some res.endp, none⟩
      else if res.errno ≠ 0 ∧ res.n = 0 then do
        let r ← errVset (loc "strtoull.c" "pcl_strtoull" 60) eInval res.errno none
        return ⟨r, some res.endp, none⟩
      else if res.endp = some nptr.bytes then do
        let r ← setErrMsg (loc "strtoull.c" "pcl_strtoull" 63) eInval "no digits founds"
        return ⟨r, some res.endp, none⟩
      else return ⟨0, some res.endp, some res.n⟩

/-- The result of `pcl_strtoui`, what it stores in `endptr` if anything, and the memory from `result` on. -/
structure PclStrtouiResult where
  ret : Int
  endptr : Option (Option (List UInt8))
  result : Option (List UInt8)

/-- `pcl_strtoui`, where the `unsigned int` at `result` and what lies behind it are given as bytes. -/
def pclStrtoui (s : Option CStr) (base : Int) (result : Option (List UInt8)) : ErrM PclStrtouiResult := do
  let res ← pclStrtoul s base
  match result, res.result with
  | some mem, some n =>
    -- an `unsigned long` is stored
    if mem.length < 8 then ErrM.undef else return ⟨res.ret, res.endptr, some (leBytes 8 n.toNat ++ mem.drop 8)⟩
  | result, _ => return ⟨res.ret, res.endptr, result⟩

/-! ### Numerals -/

/-- The sign of a numeral, and whether it is a minus. -/
inductive SignText : List UInt8 → Bool → Prop
  | none : SignText [] false
  | plus : SignText [ch '+'] false
  | minus : SignText [ch '-'] true

/-- The prefix and the digits of a numeral in a base, and the base the digits are in. -/
inductive DigitBase (base : Int) : List UInt8 → List UInt8 → Nat → Prop
  | plain {b : Nat} {digits : List UInt8} : 2 ≤ b → b ≤ 36 → base = b → DigitBase base [] digits b
  | hex {x : UInt8} {digits : List UInt8} : x = ch 'x' ∨ x = ch 'X' → base = 16 ∨ base = 0 →
    DigitBase base [ch '0', x] digits 16
  | octal {digits : List UInt8} : base = 0 → DigitBase base [] (ch '0' :: digits) 8
  | decimal {d : UInt8} {digits : List UInt8} : base = 0 → d ≠ ch '0' → DigitBase base [] (d :: digits) 10

/-- The string denotes the integer `v` in the base. -/
def Denotes (base : Int) (s : List UInt8) (v : Int) : Prop :=
  ∃ blanks sign pre digits neg b, s = blanks ++ (sign ++ (pre ++ digits)) ∧ (∀ c ∈ blanks, isspace c = true) ∧
    SignText sign neg ∧ DigitBase base pre digits b ∧ digits ≠ [] ∧ (∀ c ∈ digits, digitVal c < b) ∧
    v = if neg then -(numeral b digits : Int) else numeral b digits

/-- A range error. -/
structure RangeError (ret : Int) (e e' : ErrState) : Prop where
  ret_eq : ret = if e.frozen then 0 else -1
  err_eq : e.frozen = false → e'.err = eRange
  kept : e.frozen = true → e' = e

/-- The number is stored when it is in range; otherwise there is a range error and nothing is stored. -/
def ConvertsUnsigned {α : Type} (max : Nat) (v ret : Int) (result kept stored : α) (e e' : ErrState) : Prop :=
  (0 ≤ v ∧ v ≤ max → ret = 0 ∧ result = stored ∧ e' = e) ∧ (v < 0 ∨ max < v → RangeError ret e e' ∧ result = kept)

def StrtoulMeets (s : CStr) (base v : Int) (e : ErrState) : Prop :=
  ∃ res e', pclStrtoul (some s) base e = some (res, e') ∧
    ConvertsUnsigned (2 ^ 64 - 1) v res.ret (res.result.map UInt64.toNat) none (some v.toNat) e e'

def StrtoullMeets (s : CStr) (base v : Int) (e : ErrState) : Prop :=
  ∃ res e', pclStrtoull (some s) base e = some (res, e') ∧
    ConvertsUnsigned (2 ^ 64 - 1) v res.ret (res.result.map UInt64.toNat) none (some v.toNat) e e'

/-- The four bytes of an `unsigned int` get the number, whatever they held, and the memory `behind` them stays. -/
def StrtouiMeets (s : CStr) (base v : Int) (behind : List UInt8) (e : ErrState) : Prop :=
  ∀ old : List UInt8, old.length = 4 → ∃ res e', pclStrtoui (some s) base (some (old ++ behind)) e = some (res, e') ∧
    ConvertsUnsigned (2 ^ 32 - 1) v res.ret res.result (some (old ++ behind)) (some (leBytes 4 v.toNat ++ behind)) e e'

/-! ### Scanning a numeral -/

theorem digit_starts (c : UInt8) : digitVal c < 36 → isspace c = false ∧ c ≠ ch '-' ∧ c ≠ ch '+' := by
  revert c
  exact byte_all (by decide +kernel)

theorem digitVal_x : ¬ digitVal (ch 'x') < 16 ∧ ¬ digitVal (ch 'X') < 16 := by decide

section
variable {base : Int} {sign pre digits : List UInt8} {neg : Bool} {b : Nat}

theorem DigitBase.starts (h : DigitBase base pre digits b) (hne : digits ≠ []) (hdigits : ∀ c ∈ digits, digitVal c < b) :
    ∃ c rest, pre ++ digits = c :: rest ∧ digitVal c < 36 := by
  cases h with
  | plain h2 h36 =>
    obtain ⟨c, rest, rfl⟩ := List.exists_cons_of_ne_nil hne
    exact ⟨c, rest, rfl, Nat.lt_of_lt_of_le (hdigits c List.mem_cons_self) h36⟩
  | hex => exact ⟨_, _, rfl, by decide⟩
  | octal => exact ⟨_, _, rfl, by decide⟩
  | decimal => exact ⟨_, _, rfl, Nat.lt_trans (hdigits _ List.mem_cons_self) (by decide)⟩

theorem scanSign_text (h : SignText sign neg) {body : List UInt8} (hbody : ∃ c rest, body = c :: rest ∧ digitVal c < 36) :
    scanSign (sign ++ body) = (neg, body) ∧ ∀ c ∈ (sign ++ body).head?, isspace c = false := by
  obtain ⟨c, rest, rfl, hc⟩ := hbody
  obtain ⟨hspace, hminus, hplus⟩ := digit_starts c hc
  cases h with
  | none =>
    refine ⟨?_, fun d hd => ?_⟩
    · rw [List.nil_append, scanSign, if_neg hminus, if_neg hplus]
    · cases hd
      exact hspace
  | plus =>
    refine ⟨rfl, fun d hd => ?_⟩
    cases hd
    decide
  | minus =>
    refine ⟨rfl, fun d hd => ?_⟩
    cases hd
    decide

theorem dropWhile_blanks {blanks rest : List UInt8} (h : ∀ c ∈ blanks, isspace c = true)
    (hrest : ∀ c ∈ rest.head?, isspace c = false) : (blanks ++ rest).dropWhile isspace = rest := by
  rw [List.dropWhile_append_of_pos h]
  cases rest with
  | nil => rfl
  | cons c rest => rw [List.dropWhile_cons_of_neg (by rw [hrest c rfl]; exact Bool.false_ne_true)]

/-- The prefix is skipped, and a digit is not taken for one. -/
theorem skipPrefix_digits (h : DigitBase base pre digits b) (hne : digits ≠ []) (hdigits : ∀ c ∈ digits, digitVal c < b) :
    skipPrefix b (pre ++ digits) = digits := by
  have hplain : ∀ {l : List UInt8}, (∀ c ∈ l, digitVal c < b) → skipPrefix b l = l := by
    intro l hl
    unfold skipPrefix
    split
    case h_1 z x d s =>
      rw [if_neg]
      rintro ⟨rfl, -, hx | hx, -⟩
      · exact digitVal_x.1 (hx ▸ hl x (List.mem_cons_of_mem _ List.mem_cons_self))
      · exact digitVal_x.2 (hx ▸ hl x (List.mem_cons_of_mem _ List.mem_cons_self))
    case h_2 => rfl
  cases h with
  | plain => exact hplain hdigits
  | octal => exact hplain hdigits
  | decimal => exact hplain hdigits
  | hex hx hbase =>
    obtain ⟨d, rest, rfl⟩ := List.exists_cons_of_ne_nil hne
    exact if_pos ⟨rfl, rfl, hx, hdigits d List.mem_cons_self⟩

/-- Base 0 finds the base of the digits. -/
theorem autoBase_digits {s : List UInt8} (hs : (scanSign (s.dropWhile isspace)).2 = pre ++ digits)
    (h : DigitBase 0 pre digits b) (hne : digits ≠ []) (hdigits : ∀ c ∈ digits, digitVal c < b) : autoBase s = b := by
  unfold autoBase
  rw [hs]
  cases h with
  | plain h2 h36 h0 => omega
  | hex hx hbase =>
    obtain ⟨d, rest, rfl⟩ := List.exists_cons_of_ne_nil hne
    simp only [List.cons_append, List.nil_append, ne_eq, not_true_eq_false, if_false]
    rw [if_pos ⟨hx, hdigits d List.mem_cons_self⟩]
  | octal =>
    simp only [List.nil_append, ne_eq, not_true_eq_false, if_false]
    split
    · rename_i x d rest
      have hx8 := hdigits x (List.mem_cons_of_mem _ List.mem_cons_self)
      rw [if_neg]
      rintro ⟨rfl | rfl, -⟩
      · exact absurd hx8 (by decide)
      · exact absurd hx8 (by decide)
    · rfl
  | decimal h0 hd =>
    simp only [List.nil_append]
    rw [if_pos hd]

theorem DigitBase.base_ok (h : DigitBase base pre digits b) : ¬ (base < 0 ∨ base = 1 ∨ base > 36) ∧ (base ≠ 0 → base.toNat = b) := by
  cases h with
  | plain h2 h36 hb => exact ⟨by omega, fun _ => by omega⟩
  | hex hx hb => exact ⟨by omega, fun h0 => by omega⟩
  | octal hb => exact ⟨by omega, fun h0 => absurd hb h0⟩
  | decimal hb => exact ⟨by omega, fun h0 => absurd hb h0⟩

end

/-- The scanner reads the number of a numeral and stops at its end. -/
theorem Denotes.scan {base v : Int} {s : List UInt8} (h : Denotes base s v) : ¬ (base < 0 ∨ base = 1 ∨ base > 36) ∧ s ≠ [] ∧
    scanNumeral (if base = 0 then autoBase s else base.toNat) s = some (v, []) := by
  obtain ⟨blanks, sign, pre, digits, neg, b, rfl, hblanks, hsign, hbase, hne, hdigits, rfl⟩ := h
  have hbody := hbase.starts hne hdigits
  obtain ⟨hscan, hhead⟩ := scanSign_text hsign hbody
  have hblank := dropWhile_blanks hblanks hhead
  have hb : (if base = 0 then autoBase (blanks ++ (sign ++ (pre ++ digits))) else base.toNat) = b := by
    split
    · rename_i h0
      exact autoBase_digits (by rw [hblank, hscan]) (h0 ▸ hbase) hne hdigits
    · rename_i h0
      exact hbase.base_ok.2 h0
  have htake : digits.takeWhile (fun c => decide (digitVal c < b)) = digits :=
    List.takeWhile_eq_self_iff.2 fun c hc => decide_eq_true (hdigits c hc)
  have hdrop : digits.dropWhile (fun c => decide (digitVal c < b)) = [] :=
    List.dropWhile_eq_nil_iff.2 fun c hc => decide_eq_true (hdigits c hc)
  refine ⟨hbase.base_ok.1, ?_, ?_⟩
  · obtain ⟨c, rest, hcons, -⟩ := hbody
    rw [hcons]
    simp
  · rw [hb]
    unfold scanNumeral
    simp only [hblank, hscan, skipPrefix_digits hbase hne hdigits, htake, hdrop]
    rw [if_neg (by rw [List.isEmpty_iff]; exact hne)]

/-- So `strtoul` gives the number modulo 2 ^ 64, or a range error for its magnitude. -/
theorem Denotes.xstrtoul {base v : Int} {s : List UInt8} (h : Denotes base s v) : xstrtoul s base =
    if v.natAbs > ulongMax then ⟨UInt64.ofNat ulongMax, some [], osErange⟩ else ⟨UInt64.ofInt v, some [], 0⟩ := by
  obtain ⟨hbase, -, hscan⟩ := h.scan
  unfold Pcl.xstrtoul
  rw [if_neg hbase, hscan]

section
variable {base v : Int} {s : CStr} (h : Denotes base s.bytes v) (e : ErrState)
include h

theorem pclStrtoul_numeral : pclStrtoul (some s) base e =
    if v.natAbs > ulongMax then
      some (⟨if e.frozen then 0 else -1, some (some []), none⟩, e.raised (loc "strtoul.c" "pcl_strtoul" 57) eRange osErange none)
    else some (⟨0, some (some []), some (UInt64.ofInt v)⟩, e) := by
  have hne := h.scan.2.1
  unfold pclStrtoul
  simp only [if_neg hne, h.xstrtoul]
  split
  · simp only [if_true, ErrM.bind_run, errVset_run _ _ _ _ _ (show eRange ≠ eOkay by decide), Option.bind_some, ErrM.pure_run]
  · have hok : ¬ (0 : UInt32) = osErange := by decide
    simp only
    rw [if_neg hok, if_neg (by simp), if_neg fun heq => hne (Option.some.inj heq).symm, ErrM.pure_run]

theorem pclStrtoull_numeral : pclStrtoull (some s) base e =
    if v.natAbs > ulongMax then
      some (⟨if e.frozen then 0 else -1, some (some []), none⟩, e.raised (loc "strtoull.c" "pcl_strtoull" 57) eRange osErange none)
    else some (⟨0, some (some []), some (UInt64.ofInt v)⟩, e) := by
  have hne := h.scan.2.1
  unfold pclStrtoull
  simp only [if_neg hne, h.xstrtoul]
  split
  · simp only [if_true, ErrM.bind_run, errVset_run _ _ _ _ _ (show eRange ≠ eOkay by decide), Option.bind_some, ErrM.pure_run]
  · have hok : ¬ (0 : UInt32) = osErange := by decide
    simp only
    rw [if_neg hok, if_neg (by simp), if_neg fun heq => hne (Option.some.inj heq).symm, ErrM.pure_run]

end

/-- An error that is set is a range error. -/
theorem RangeError.raised (e : ErrState) (l : Loc) (oserr : UInt32) (msg : Option CStr) :
    RangeError (if e.frozen then 0 else -1) e (e.raised l eRange oserr msg) where
  ret_eq := rfl
  err_eq hf := raised_err e l eRange oserr msg hf
  kept hf := if_pos hf

theorem ofInt_toNat (v : Int) : ((UInt64.ofInt v).toNat : Int) = v % 2 ^ 64 := by
  unfold UInt64.ofInt
  rw [UInt64.toNat_ofNat']
  omega

/-- Where something is stored, the number is in range. -/
theorem ConvertsUnsigned.in_range {α : Type} {max : Nat} {v ret : Int} {result kept stored : α} {e e' : ErrState}
    (h : ConvertsUnsigned max v ret result kept stored e e') (hne : result ≠ kept) : 0 ≤ v ∧ v ≤ max := by
  by_contra hout
  exact hne (h.2 (by omega)).2

/-- What both conversions of 64 bits do is right just for the numbers that are not negative, and those too far below. -/
theorem convertsUnsigned_iff {v : Int} {e : ErrState} {l : Loc} {run : Option (PclStrtoulResult × ErrState)}
    (hrun : run = if v.natAbs > ulongMax then
        some (⟨if e.frozen then 0 else -1, some (some []), none⟩, e.raised l eRange osErange none)
      else some (⟨0, some (some []), some (UInt64.ofInt v)⟩, e)) :
    (∃ res e', run = some (res, e') ∧
        ConvertsUnsigned (2 ^ 64 - 1) v res.ret (res.result.map UInt64.toNat) none (some v.toNat) e e') ↔
      0 ≤ v ∨ v ≤ -2 ^ 64 := by
  unfold ulongMax at hrun
  by_cases hbig : v.natAbs > 2 ^ 64 - 1
  · rw [if_pos hbig] at hrun
    exact iff_of_true ⟨_, _, hrun, fun hv => by omega, fun _ => ⟨.raised e l osErange none, rfl⟩⟩ (by omega)
  · rw [if_neg hbig] at hrun
    have hmod := ofInt_toNat v
    by_cases hv : 0 ≤ v
    · refine iff_of_true ⟨_, _, hrun, fun _ => ⟨rfl, ?_, rfl⟩, fun hbad => by omega⟩ (.inl hv)
      exact congrArg some (by omega)
    · refine iff_of_false ?_ (by omega)
      rintro ⟨res, e', hres, hok⟩
      cases hrun.symm.trans hres
      exact hv (hok.in_range (Option.some_ne_none _)).1

/-- The lower half of eight bytes is the number, the upper half is zero just when it fits there. -/
theorem leBytes_halves {n : Nat} (hn : n < 2 ^ 64) : ∃ upper, upper.length = 4 ∧ leBytes 8 n = leBytes 4 n ++ upper ∧
    (upper = [0, 0, 0, 0] ↔ n < 2 ^ 32) := by
  refine ⟨leBytes 4 (n / 2 ^ 32), leBytes_length _ _, ?_, ?_⟩
  · simp only [leBytes, Nat.div_div_eq_div_mul, List.cons_append, List.nil_append, Nat.reduceMul, Nat.reducePow]
  · rw [show [0, 0, 0, 0] = leBytes 4 0 from rfl]
    constructor
    · intro h
      have heq := congrArg ofLe h
      rw [ofLe_leBytes (by omega), ofLe_leBytes (by decide)] at heq
      omega
    · intro h
      rw [Nat.div_eq_of_lt h]

section
variable {base v : Int} {s : CStr} (h : Denotes base s.bytes v) (e : ErrState)
include h

theorem strtoulMeets_iff : StrtoulMeets s base v e ↔ 0 ≤ v ∨ v ≤ -2 ^ 64 :=
  convertsUnsigned_iff (pclStrtoul_numeral h e)

theorem strtoullMeets_iff : StrtoullMeets s base v e ↔ 0 ≤ v ∨ v ≤ -2 ^ 64 :=
  convertsUnsigned_iff (pclStrtoull_numeral h e)

/-- A number of 64 bits is stored over the object and the four bytes behind it. -/
theorem pclStrtoui_numeral (hbig : ¬ v.natAbs > ulongMax) (mem : List UInt8) : pclStrtoui (some s) base (some mem) e =
    if mem.length < 8 then none
    else some (⟨0, some (some []), some (leBytes 8 (UInt64.ofInt v).toNat ++ mem.drop 8)⟩, e) := by
  unfold pclStrtoui
  rw [ErrM.bind_run, pclStrtoul_numeral h, if_neg hbig, Option.bind_some]
  dsimp only
  split
  · rfl
  · rfl

/-- The narrower conversion is right for the numbers that fit, where four zero bytes lie behind the object, and for those
whose magnitude is too large for 64 bits. -/
theorem strtouiMeets_iff (behind : List UInt8) : StrtouiMeets s base v behind e ↔
    v.natAbs > ulongMax ∨ 0 ≤ v ∧ v < 2 ^ 32 ∧ [0, 0, 0, 0] <+: behind := by
  by_cases hbig : v.natAbs > ulongMax
  · refine iff_of_true (fun old _ => ?_) (.inl hbig)
    unfold pclStrtoui
    rw [ErrM.bind_run, pclStrtoul_numeral h, if_pos hbig, Option.bind_some]
    unfold ulongMax at hbig
    exact ⟨_, _, rfl, fun hv => by omega, fun _ => ⟨.raised e _ osErange none, rfl⟩⟩
  · have hmod := ofInt_toNat v
    have hrun (old : List UInt8) := pclStrtoui_numeral h e hbig (old ++ behind)
    obtain ⟨upper, hupper, hbytes, hzero⟩ := leBytes_halves (UInt64.ofInt v).toNat_lt
    constructor
    · intro hm
      -- an object whose bytes differ from those that are stored
      obtain ⟨old, hold, hne⟩ : ∃ old : List UInt8, old.length = 4 ∧ old ≠ leBytes 4 (UInt64.ofInt v).toNat := by
        by_cases h0 : leBytes 4 (UInt64.ofInt v).toNat = [0, 0, 0, 0]
        · exact ⟨[1, 0, 0, 0], rfl, by rw [h0]; decide⟩
        · exact ⟨[0, 0, 0, 0], rfl, fun heq => h0 heq.symm⟩
      obtain ⟨res, e', hres, hok⟩ := hm old hold
      rw [hrun] at hres
      by_cases hroom : (old ++ behind).length < 8
      · rw [if_pos hroom] at hres
        cases hres
      · rw [if_neg hroom] at hres
        cases hres
        rw [List.length_append] at hroom
        have hdrop : (old ++ behind).drop 8 = behind.drop 4 := by
          rw [List.drop_append, List.drop_of_length_le (by omega), hold, List.nil_append]
        have hin := hok.in_range fun heq => by
          rw [Option.some.injEq, hbytes, List.append_assoc] at heq
          exact hne (List.append_inj heq (by rw [leBytes_length, hold])).1.symm
        obtain ⟨-, hstored, -⟩ := hok.1 hin
        rw [Option.some.injEq, hbytes, hdrop, List.append_assoc] at hstored
        have hbehind := (List.append_inj hstored (by rw [leBytes_length, leBytes_length])).2
        refine .inr ⟨hin.1, by omega, ?_⟩
        rw [← hzero.2 (by omega), ← hbehind]
        exact List.prefix_append _ _
    · rintro (hbad | ⟨hpos, hlt, rest, rfl⟩)
      · exact absurd hbad hbig
      · intro old hold
        refine ⟨_, e, (hrun old).trans (if_neg ?_), fun _ => ⟨rfl, ?_, rfl⟩, fun hbad => by omega⟩
        · simp only [List.length_append, hold, List.length_cons]
          omega
        · rw [hbytes, hzero.2 (by omega), show (UInt64.ofInt v).toNat = v.toNat by omega, List.drop_append,
            List.drop_of_length_le (by omega), hold, List.append_assoc]
          rfl

end

/-- Negative numerals are stored modulo 2 ^ 64, unless their magnitude is too large for that; an `unsigned int` gets all
of that number. -/
theorem unsigned_meet_iff (base v : Int) (s : CStr) (h : Denotes base s.bytes v) (behind : List UInt8) (e : ErrState) :
    (StrtoulMeets s base v e ↔ 0 ≤ v ∨ v ≤ -2 ^ 64) ∧ (StrtoullMeets s base v e ↔ 0 ≤ v ∨ v ≤ -2 ^ 64) ∧
      (StrtouiMeets s base v behind e ↔ v.natAbs > ulongMax ∨ 0 ≤ v ∧ v < 2 ^ 32 ∧ [0, 0, 0, 0] <+: behind) :=
  ⟨strtoulMeets_iff h e, strtoullMeets_iff h e, strtouiMeets_iff h e behind⟩

theorem denotes_seven : Denotes 0 (CStr.lit " 0x7").bytes 7 :=
  ⟨[ch ' '], [], txt "0x", [ch '7'], false, 16, by decide, List.forall_mem_singleton.2 (by decide), .none,
    .hex (.inl rfl) (.inr rfl), by decide, List.forall_mem_singleton.2 (by decide), by decide⟩

theorem unsigned_meet_iff_seven : StrtoulMeets (.lit " 0x7") 0 7 .zero ∧ StrtoullMeets (.lit " 0x7") 0 7 .zero ∧
    StrtouiMeets (.lit " 0x7") 0 7 [0, 0, 0, 0, 1] .zero := by
  have hall := unsigned_meet_iff 0 7 (.lit " 0x7") denotes_seven [0, 0, 0, 0, 1] .zero
  have hpos : (0 : Int) ≤ 7 := by decide
  exact ⟨hall.1.2 (.inl hpos), hall.2.1.2 (.inl hpos), hall.2.2.2 (.inr ⟨hpos, by decide, [1], rfl⟩)⟩

theorem denotes_two_pow : Denotes 10 (CStr.lit "4294967296").bytes 4294967296 :=
  ⟨[], [], [], txt "4294967296", false, 10, by decide, List.forall_mem_nil _, .none, .plain (by decide) (by decide) rfl,
    by decide +kernel, by decide +kernel, by decide +kernel⟩

theorem denotes_minus_one : Denotes 10 (CStr.lit "-1").bytes (-1) :=
  ⟨[], [ch '-'], [], [ch '1'], true, 10, by decide, List.forall_mem_nil _, .minus, .plain (by decide) (by decide) rfl,
    by decide, List.forall_mem_singleton.2 (by decide), by decide⟩

/-- Minus one is stored as the largest number, and an `unsigned int` is not checked for its range. -/
theorem strtoul_minus_one : (Denotes 10 (CStr.lit "-1").bytes (-1) ∧ ¬ StrtoulMeets (.lit "-1") 10 (-1) .zero) ∧
    Denotes 10 (CStr.lit "4294967296").bytes 4294967296 ∧
      ∀ behind, ¬ StrtouiMeets (.lit "4294967296") 10 4294967296 behind .zero := by
  refine ⟨⟨denotes_minus_one, fun h => ?_⟩, denotes_two_pow, fun behind h => ?_⟩
  · have hv := (strtoulMeets_iff denotes_minus_one .zero).1 h
    omega
  · rcases (strtouiMeets_iff denotes_two_pow .zero behind).1 h with hv | ⟨-, hv, -⟩
    · revert hv
      decide
    · omega

end Pcl

import Pcl.Str.Strtol

/-!
# Unsigned numerals and hexadecimal strings

`pcl_strtoul` of `src/strint/strtoul.c`, with the C library's `strtoul` for every base (`unsigned long` has 64 bits),
and `pcl_hex_decode` of `src/string/hex_decode.c`. A `NULL` pointer is `none`.
-/

namespace Pcl

def eInvalOs : UInt32 := 22

/-! ### Unsigned numerals -/

/-- The base of a numeral that is read in base 0. -/
def autoBase (s : List UInt8) : Nat :=
  match (scanSign (s.dropWhile isspace)).2 with
  | z :: rest =>
    if z ≠ ch '0' then 10
    else
      match rest with
      | x :: d :: _ => if (x = ch 'x' ∨ x = ch 'X') ∧ digitVal d < 16 then 16 else 8
      | _ => 8
  | [] => 10

def ulongMax : Nat := 2 ^ 64 - 1

/-- What `strtoul` gives: the number, what it stores in `endptr` if anything, and `errno`. -/
structure StrtoulResult where
  n : UInt64
  endp : Option (List UInt8)
  errno : UInt32

/-- The C library's `strtoul`. -/
def xstrtoul (nptr : List UInt8) (base : Int) : StrtoulResult :=
  if base < 0 ∨ base = 1 ∨ base > 36 then ⟨0, none, eInvalOs⟩
  else
    match scanNumeral (if base = 0 then autoBase nptr else base.toNat) nptr with
    | none => ⟨0, some nptr, 0⟩
    | some (n, rest) =>
      if n.natAbs > ulongMax then ⟨UInt64.ofNat ulongMax, some rest, osErange⟩ else ⟨UInt64.ofInt n, some rest, 0⟩

/-- The result of `pcl_strtoul`, and what it stores in `endptr` and `result` if anything. -/
structure PclStrtoulResult where
  ret : Int
  endptr : Option (Option (List UInt8))
  result : Option UInt64

/-- `pcl_strtoul`. -/
def pclStrtoul (nptr : Option CStr) (base : Int) : ErrM PclStrtoulResult :=
  match nptr with
  | none => do
    let r ← setErrMsg (loc "strtoul.c" "pcl_strtoul" 47) eInval "empty input string"
    return ⟨r, none, none⟩
  | some nptr =>
    if nptr.bytes = [] then do
      let r ← setErrMsg (loc "strtoul.c" "pcl_strtoul" 47) eInval "empty input string"
      return ⟨r, none, none⟩
    else
      let res := xstrtoul nptr.bytes base
      if res.errno = osErange then do
        let r ← errVset (loc "strtoul.c" "pcl_strtoul" 57) eRange osErange none
        return ⟨r, some res.endp, none⟩
      -- the only other error is that of the base, which `pcl_err_os2pcl` maps to PCL_EINVAL
      else if res.errno ≠ 0 ∧ res.n = 0 then do
        let r ← errVset (loc "strtoul.c" "pcl_strtoul" 60) eInval res.errno none
        return ⟨r, some res.endp, none⟩
      else if res.endp = some nptr.bytes then do
        let r ← setErrMsg (loc "strtoul.c" "pcl_strtoul" 63) eInval "no digits founds"
        return ⟨r, some res.endp, none⟩
      else return ⟨0, some res.endp, some res.n⟩

/-- The text is no numeral of the base, or the number is too large. -/
def NotUlong (nptr : Option CStr) (base : Int) : Prop :=
  ∀ s ∈ nptr, base < 0 ∨ base = 1 ∨ base > 36 ∨
    ∀ p ∈ scanNumeral (if base = 0 then autoBase s.bytes else base.toNat) s.bytes, p.1.natAbs > ulongMax

theorem scanSign_length_le (s : List UInt8) : (scanSign s).2.length ≤ s.length := by
  unfold scanSign
  split
  · split
    · exact Nat.le_succ _
    · split
      · exact Nat.le_succ _
      · exact Nat.le_refl _
  · exact Nat.le_refl _

theorem skipPrefix_length_le (base : Nat) (s : List UInt8) : (skipPrefix base s).length ≤ s.length := by
  unfold skipPrefix
  split
  · split
    · exact Nat.le_trans (Nat.le_succ _) (Nat.le_succ _)
    · exact Nat.le_refl _
  · exact Nat.le_refl _

theorem scanNumeral_length {base : Nat} {s : List UInt8} {p : Int × List UInt8} (h : scanNumeral base s = some p) :
    p.2.length < s.length := by
  unfold scanNumeral at h
  simp only at h
  split at h
  · cases h
  · rename_i hdigits
    cases h
    have hdrop : (s.dropWhile isspace).length ≤ s.length := (List.dropWhile_sublist _).length_le
    have hsign := scanSign_length_le (s.dropWhile isspace)
    have hskip := skipPrefix_length_le base (scanSign (s.dropWhile isspace)).2
    have hsum := congrArg List.length (List.takeWhile_append_dropWhile
      (p := fun b => decide (digitVal b < base)) (l := skipPrefix base (scanSign (s.dropWhile isspace)).2))
    have hpos := List.length_pos_iff.2 (List.isEmpty_eq_false_iff.1 (Bool.eq_false_iff.2 hdigits))
    rw [List.length_append] at hsum
    simp only at hpos hsum ⊢
    omega

/-- In a valid base and within range, `strtoul` gives the number and stops behind it. -/
theorem xstrtoul_ok {nptr : CStr} {base : Int} (h : ¬ NotUlong (some nptr) base) :
    ∃ n rest, xstrtoul nptr.bytes base = ⟨n, some rest, 0⟩ ∧ rest.length < nptr.bytes.length := by
  have hs : ¬ (base < 0 ∨ base = 1 ∨ base > 36 ∨
      ∀ p ∈ scanNumeral (if base = 0 then autoBase nptr.bytes else base.toNat) nptr.bytes, p.1.natAbs > ulongMax) := by
    intro hbad
    refine h fun s hs => ?_
    cases hs
    exact hbad
  have hbase : ¬ (base < 0 ∨ base = 1 ∨ base > 36) := by
    rintro (h | h | h)
    · exact hs (.inl h)
    · exact hs (.inr (.inl h))
    · exact hs (.inr (.inr (.inl h)))
  have hnum := fun hall => hs (.inr (.inr (.inr hall)))
  unfold xstrtoul
  rw [if_neg hbase]
  cases hscan : scanNumeral (if base = 0 then autoBase nptr.bytes else base.toNat) nptr.bytes with
  | none =>
    refine (hnum fun p hp => ?_).elim
    rw [hscan] at hp
    cases hp
  | some p =>
    have hsmall : ¬ p.1.natAbs > ulongMax := by
      intro hbig
      refine hnum fun p' hp' => ?_
      rw [hscan] at hp'
      cases hp'
      exact hbig
    refine ⟨UInt64.ofInt p.1, p.2, ?_, scanNumeral_length hscan⟩
    simp only [if_neg hsmall]

/-- Otherwise it fails or stops at the start. -/
theorem xstrtoul_bad {s : CStr} {base : Int} (h : NotUlong (some s) base) :
    xstrtoul s.bytes base = ⟨0, none, eInvalOs⟩ ∨ xstrtoul s.bytes base = ⟨0, some s.bytes, 0⟩ ∨
      (xstrtoul s.bytes base).errno = osErange := by
  have hs := h s rfl
  unfold xstrtoul
  by_cases hbase : base < 0 ∨ base = 1 ∨ base > 36
  · rw [if_pos hbase]
    exact .inl rfl
  · rw [if_neg hbase]
    refine .inr ?_
    cases hscan : scanNumeral (if base = 0 then autoBase s.bytes else base.toNat) s.bytes with
    | none => exact .inl rfl
    | some p =>
      refine .inr ?_
      have hbig : p.1.natAbs > ulongMax := by
        rcases hs with hs | hs | hs | hs
        · exact absurd (.inl hs) hbase
        · exact absurd (.inr (.inl hs)) hbase
        · exact absurd (.inr (.inr hs)) hbase
        · exact hs p hscan
      simp only [if_pos hbig]

/-! ### Hexadecimal strings -/

/-- `chr2bin`. -/
def chr2bin (hex : UInt8) : Option UInt8 :=
  if ch '0' ≤ hex ∧ hex ≤ ch '9' then some (hex - ch '0')
  else if ch 'A' ≤ hex ∧ hex ≤ ch 'F' then some (hex - ch 'A' + 10)
  else if ch 'a' ≤ hex ∧ hex ≤ ch 'f' then some (hex - ch 'a' + 10)
  else none

/-- The loop of `pcl_hex_decode`: whether it got to the end of `hex`, and the buffer. -/
def hexLoop (b : List UInt8) (i : Nat) : List UInt8 → Bool × List UInt8
  | h1 :: h2 :: hex =>
    match chr2bin h1, chr2bin h2 with
    | some b1, some b2 => hexLoop (b.set i (b1 <<< 4 ||| b2)) (i + 1) hex
    | _, _ => (false, b)
  | _ => (true, b)

/-- The string without its "0x". -/
def hexDigits (hex : CStr) : List UInt8 := if txt "0x" <+: hex.bytes then hex.bytes.drop 2 else hex.bytes

/-- `pcl_hex_decode`; `buf` is the memory of `size` bytes. -/
def hexDecode (buf : Option (List UInt8)) (hex : Option CStr) : ErrM (Int × Option (List UInt8)) :=
  match buf, hex with
  | some b, some hex =>
    if b.length < 2 then return (0, some b)
    else
      let b := b.set 0 0
      let len := hex.strlen
      if len < 2 ∨ len % 2 ≠ 0 then do
        let r ← badArg (loc "hex_decode.c" "pcl_hex_decode" 66)
        return (r, some b)
      else
        let hex := hexDigits hex
        let len := hex.length / 2
        if b.length < len then do
          let r ← setErr (loc "hex_decode.c" "pcl_hex_decode" 74) eBuf
          return (r, some b)
        else
          match hexLoop b 0 hex with
          | (true, b) => return (Int.bmod len (2 ^ 32), some b)
          | (false, b) => do
            let r ← setErr (loc "hex_decode.c" "pcl_hex_decode" 81) eFormat
            return (r, some b)
  | _, _ => return (0, buf)

/-- The string is not one of pairs of hexadecimal digits, or the buffer is too small for it. -/
def NotHex (buf : Option (List UInt8)) (hex : Option CStr) : Prop :=
  ∃ b ∈ buf, ∃ h ∈ hex, 2 ≤ b.length ∧
    (h.strlen < 2 ∨ h.strlen % 2 ≠ 0 ∨ b.length < (hexDigits h).length / 2 ∨ ∃ c ∈ hexDigits h, chr2bin c = none)

theorem hexDigits_even {hex : CStr} (hlen : 2 ≤ hex.strlen) (heven : hex.strlen % 2 = 0) :
    (hexDigits hex).length % 2 = 0 := by
  unfold CStr.strlen at hlen heven
  unfold hexDigits
  split
  · rw [List.length_drop]
    omega
  · exact heven

/-- The loop gets to the end just when there are only digits. -/
theorem hexLoop_iff : ∀ (hex b : List UInt8) (i : Nat), hex.length % 2 = 0 →
    ((hexLoop b i hex).1 = false ↔ ∃ c ∈ hex, chr2bin c = none)
  | [], b, i, _ => by simp [hexLoop]
  | [c], b, i, h => nomatch h
  | h1 :: h2 :: hex, b, i, h => by
    have heven : hex.length % 2 = 0 := by
      rw [List.length_cons, List.length_cons] at h
      omega
    cases hc₁ : chr2bin h1 with
    | none => simp [hexLoop, hc₁]
    | some b1 =>
      cases hc₂ : chr2bin h2 with
      | none => simp [hexLoop, hc₁, hc₂]
      | some b2 =>
        have ih := hexLoop_iff hex (b.set i (b1 <<< 4 ||| b2)) (i + 1) heven
        simp only [hexLoop, hc₁, hc₂, ih, List.mem_cons, exists_eq_or_imp, reduceCtorEq, false_or]

end Pcl

import Pcl.Json.Document
import Pcl.Json.Encode

/-!
# Reading back integers and strings

The text of an integer is read as the integer. The text of a string is read as the string, unless it
ends in a control character with a `\u` escape: that is read into a buffer that is not terminated, and
the string goes on with what stands in the memory there.
-/

namespace Pcl

variable {R : Type}

/-! ### Integers -/

/-- The decimal digits of a number. -/
def digits (n : Nat) : List UInt8 := (Nat.toDigits 10 n).map ch

theorem digits_lt {n : Nat} (hn : n < 10) : digits n = [ch (Nat.digitChar n)] := by
  unfold digits
  rw [Nat.toDigits_of_lt_base hn]
  rfl

theorem digits_ge {n : Nat} (hn : 10 ≤ n) : digits n = digits (n / 10) ++ [ch (Nat.digitChar (n % 10))] := by
  unfold digits
  rw [Nat.toDigits_of_base_le (by decide) hn, List.map_append]
  rfl

theorem digitChar_digit : ∀ d < 10, isdigit (ch (Nat.digitChar d)) = true ∧ digitVal (ch (Nat.digitChar d)) = d ∧
    (ch (Nat.digitChar d) = ch '0' → d = 0) := by decide

theorem digits_isdigit (n : Nat) : ∀ c ∈ digits n, isdigit c = true := by
  induction n using Nat.strong_induction_on with
  | _ n ih =>
    intro c hc
    by_cases hn : n < 10
    · rw [digits_lt hn, List.mem_singleton] at hc
      rw [hc]
      exact (digitChar_digit n hn).1
    · rw [digits_ge (by omega), List.mem_append, List.mem_singleton] at hc
      rcases hc with hc | hc
      · exact ih (n / 10) (by omega) c hc
      · rw [hc]
        exact (digitChar_digit _ (Nat.mod_lt n (by decide))).1

theorem digits_ne_nil (n : Nat) : digits n ≠ [] := by
  unfold digits
  rw [ne_eq, List.map_eq_nil_iff]
  exact Nat.toDigits_ne_nil

theorem numeral_digits (n : Nat) : numeral 10 (digits n) = n := by
  induction n using Nat.strong_induction_on with
  | _ n ih =>
    by_cases hn : n < 10
    · rw [digits_lt hn]
      show 0 * 10 + digitVal _ = n
      rw [(digitChar_digit n hn).2.1, Nat.zero_mul, Nat.zero_add]
    · have hsnoc : numeral 10 (digits (n / 10) ++ [ch (Nat.digitChar (n % 10))]) =
          numeral 10 (digits (n / 10)) * 10 + digitVal (ch (Nat.digitChar (n % 10))) := by
        unfold numeral
        rw [List.foldl_append]
        rfl
      rw [digits_ge (by omega), hsnoc, ih (n / 10) (by omega), (digitChar_digit _ (Nat.mod_lt n (by decide))).2.1]
      omega

/-- A number does not start with a zero unless it is zero. -/
theorem digits_head {n : Nat} (hn : 0 < n) : (digits n).headD 0 ≠ ch '0' := by
  induction n using Nat.strong_induction_on with
  | _ n ih =>
    by_cases hlt : n < 10
    · rw [digits_lt hlt]
      intro h
      have := (digitChar_digit n hlt).2.2 h
      omega
    · rw [digits_ge (by omega)]
      have hhead : (digits (n / 10) ++ [ch (Nat.digitChar (n % 10))]).headD 0 = (digits (n / 10)).headD 0 := by
        obtain ⟨c, t, hct⟩ := List.exists_cons_of_ne_nil (digits_ne_nil (n / 10))
        rw [hct]
        rfl
      rw [hhead]
      exact ih (n / 10) (by omega) (by omega)

theorem takeWhile_all {p : UInt8 → Bool} {s : List UInt8} (h : ∀ c ∈ s, p c = true) :
    s.takeWhile p = s ∧ s.dropWhile p = [] := by
  refine ⟨List.takeWhile_eq_self_iff.2 h, List.dropWhile_eq_nil_iff.2 h⟩

theorem isdigit_val {c : UInt8} (h : isdigit c = true) : decide (digitVal c < 10) = true := by
  rw [decide_eq_true_eq]
  unfold digitVal
  rw [if_pos h]
  rw [isdigit_iff] at h
  have h9 : c.toNat ≤ 57 := UInt8.le_iff_toNat_le.1 h.2
  have h0 : (ch '0').toNat = 48 := by decide
  omega

theorem decimal_neg {i : Int} (hi : i < 0) : decimal i = ch '-' :: digits i.natAbs := by
  unfold decimal
  rw [if_pos hi]
  rfl

theorem decimal_nonneg {i : Int} (hi : ¬ i < 0) : decimal i = digits i.natAbs := by
  unfold decimal
  rw [if_neg hi]
  rfl

theorem digits_cons (n : Nat) : ∃ d t, digits n = d :: t ∧ isdigit d = true := by
  obtain ⟨d, t, h⟩ := List.exists_cons_of_ne_nil (digits_ne_nil n)
  exact ⟨d, t, h, digits_isdigit n d (h ▸ List.mem_cons_self)⟩

theorem isdigit_ne {c : UInt8} (h : isdigit c = true) : c ≠ ch '-' ∧ c ≠ ch '+' ∧ c ≠ ch 'e' ∧ c ≠ ch 'E' ∧
    c ≠ ch '.' ∧ c ≠ 0 := by
  rw [isdigit_iff] at h
  refine ⟨?_, ?_, ?_, ?_, ?_, ?_⟩
  · show c ≠ 0x2d
    grind
  · show c ≠ 0x2b
    grind
  · show c ≠ 0x65
    grind
  · show c ≠ 0x45
    grind
  · show c ≠ 0x2e
    grind
  · grind

theorem decimal_starts (i : Int) : startsNumber ((decimal i).headD 0) := by
  by_cases hi : i < 0
  · rw [decimal_neg hi]
    exact .inl rfl
  · obtain ⟨d, t, h, hd⟩ := digits_cons i.natAbs
    rw [decimal_nonneg hi, h]
    exact .inr hd

theorem decimal_append_headD (i : Int) (r : List UInt8) : (decimal i ++ r).headD 0 = (decimal i).headD 0 := by
  by_cases hi : i < 0
  · rw [decimal_neg hi]
    rfl
  · obtain ⟨d, t, h, -⟩ := digits_cons i.natAbs
    rw [decimal_nonneg hi, h]
    rfl

theorem scanSign_decimal (i : Int) : scanSign (decimal i) = (decide (i < 0), digits i.natAbs) := by
  by_cases hi : i < 0
  · rw [decimal_neg hi, decide_eq_true hi]
    rfl
  · obtain ⟨d, t, h, hd⟩ := digits_cons i.natAbs
    obtain ⟨hminus, hplus, -⟩ := isdigit_ne hd
    rw [decimal_nonneg hi, decide_eq_false hi, h]
    simp only [scanSign, if_neg hminus, if_neg hplus]

theorem scanNumeral_decimal (i : Int) : scanNumeral 10 (decimal i) = some (i, []) := by
  have hspace : isspace ((decimal i).headD 0) = false := (decimal_starts i).ne.2.2.2.2.2.2.2.2.2
  obtain ⟨htake, hdrop⟩ := takeWhile_all (p := fun b => decide (digitVal b < 10))
    fun c hc => isdigit_val (digits_isdigit i.natAbs c hc)
  have hne : ¬ (digits i.natAbs).isEmpty = true := by
    rw [List.isEmpty_iff]
    exact digits_ne_nil _
  unfold scanNumeral
  simp only [dropWhile_isspace_id hspace, scanSign_decimal, skipPrefix_ten, htake, hdrop, hne, Bool.false_eq_true,
    ↓reduceIte, numeral_digits, decide_eq_true_eq, Option.some.injEq, Prod.mk.injEq, and_true]
  split <;> omega

theorem numberValue_decimal (D : Doubles R) {i : Int} (hmin : llongMin < i) (hmax : i ≤ llongMax) :
    numberValue D ⟨false, false, false⟩ (decimal i) = some (.int i, []) := by
  have h0 : (decimal i).headD 0 ≠ 0 := by
    intro h
    have hs := decimal_starts i
    rw [h] at hs
    exact absurd hs (by unfold startsNumber; decide)
  have hrun : strtoll (decimal i) 10 = .ok (i, []) := by
    unfold strtoll
    simp only [h0, scanNumeral_decimal, ↓reduceIte]
    rw [if_neg (by omega), if_neg (by omega)]
  unfold numberValue
  simp only [hrun, Bool.or_self, Bool.false_eq_true, ↓reduceIte]
  exact if_neg (Int.ne_of_gt hmin)

theorem scanNumber_digits {c : UInt8} (hc : ¬ NumChar c) (k ext : List UInt8) (fl : NumFlags) {u : List UInt8}
    (hu : ∀ b ∈ u, isdigit b = true) :
    scanNumber (u ++ c :: k ++ ext) (u ++ c :: k).length fl = .ok (fl, ((c :: k).length : Int)) := by
  induction u with
  | nil =>
    have hpos : ¬ ((c :: k).length : Int) ≤ 0 := by simp
    unfold NumChar at hc
    simp only [not_or] at hc
    obtain ⟨he, hE, hdot, hminus, hplus, hdigit⟩ := hc
    have hend : c < ch '0' ∨ c > ch '9' := by
      by_contra h
      exact hdigit (isdigit_of_not_lt h)
    simp only [List.nil_append, List.cons_append, scanNumber, if_neg hpos, if_neg (not_or.2 ⟨he, hE⟩), if_neg hdot,
      if_neg (not_or.2 ⟨hminus, hplus⟩), if_pos hend]
  | cons b u ih =>
    have hpos : ¬ ((b :: (u ++ c :: k)).length : Int) ≤ 0 := by
      simp only [List.length_cons]
      omega
    have hlen : ((b :: (u ++ c :: k)).length : Int) - 1 = (u ++ c :: k).length := by simp
    have hb := hu b List.mem_cons_self
    obtain ⟨hminus, hplus, he, hE, hdot, -⟩ := isdigit_ne hb
    have hend : ¬ (b < ch '0' ∨ b > ch '9') := fun h => not_isdigit h hb
    simp only [List.cons_append, scanNumber, if_neg hpos, if_neg (not_or.2 ⟨he, hE⟩), if_neg hdot,
      if_neg (not_or.2 ⟨hminus, hplus⟩), if_neg hend, hlen]
    exact ih fun d hd => hu d (List.mem_cons_of_mem b hd)

theorem parseNumber_decimal (D : Doubles R) {i : Int} (hmin : llongMin < i) (hmax : i ≤ llongMax) {c : UInt8}
    (hc : ¬ NumChar c) (k : List UInt8) : Reads (ipclJsonParseNumber D) (decimal i ++ c :: k) (.int i) (c :: k) := by
  have hd := digits_isdigit i.natAbs
  have hstart := decimal_starts i
  have hne : decimal i ≠ [] := ne_nil_of_headD fun h => by
    rw [h] at hstart
    exact absurd hstart (by unfold startsNumber; decide)
  obtain ⟨d, t, hdt, hdd⟩ := digits_cons i.natAbs
  have hscan (ext : List UInt8) : scanNumber ((decimal i ++ c :: k ++ ext).drop (signLen (decimal i)))
      ((decimal i ++ c :: k).length - signLen (decimal i)) ⟨false, false, false⟩ =
        .ok (⟨false, false, false⟩, ((c :: k).length : Int)) := by
    have h := scanNumber_digits hc k ext ⟨false, false, false⟩ hd
    by_cases hi : i < 0
    · rw [decimal_neg hi]
      have hsign : signLen (ch '-' :: digits i.natAbs) = 1 := rfl
      rw [hsign, ← h]
      congr 1
      simp
    · rw [decimal_nonneg hi]
      have hsign : signLen (digits i.natAbs) = 0 := by
        rw [hdt]
        exact if_neg (isdigit_ne hdd).1
      rw [hsign, ← h]
      congr 1
  have hzero : ¬ LeadingZero (decimal i ++ c :: k) := by
    rintro ⟨h0, h1⟩
    by_cases hi : i < 0
    · rw [decimal_neg hi] at h0
      exact absurd h0 (by simp; decide)
    · rw [decimal_nonneg hi] at h0 h1
      by_cases hpos : 0 < i.natAbs
      · refine digits_head hpos ?_
        rw [hdt] at h0 ⊢
        exact h0
      · have hnil : i.natAbs = 0 := by omega
        rw [hnil] at h1
        exact hc (.inr (.inr (.inr (.inr (.inr h1)))))
  intro ext s hs
  have hrun := (parseNumber_run (D := D) hs hne (hscan ext) hzero hc hstart.ne.2.2.2.2.2.2.2.2.2).2
  exact hrun _ _ (numberValue_decimal D hmin hmax)

/-! ### Strings -/

/-- A control character that is written as a `\u` escape. -/
def Escaped (c : UInt8) : Prop := c < 0x20 ∧ escapeLetter c = none

instance (c : UInt8) : Decidable (Escaped c) := by unfold Escaped; infer_instance

/-- The string does not end in a `\u` escape when it is written. -/
def Terminated (s : CStr) : Prop := ∀ c, s.bytes.getLast? = some c → ¬ Escaped c

instance (s : CStr) : Decidable (Terminated s) :=
  decidable_of_iff (∀ c ∈ s.bytes.getLast?, ¬ Escaped c) Iff.rfl

/-- Whether the buffer is terminated when the bytes were read. -/
def terminatedBy : Bool → List UInt8 → Bool
  | t, [] => t
  | _, c :: s => terminatedBy (!decide (Escaped c)) s

theorem terminatedBy_last (t : Bool) (s : List UInt8) :
    terminatedBy t s = true ↔ (s = [] → t = true) ∧ ∀ c, s.getLast? = some c → ¬ Escaped c := by
  induction s generalizing t with
  | nil => simp [terminatedBy]
  | cons c s ih =>
    rw [terminatedBy, ih]
    cases s with
    | nil => simp
    | cons d s => simp [List.getLast?_cons_cons]

theorem terminatedBy_iff (s : CStr) : terminatedBy true s.bytes = true ↔ Terminated s := by
  rw [terminatedBy_last]
  unfold Terminated
  simp

/-- The decoder knows the letters of the encoder. -/
theorem unescape_escapeLetter {c x : UInt8} (h : escapeLetter c = some x) : unescape x = some c := by
  have htable : ∀ n < 256, (escapeLetter (UInt8.ofNat n)).bind unescape =
      (escapeLetter (UInt8.ofNat n)).map fun _ => UInt8.ofNat n := by
    set_option maxRecDepth 4000 in decide
  have hc := htable c.toNat (UInt8.toNat_lt c)
  rwa [UInt8.ofNat_toNat, h] at hc

theorem hexUnit_hex4 {c : UInt8} (hc : c < 0x20) : hexUnit (hex4 c) = some c.toUInt32 := by
  have htable : ∀ n < 32, hexUnit (hex4 (UInt8.ofNat n)) = some (UInt8.ofNat n).toUInt32 := by decide
  have h := htable c.toNat (UInt8.lt_iff_toNat_lt.1 hc)
  rwa [UInt8.ofNat_toNat] at h

theorem utf8Encode_control {c : UInt8} (hc : c < 0x20) : utf8Encode c.toUInt32 = .ok [c] ∧
    ¬ (c.toUInt32 ≥ 0xd800 ∧ c.toUInt32 ≤ 0xdbff) := by
  have htable : ∀ n < 32, utf8Encode (UInt8.ofNat n).toUInt32 = .ok [UInt8.ofNat n] ∧
      ¬ ((UInt8.ofNat n).toUInt32 ≥ 0xd800 ∧ (UInt8.ofNat n).toUInt32 ≤ 0xdbff) := by decide
  have h := htable c.toNat (UInt8.lt_iff_toNat_lt.1 hc)
  rwa [UInt8.ofNat_toNat] at h

/-- The `\u` escape of a control character stands for it. -/
theorem unicodeEscape_hex4 {c : UInt8} (hc : c < 0x20) (i : List UInt8) :
    unicodeEscape (hex4 c ++ i) = some ([c], i) := by
  have hlen : (hex4 c).length = 4 := rfl
  have h4 : ¬ (hex4 c ++ i).length < 4 := by
    rw [List.length_append, hlen]
    omega
  obtain ⟨henc, hsur⟩ := utf8Encode_control hc
  have hpoint : codePoint (hex4 c ++ i) = some (c.toUInt32, i) := by
    unfold codePoint
    rw [if_neg h4, ← hlen, List.take_left, List.drop_left, hexUnit_hex4 hc]
    exact if_neg hsur
  unfold unicodeEscape
  simp only [hpoint, henc]

/-- How a character is written. -/
theorem charText_cases (c : UInt8) : (Escaped c ∧ charText c = txt "\\u" ++ hex4 c) ∨
    (∃ x, escapeLetter c = some x ∧ ¬ Escaped c ∧ charText c = [ch '\\', x]) ∨
      (¬ Escaped c ∧ charText c = [c] ∧ c ≠ ch '"' ∧ c ≠ ch '\\') := by
  unfold charText
  cases hx : escapeLetter c with
  | some x => exact .inr (.inl ⟨x, rfl, fun hesc => absurd (hx.symm.trans hesc.2) (by simp), rfl⟩)
  | none =>
    by_cases hlt : c < 0x20
    · exact .inl ⟨⟨hlt, hx⟩, if_pos hlt⟩
    · refine .inr (.inr ⟨fun hesc => hlt hesc.1, if_neg hlt, ?_, ?_⟩)
      · rintro rfl
        exact absurd hx (by decide)
      · rintro rfl
        exact absurd hx (by decide)

/-- The text of a string is read as its bytes. -/
theorem chars_text {s : List UInt8} (h0 : 0 ∉ s) (r : List UInt8) :
    ∀ t, Chars (s.flatMap charText ++ r) s t (terminatedBy t s) r := by
  induction s with
  | nil => exact fun t => .nil r t
  | cons c s ih =>
    intro t
    rw [List.mem_cons, not_or] at h0
    have ih := ih h0.2
    rw [List.flatMap_cons, List.append_assoc, terminatedBy]
    rcases charText_cases c with ⟨hesc, htext⟩ | ⟨x, hx, hesc, htext⟩ | ⟨hesc, htext, hq, hb⟩
    · rw [decide_eq_true hesc, htext, List.append_assoc]
      exact .unicode (unicodeEscape_hex4 hesc.1 _) (ih false)
    · rw [decide_eq_false hesc, htext]
      exact .escape (unescape_escapeLetter hx) (ih true)
    · rw [decide_eq_false hesc, htext]
      exact .plain (fun h => h0.1 h.symm) hq hb (ih true)

/-- The put that reads a character of a string back. -/
def readPut (c : UInt8) : Put := if Escaped c then ⟨4, 1⟩ else .block 1

/-- The puts fit that read the string back. -/
def StringFits (s : CStr) : Prop := Fill.Fits ⟨0, 32⟩ (s.bytes.map readPut)

instance (s : CStr) : Decidable (StringFits s) := Fill.decidableFits _ _

theorem bodyPuts_text {s : List UInt8} (h0 : 0 ∉ s) (r : List UInt8) :
    bodyPuts (s.flatMap charText ++ ch '"' :: r) = s.map readPut := by
  induction s with
  | nil =>
    rw [List.flatMap_nil, List.nil_append, bodyPuts.eq_def]
    exact if_pos (.inr rfl)
  | cons c s ih =>
    rw [List.mem_cons, not_or] at h0
    have ih := ih h0.2
    rw [List.flatMap_cons, List.append_assoc, List.map_cons, readPut]
    rcases charText_cases c with ⟨hesc, htext⟩ | ⟨x, hx, hesc, htext⟩ | ⟨hesc, htext, hq, hb⟩
    · rw [if_pos hesc, htext, ← ih, List.append_assoc]
      exact bodyPuts_unicode (unicodeEscape_hex4 hesc.1 _)
    · have hun := unescape_escapeLetter hx
      have hput : bodyPuts (ch '\\' :: x :: (s.flatMap charText ++ ch '"' :: r)) =
          .block 1 :: bodyPuts (s.flatMap charText ++ ch '"' :: r) := by
        rw [bodyPuts_backslash (unescape_ne_u hun), hun]
      rw [if_neg hesc, htext, ← ih]
      exact hput
    · rw [if_neg hesc, htext, ← ih]
      exact bodyPuts_plain (fun h => h0.1 h.symm) hq hb _

theorem bodyFits_text (s : CStr) (r : List UInt8) :
    BodyFits (s.bytes.flatMap charText ++ ch '"' :: r) ↔ StringFits s := by
  unfold BodyFits StringFits
  rw [bodyPuts_text s.nul_free]

/-- A string of less than 2 ^ 29 bytes fits. -/
theorem stringFits_small {s : CStr} (hs : s.bytes.length < 2 ^ 29) : StringFits s := by
  have htotal : Put.total (s.bytes.map readPut) = s.bytes.length := by
    unfold Put.total
    rw [List.map_map, List.map_congr_left (g := fun _ => 1), List.map_const', List.sum_replicate]
    · exact Nat.mul_one _
    intro c _
    show (readPut c).chars = 1
    unfold readPut
    split <;> rfl
  refine Fill.fits_small (fun p hp => ?_) (Nat.le_of_ble_eq_true rfl) ?_
  · obtain ⟨c, -, rfl⟩ := List.mem_map.1 hp
    unfold readPut
    split <;> decide
  · rw [htotal]
    show 0 + s.bytes.length < 2 ^ 29
    omega

/-- What a string is read as. -/
def reread (mem : Stale) (s : CStr) : CStr := heldStr mem s.bytes (terminatedBy true s.bytes)

theorem reread_terminated (mem : Stale) {s : CStr} (hs : Terminated s) : reread mem s = s := by
  unfold reread heldStr
  rw [(terminatedBy_iff s).2 hs, if_pos (.inl rfl), CStr.ofBytes_bytes]

theorem stringText_append (s : CStr) (r : List UInt8) :
    stringText s ++ r = ch '"' :: (s.bytes.flatMap charText ++ ch '"' :: r) := by
  unfold stringText
  simp

theorem parseString_text (mem : Stale) {s : CStr} (hs : Utf8Ok s.bytes) (hfit : StringFits s) (r : List UInt8) :
    Reads (ipclJsonParseString mem) (stringText s ++ r) (reread mem s) r := by
  rw [stringText_append]
  exact parseString_reads mem (chars_text s.nul_free (ch '"' :: r) true) ((bodyFits_text s r).2 hfit) hs

/-- A string that does not fit is not read back. -/
theorem parseString_text_lost (mem : Stale) {s : CStr} (hfit : ¬ StringFits s) (r : List UInt8) :
    Lost (ipclJsonParseString mem) (stringText s ++ r) := by
  rw [stringText_append]
  exact parseString_lost mem fun h => hfit ((bodyFits_text s r).1 h)

end Pcl

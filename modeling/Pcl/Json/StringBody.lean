import Pcl.Json.Bounded
import Pcl.Str.Encode

/-!
# String literals

`StringBody i bs r` is the standard: the body of a string literal starts `i`, stands for a text with the
encoding `bs`, and `r` is left. The parser reads it at the level of bytes (`StrictChars`), but it reads more
(`Chars`): control characters, and whatever `strtol` takes for four digits; and it reads less, as the check at
its end stops at the code points above `3FFFF`. A body that ends in a `\u` escape has no NUL behind it.
-/

namespace Pcl

open Utf8 (encode Surrogate)

variable {i r num bs : List UInt8} {c x : UInt8} {t t' : Bool}

/-- A byte that stands for itself in a string. -/
def Unescaped (c : UInt8) : Prop := 0x20 ≤ c ∧ c ≠ ch '"' ∧ c ≠ ch '\\'

/-- The short escapes, and what they stand for. -/
def shortEscapes : List (UInt8 × UInt8) :=
  [(ch '"', 0x22), (ch '\\', 0x5C), (ch '/', 0x2F), (ch 'b', 0x08), (ch 'f', 0x0C), (ch 'n', 0x0A), (ch 'r', 0x0D),
    (ch 't', 0x09)]

/-- Four hexadecimal digits. -/
def Hex4 (num : List UInt8) : Prop := num.length = 4 ∧ ∀ c ∈ num, digitVal c < 16

/-- The first unit of a surrogate pair. -/
def High (n : Nat) : Prop := 0xD800 ≤ n ∧ n ≤ 0xDBFF

/-- The second unit of a surrogate pair. -/
def Low (n : Nat) : Prop := 0xDC00 ≤ n ∧ n ≤ 0xDFFF

/-- The code point of a surrogate pair. -/
def pairCode (hi lo : Nat) : Nat := 0x10000 + (hi - 0xD800) * 0x400 + (lo - 0xDC00)

/-- The body of a string literal. -/
inductive StringBody : List UInt8 → List UInt8 → List UInt8 → Prop
  | nil (r : List UInt8) : StringBody r [] r
  | char {s i bs r : List UInt8} (hs : Utf8.Seq s) (hu : ∀ c ∈ s, Unescaped c) (h : StringBody i bs r) :
      StringBody (s ++ i) (s ++ bs) r
  | escape {c x : UInt8} {i bs r : List UInt8} (hx : (c, x) ∈ shortEscapes) (h : StringBody i bs r) :
      StringBody (ch '\\' :: c :: i) (x :: bs) r
  | unit {num i bs r : List UInt8} (hn : Hex4 num) (hs : ¬ Surrogate (numeral 16 num)) (h : StringBody i bs r) :
      StringBody (ch '\\' :: ch 'u' :: (num ++ i)) (encode (numeral 16 num) ++ bs) r
  | pair {hi lo i bs r : List UInt8} (hhi : Hex4 hi) (hlo : Hex4 lo) (h₁ : High (numeral 16 hi))
      (h₂ : Low (numeral 16 lo)) (h : StringBody i bs r) :
      StringBody (ch '\\' :: ch 'u' :: (hi ++ ch '\\' :: ch 'u' :: (lo ++ i)))
        (encode (pairCode (numeral 16 hi) (numeral 16 lo)) ++ bs) r

/-- Bytes and escapes as the standard has them, where the bytes may be no text: `Chars` without what only the
parser reads. -/
inductive StrictChars : List UInt8 → List UInt8 → Bool → Bool → List UInt8 → Prop
  | nil (r : List UInt8) (t : Bool) : StrictChars r [] t t r
  | plain {c : UInt8} {i bs r : List UInt8} {t t' : Bool} (hc : Unescaped c) (h : StrictChars i bs true t' r) :
      StrictChars (c :: i) (c :: bs) t t' r
  | escape {c x : UInt8} {i bs r : List UInt8} {t t' : Bool} (hx : (c, x) ∈ shortEscapes)
      (h : StrictChars i bs true t' r) : StrictChars (ch '\\' :: c :: i) (x :: bs) t t' r
  | unit {num i bs r : List UInt8} {t t' : Bool} (hn : Hex4 num) (hs : ¬ High (numeral 16 num))
      (h : StrictChars i bs false t' r) :
      StrictChars (ch '\\' :: ch 'u' :: (num ++ i)) (encode (numeral 16 num) ++ bs) t t' r
  | pair {hi lo i bs r : List UInt8} {t t' : Bool} (hhi : Hex4 hi) (hlo : Hex4 lo) (h₁ : High (numeral 16 hi))
      (h₂ : Low (numeral 16 lo)) (h : StrictChars i bs false t' r) :
      StrictChars (ch '\\' :: ch 'u' :: (hi ++ ch '\\' :: ch 'u' :: (lo ++ i)))
        (encode (pairCode (numeral 16 hi) (numeral 16 lo)) ++ bs) t t' r

/-! ### The escapes -/

theorem unescape_short : unescape c = some x ↔ (c, x) ∈ shortEscapes := by
  constructor
  · intro h
    unfold unescape at h
    by_cases hself : c = ch '\\' ∨ c = ch '/' ∨ c = ch '"'
    · rw [if_pos hself, Option.some.injEq] at h
      subst h
      rcases hself with rfl | rfl | rfl <;> decide
    rw [if_neg hself] at h
    split at h <;> [skip; split at h <;> [skip; split at h <;> [skip; split at h <;> [skip; split at h]]]]
    all_goals cases h
    all_goals
      subst c
      decide
  · intro h
    simp only [shortEscapes, List.mem_cons, Prod.mk.injEq, List.not_mem_nil, or_false] at h
    rcases h with ⟨rfl, rfl⟩ | ⟨rfl, rfl⟩ | ⟨rfl, rfl⟩ | ⟨rfl, rfl⟩ | ⟨rfl, rfl⟩ | ⟨rfl, rfl⟩ | ⟨rfl, rfl⟩ | ⟨rfl, rfl⟩
    all_goals decide

/-- A hexadecimal digit is no white space, no sign and no `x`. -/
theorem hexDigit_plain (hc : digitVal c < 16) :
    isspace c = false ∧ c ≠ 0 ∧ c ≠ ch '-' ∧ c ≠ ch '+' ∧ c ≠ ch 'x' ∧ c ≠ ch 'X' := by
  have htable : ∀ n < 256, digitVal (UInt8.ofNat n) < 16 → isspace (UInt8.ofNat n) = false ∧ UInt8.ofNat n ≠ 0 ∧
      UInt8.ofNat n ≠ ch '-' ∧ UInt8.ofNat n ≠ ch '+' ∧ UInt8.ofNat n ≠ ch 'x' ∧ UInt8.ofNat n ≠ ch 'X' := by
    set_option maxRecDepth 4000 in decide
  have h := htable c.toNat (UInt8.toNat_lt c)
  rw [UInt8.ofNat_toNat] at h
  exact h hc

theorem numeral_hex_lt (hd : ∀ c ∈ num, digitVal c < 16) : numeral 16 num < 16 ^ num.length := by
  induction num using List.reverseRecOn with
  | nil => exact Nat.one_pos
  | append_singleton num c ih =>
    have ih := ih fun d hmem => hd d (List.mem_append_left _ hmem)
    have hc := hd c (List.mem_append_right _ (List.mem_singleton_self c))
    have hsnoc : numeral 16 (num ++ [c]) = numeral 16 num * 16 + digitVal c := List.foldl_append
    rw [hsnoc, List.length_append, List.length_singleton, Nat.pow_succ]
    omega

theorem Hex4.lt (hn : Hex4 num) : numeral 16 num < 65536 := by
  have h := numeral_hex_lt hn.2
  rwa [hn.1] at h

theorem strtoi_ok {base : Nat} {n : Int} {rest : List UInt8} (h0 : num.headD 0 ≠ 0)
    (h : scanNumeral base num = some (n, rest)) (hmin : intMin ≤ n) (hmax : n ≤ intMax) :
    strtoi num base = .ok (n, rest) := by
  have hlong : llongMin ≤ intMin ∧ intMax ≤ llongMax := by decide
  unfold strtoi strtol
  simp only [if_neg h0, h, if_neg (show ¬ n < llongMin by omega), if_neg (show ¬ n > llongMax by omega), toInt_eq ⟨hmin, Int.lt_of_le_of_lt hmax (by decide)⟩]

theorem Hex4.hexUnit (hn : Hex4 num) : hexUnit num = some (UInt32.ofNat (numeral 16 num)) := by
  have hlt := hn.lt
  obtain ⟨hlen, hd⟩ := hn
  obtain ⟨a, num', rfl⟩ : ∃ a num', num = a :: num' := List.exists_cons_of_length_eq_add_one hlen
  obtain ⟨hspace, h0, hminus, hplus, -, -⟩ := hexDigit_plain (hd a List.mem_cons_self)
  have hsign : scanSign ((a :: num').dropWhile isspace) = (false, a :: num') := by
    rw [List.dropWhile_cons_of_neg (by rw [hspace]; decide), scanSign, if_neg hminus, if_neg hplus]
  have hskip : skipPrefix 16 (a :: num') = a :: num' := by
    rcases num' with _ | ⟨x, _ | ⟨d, s⟩⟩
    · rfl
    · rfl
    · obtain ⟨-, -, -, -, hx, hX⟩ := hexDigit_plain (hd x (by simp))
      rw [skipPrefix, if_neg fun h => h.2.2.1.elim hx hX]
  have hall : ∀ c ∈ a :: num', decide (digitVal c < 16) = true := fun c hc => decide_eq_true (hd c hc)
  have hscan : scanNumeral 16 (a :: num') = some ((numeral 16 (a :: num') : Int), []) := by
    unfold scanNumeral
    rw [hsign]
    simp only [hskip]
    rw [List.takeWhile_eq_self_iff.2 hall, List.dropWhile_eq_nil_iff.2 hall]
    rfl
  have hint : intMin ≤ 0 ∧ 65536 ≤ intMax := by decide
  unfold Pcl.hexUnit
  rw [strtoi_ok (show (a :: num').headD 0 ≠ 0 from h0) hscan (by omega) (by omega)]
  have hmod : ((numeral 16 (a :: num') : Int) % 2 ^ 32).toNat = numeral 16 (a :: num') := by omega
  simp only [List.headD_nil, ne_eq, not_true_eq_false, ↓reduceIte, hmod]

theorem toNat_ofNat_small {n : Nat} (h : n ≤ 0x10FFFF) : (UInt32.ofNat n).toNat = n := by
  rw [UInt32.toNat_ofNat']
  omega

theorem high_iff (n : UInt32) : n ≥ 0xd800 ∧ n ≤ 0xdbff ↔ High n.toNat := by
  show 0xd800 ≤ n ∧ n ≤ 0xdbff ↔ _
  rw [UInt32.le_iff_toNat_le, UInt32.le_iff_toNat_le]
  exact Iff.rfl

theorem low_iff (n : UInt32) : n < 0xdc00 ∨ n > 0xdfff ↔ ¬ Low n.toNat := by
  show n < 0xdc00 ∨ 0xdfff < n ↔ _
  have hlo : UInt32.toNat 0xdc00 = 0xDC00 := rfl
  have hhi : UInt32.toNat 0xdfff = 0xDFFF := rfl
  unfold Low
  rw [UInt32.lt_iff_toNat_lt, UInt32.lt_iff_toNat_lt, hlo, hhi]
  omega

theorem pairCode_le {hi lo : Nat} (h₁ : High hi) (h₂ : Low lo) :
    0x10000 ≤ pairCode hi lo ∧ pairCode hi lo ≤ 0x10FFFF := by
  unfold High at h₁
  unfold Low at h₂
  unfold pairCode
  omega

theorem pairCode_bits {hi lo : UInt32} (h₁ : High hi.toNat) (h₂ : Low lo.toNat) :
    (0x10000 : UInt32) + ((hi &&& 0x03ff) <<< 10) + (lo &&& 0x03ff) = UInt32.ofNat (pairCode hi.toNat lo.toNat) := by
  unfold High at h₁
  unfold Low at h₂
  have hmask (n : UInt32) : (n &&& 0x03ff).toNat = n.toNat % 1024 := by
    rw [UInt32.toNat_and]
    exact Nat.and_two_pow_sub_one_eq_mod n.toNat 10
  have hbase : UInt32.toNat 0x10000 = 65536 := rfl
  have hshift : UInt32.toNat 10 % 32 = 10 := rfl
  unfold pairCode
  rw [← UInt32.toNat_inj, UInt32.toNat_add, UInt32.toNat_add, UInt32.toNat_shiftLeft, hmask, hmask,
    UInt32.toNat_ofNat', Nat.shiftLeft_eq, hbase, hshift]
  omega

theorem unicodeEscape_code {n : UInt32} (hn : n.toNat ≤ 0x10FFFF) (h : codePoint i = some (n, r)) :
    unicodeEscape i = some (encode n.toNat, r) := by
  unfold unicodeEscape
  simp only [h, utf8Encode_ok_iff.2 ⟨hn, rfl⟩]

/-- An escape outside the first half of a pair is its own code point. -/
theorem codePoint_unit {n : UInt32} (hlen : num.length = 4) (hn : hexUnit num = some n) (hs : ¬ High n.toNat)
    (i : List UInt8) : codePoint (num ++ i) = some (n, i) := by
  have h4 : ¬ (num ++ i).length < 4 := by
    rw [List.length_append, hlen]
    omega
  unfold codePoint
  rw [if_neg h4, ← hlen, List.take_left, List.drop_left, hn]
  simp only
  rw [if_neg fun h => hs ((high_iff n).1 h)]

theorem codePoint_pair {hi lo : List UInt8} {n m : UInt32} (hhi : hi.length = 4) (hlo : lo.length = 4)
    (hn : hexUnit hi = some n) (hm : hexUnit lo = some m) (h₁ : High n.toNat) (h₂ : Low m.toNat) (i : List UInt8) :
    codePoint (hi ++ ch '\\' :: ch 'u' :: (lo ++ i)) = some (UInt32.ofNat (pairCode n.toNat m.toNat), i) := by
  have h4 : ¬ (hi ++ ch '\\' :: ch 'u' :: (lo ++ i)).length < 4 := by
    rw [List.length_append, hhi]
    omega
  have h6 : ¬ ((ch '\\' :: ch 'u' :: (lo ++ i)).length < 6 ∨
      (ch '\\' :: ch 'u' :: (lo ++ i)).headD 0 ≠ ch '\\' ∨
      ((ch '\\' :: ch 'u' :: (lo ++ i)).drop 1).headD 0 ≠ ch 'u') := by
    simp only [List.length_cons, List.length_append, List.headD_cons, List.drop_succ_cons, List.drop_zero, ne_eq,
      not_true_eq_false, or_false]
    omega
  have hpair : pairPoint n (ch '\\' :: ch 'u' :: (lo ++ i)) = some (UInt32.ofNat (pairCode n.toNat m.toNat), i) := by
    have hdrop : (ch '\\' :: ch 'u' :: (lo ++ i)).drop 2 = lo ++ i := rfl
    unfold pairPoint
    rw [if_neg h6, hdrop, ← hlo, List.take_left, List.drop_left, hm]
    simp only
    rw [if_neg fun h => (low_iff m).1 h h₂, pairCode_bits h₁ h₂]
  unfold codePoint
  rw [if_neg h4, ← hhi, List.take_left, List.drop_left, hn]
  simp only
  rw [if_pos ((high_iff n).2 h₁), hpair]

theorem unicodeEscape_unit {n : UInt32} (hlen : num.length = 4) (hn : hexUnit num = some n) (hs : ¬ High n.toNat)
    (hle : n.toNat ≤ 0x10FFFF) (i : List UInt8) : unicodeEscape (num ++ i) = some (encode n.toNat, i) :=
  unicodeEscape_code hle (codePoint_unit hlen hn hs i)

theorem unicodeEscape_pair {hi lo : List UInt8} {n m : UInt32} (hhi : hi.length = 4) (hlo : lo.length = 4)
    (hn : hexUnit hi = some n) (hm : hexUnit lo = some m) (h₁ : High n.toNat) (h₂ : Low m.toNat) (i : List UInt8) :
    unicodeEscape (hi ++ ch '\\' :: ch 'u' :: (lo ++ i)) = some (encode (pairCode n.toNat m.toNat), i) := by
  have hle := (pairCode_le h₁ h₂).2
  have h := unicodeEscape_code (n := .ofNat (pairCode n.toNat m.toNat)) (by rwa [toNat_ofNat_small hle])
    (codePoint_pair hhi hlo hn hm h₁ h₂ i)
  rwa [toNat_ofNat_small hle] at h

theorem Hex4.toNat (hn : Hex4 num) : (UInt32.ofNat (numeral 16 num)).toNat = numeral 16 num :=
  toNat_ofNat_small (Nat.le_trans hn.lt.le (by decide))

theorem Hex4.value {n : UInt32} (hn : Hex4 num) (h : Pcl.hexUnit num = some n) : n.toNat = numeral 16 num := by
  rw [hn.hexUnit] at h
  rw [← Option.some.inj h, hn.toNat]

theorem Hex4.unicodeEscape (hn : Hex4 num) (hs : ¬ High (numeral 16 num)) (i : List UInt8) :
    unicodeEscape (num ++ i) = some (encode (numeral 16 num), i) := by
  have hlt := hn.lt
  have h := unicodeEscape_unit hn.1 hn.hexUnit (by rwa [hn.toNat]) (by rw [hn.toNat]; omega) i
  rwa [hn.toNat] at h

theorem Hex4.unicodeEscape_pair {hi lo : List UInt8} (hhi : Hex4 hi) (hlo : Hex4 lo) (h₁ : High (numeral 16 hi))
    (h₂ : Low (numeral 16 lo)) (i : List UInt8) :
    Pcl.unicodeEscape (hi ++ ch '\\' :: ch 'u' :: (lo ++ i)) =
      some (encode (pairCode (numeral 16 hi) (numeral 16 lo)), i) := by
  have h := Pcl.unicodeEscape_pair hhi.1 hlo.1 hhi.hexUnit hlo.hexUnit (by rwa [hhi.toNat]) (by rwa [hlo.toNat]) i
  rwa [hhi.toNat, hlo.toNat] at h

/-! ### Bodies and characters -/

theorem StrictChars.chars (h : StrictChars i bs t t' r) : Chars i bs t t' r := by
  induction h with
  | nil r t => exact .nil r t
  | plain hc h ih =>
    refine .plain ?_ hc.2.1 hc.2.2 ih
    rintro rfl
    exact absurd hc.1 (by decide)
  | escape hx h ih => exact .escape (unescape_short.2 hx) ih
  | unit hn hs h ih => exact .unicode (hn.unicodeEscape hs _) ih
  | pair hhi hlo h₁ h₂ h ih => exact .unicode (hhi.unicodeEscape_pair hlo h₁ h₂ _) ih

theorem shortEscapes_ascii (h : (c, x) ∈ shortEscapes) : x ≤ 0x7F := by
  simp only [shortEscapes, List.mem_cons, Prod.mk.injEq, List.not_mem_nil, or_false] at h
  rcases h with ⟨-, rfl⟩ | ⟨-, rfl⟩ | ⟨-, rfl⟩ | ⟨-, rfl⟩ | ⟨-, rfl⟩ | ⟨-, rfl⟩ | ⟨-, rfl⟩ | ⟨-, rfl⟩
  all_goals decide

theorem StringBody.text (h : StringBody i bs r) : Utf8.Text bs := by
  induction h with
  | nil r => exact .nil
  | char hs hu h ih => exact .cons hs ih
  | escape hx h ih => exact .cons (.ascii (shortEscapes_ascii hx)) ih
  | unit hn hs h ih =>
    have hlt := hn.lt
    exact (Utf8.text_encode_append (by omega)).2 ⟨⟨by omega, hs⟩, ih⟩
  | pair hhi hlo h₁ h₂ h ih =>
    obtain ⟨hlo', hle⟩ := pairCode_le h₁ h₂
    refine (Utf8.text_encode_append hle).2 ⟨⟨hle, ?_⟩, ih⟩
    rintro ⟨-, hhi'⟩
    omega

theorem StrictChars.plains {s : List UInt8} (hu : ∀ c ∈ s, Unescaped c) (h : ∀ t, ∃ t', StrictChars i bs t t' r) :
    ∀ t, ∃ t', StrictChars (s ++ i) (s ++ bs) t t' r := by
  induction s with
  | nil => exact h
  | cons c s ih =>
    intro t
    obtain ⟨hc, hs⟩ := List.forall_mem_cons.1 hu
    obtain ⟨t', h'⟩ := ih hs true
    exact ⟨t', .plain hc h'⟩

theorem StringBody.strict (h : StringBody i bs r) : ∀ t, ∃ t', StrictChars i bs t t' r := by
  induction h with
  | nil r => exact fun t => ⟨t, .nil r t⟩
  | char hs hu h ih => exact StrictChars.plains hu ih
  | escape hx h ih =>
    intro t
    obtain ⟨t', h'⟩ := ih true
    exact ⟨t', .escape hx h'⟩
  | unit hn hs h ih =>
    intro t
    obtain ⟨t', h'⟩ := ih false
    refine ⟨t', .unit hn (fun hhigh => hs ⟨hhigh.1, ?_⟩) h'⟩
    have := hhigh.2
    omega
  | pair hhi hlo h₁ h₂ h ih =>
    intro t
    obtain ⟨t', h'⟩ := ih false
    exact ⟨t', .pair hhi hlo h₁ h₂ h'⟩

theorem Unescaped.of_cont (hc : Utf8.Cont c) : Unescaped c := by
  have hquote : ch '"' = 0x22 := rfl
  have hback : ch '\\' = 0x5C := rfl
  have hlo := hc.1
  unfold Unescaped
  grind

theorem StrictChars.cont {l : List UInt8} (hc : Utf8.Cont c) (h : StrictChars i (c :: l) t t' r) :
    ∃ j, i = c :: j ∧ StrictChars j l true t' r := by
  have hlead {n : Nat} (hn : n ≤ 0x10FFFF) {bs : List UInt8} (hbs : encode n ++ bs = c :: l) : False := by
    obtain ⟨a, s, hs, ha, -⟩ := Utf8.encode_shape hn
    rw [hs, List.cons_append, List.cons.injEq] at hbs
    exact ha (hbs.1 ▸ hc)
  generalize hbs : c :: l = bs at h
  cases h with
  | nil r t => cases hbs
  | plain hu h =>
    cases hbs
    exact ⟨_, rfl, h⟩
  | escape hx h =>
    cases hbs
    exact absurd (UInt8.le_trans hc.1 (shortEscapes_ascii hx)) (by decide)
  | unit hn hs h =>
    have := hn.lt
    exact (hlead (by omega) hbs.symm).elim
  | pair hhi hlo h₁ h₂ h => exact (hlead (pairCode_le h₁ h₂).2 hbs.symm).elim

theorem StrictChars.conts {s l : List UInt8} (hs : ∀ c ∈ s, Utf8.Cont c) : ∀ {i : List UInt8} {t : Bool},
    StrictChars i (s ++ l) t t' r → ∃ j t₁, i = s ++ j ∧ StrictChars j l t₁ t' r := by
  induction s with
  | nil => exact fun {i t} h => ⟨i, t, rfl, h⟩
  | cons c s ih =>
    intro i t h
    obtain ⟨hc, hs⟩ := List.forall_mem_cons.1 hs
    obtain ⟨i', rfl, h'⟩ := h.cont hc
    obtain ⟨j, t₁, rfl, hj⟩ := ih hs h'
    exact ⟨j, t₁, rfl, hj⟩

theorem StrictChars.body (h : StrictChars i bs t t' r) (htext : Utf8.Text bs) : StringBody i bs r := by
  induction hn : bs.length using Nat.strong_induction_on generalizing i bs t with
  | _ n ih =>
    subst hn
    cases h with
    | nil r t => exact .nil r
    | @plain c i bs r t t' hc h =>
      obtain ⟨n, l, hscalar, hbs, hl⟩ := htext.exists_encode (List.cons_ne_nil _ _)
      obtain ⟨a, s, hs, -, hcont⟩ := Utf8.encode_shape hscalar.1
      have hseq := (Utf8.seq_encode_iff hscalar.1).2 hscalar
      rw [hs] at hbs hseq
      rw [List.cons_append] at hbs
      obtain ⟨rfl, rfl⟩ := List.cons.inj hbs
      obtain ⟨j, t₁, rfl, hj⟩ := StrictChars.conts hcont h
      have hu : ∀ b ∈ c :: s, Unescaped b := List.forall_mem_cons.2 ⟨hc, fun b hb => .of_cont (hcont b hb)⟩
      refine StringBody.char hseq hu (ih l.length ?_ hj hl rfl)
      simp only [List.length_cons, List.length_append]
      omega
    | @escape c x i bs r t t' hx h =>
      have hle : x.toNat ≤ 0x7F := UInt8.le_iff_toNat_le.1 (shortEscapes_ascii hx)
      have hascii : encode x.toNat = [x] := by
        unfold encode
        rw [if_pos hle, UInt8.ofNat_toNat]
      rw [← List.singleton_append, ← hascii, Utf8.text_encode_append (by omega)] at htext
      exact .escape hx (ih bs.length (Nat.lt_succ_self _) h htext.2 rfl)
    | @unit num i bs r t t' hn hs h =>
      have hlt := hn.lt
      rw [Utf8.text_encode_append (by omega)] at htext
      refine .unit hn htext.1.2 (ih bs.length ?_ h htext.2 rfl)
      rw [List.length_append]
      exact Nat.lt_add_of_pos_left (List.length_pos_iff.2 (Utf8.encode_ne_nil _))
    | @pair hi lo i bs r t t' hhi hlo h₁ h₂ h =>
      rw [Utf8.text_encode_append (pairCode_le h₁ h₂).2] at htext
      refine .pair hhi hlo h₁ h₂ (ih bs.length ?_ h htext.2 rfl)
      rw [List.length_append]
      exact Nat.lt_add_of_pos_left (List.length_pos_iff.2 (Utf8.encode_ne_nil _))

/-! ### Where the characters end -/

theorem Stop.head (hr : Stop (c :: i)) : c = ch '"' ∨ c = 0 ∨ c = ch '\\' := by
  generalize hj : c :: i = j at hr
  rcases hr with r | r | ⟨r, hu, hc⟩ | hu | - | -
  · exact .inl (List.cons.inj hj).1
  · exact .inr (.inl (List.cons.inj hj).1)
  · exact .inr (.inr (List.cons.inj hj).1)
  · exact .inr (.inr (List.cons.inj hj).1)
  · cases hj
  · exact .inr (.inr (List.cons.inj hj).1)

theorem Stop.bad (hr : Stop (ch '\\' :: c :: i)) : unescape c = none ∧ (c = ch 'u' → unicodeEscape i = none) := by
  generalize hj : ch '\\' :: c :: i = j at hr
  rcases hr with r | r | ⟨r, hu, hc⟩ | hu | - | -
  · exact absurd (List.cons.inj hj).1 (by decide)
  · exact absurd (List.cons.inj hj).1 (by decide)
  · obtain ⟨rfl, -⟩ := List.cons.inj (List.cons.inj hj).2
    exact ⟨hc, fun h => absurd h hu⟩
  · obtain ⟨rfl, rfl⟩ := List.cons.inj (List.cons.inj hj).2
    exact ⟨by decide, fun _ => hu⟩
  · cases hj
  · cases (List.cons.inj hj).2

theorem Chars.of_stop (h : Chars r bs t t' i) (hr : Stop r) : bs = [] ∧ t' = t ∧ i = r := by
  cases h with
  | nil r t => exact ⟨rfl, rfl, rfl⟩
  | plain h0 hq hb h =>
    rcases hr.head with rfl | rfl | rfl
    · exact absurd rfl hq
    · exact absurd rfl h0
    · exact absurd rfl hb
  | escape hx h =>
    rw [hr.bad.1] at hx
    cases hx
  | unicode hu h =>
    rw [hr.bad.2 rfl] at hu
    cases hu

theorem Chars.unique (h : Chars i bs t t' r) (hr : Stop r) : ∀ {bs₁ r₁ : List UInt8} {t₁ : Bool},
    Chars i bs₁ t t₁ r₁ → Stop r₁ → bs₁ = bs ∧ t₁ = t' ∧ r₁ = r := by
  induction h with
  | nil r t => exact fun h₁ _ => h₁.of_stop hr
  | @plain c i bs r t t' h0 hq hb h ih =>
    intro bs₁ r₁ t₁ h₁ hr₁
    generalize hj : c :: i = j at h₁
    cases h₁ with
    | nil r t =>
      subst hj
      exact absurd hr₁.head (not_or.2 ⟨hq, not_or.2 ⟨h0, hb⟩⟩)
    | plain h0' hq' hb' h' =>
      cases hj
      obtain ⟨rfl, rfl, rfl⟩ := ih hr h' hr₁
      exact ⟨rfl, rfl, rfl⟩
    | escape hx h' => exact absurd (List.cons.inj hj).1 hb
    | unicode hu h' => exact absurd (List.cons.inj hj).1 hb
  | @escape c x i bs r t t' hx h ih =>
    intro bs₁ r₁ t₁ h₁ hr₁
    generalize hj : ch '\\' :: c :: i = j at h₁
    cases h₁ with
    | nil r t =>
      subst hj
      rw [hr₁.bad.1] at hx
      cases hx
    | plain h0' hq' hb' h' => exact absurd (List.cons.inj hj).1.symm hb'
    | escape hx' h' =>
      obtain ⟨rfl, rfl⟩ := List.cons.inj (List.cons.inj hj).2
      rw [hx] at hx'
      cases hx'
      obtain ⟨rfl, rfl, rfl⟩ := ih hr h' hr₁
      exact ⟨rfl, rfl, rfl⟩
    | unicode hu h' => exact absurd (List.cons.inj (List.cons.inj hj).2).1 (unescape_ne_u hx)
  | @unicode i j bytes bs r t t' hu h ih =>
    intro bs₁ r₁ t₁ h₁ hr₁
    generalize hj : ch '\\' :: ch 'u' :: i = k at h₁
    cases h₁ with
    | nil r t =>
      subst hj
      rw [hr₁.bad.2 rfl] at hu
      cases hu
    | plain h0' hq' hb' h' => exact absurd (List.cons.inj hj).1.symm hb'
    | escape hx' h' => exact absurd (List.cons.inj (List.cons.inj hj).2).1.symm (unescape_ne_u hx')
    | unicode hu' h' =>
      obtain ⟨-, rfl⟩ := List.cons.inj (List.cons.inj hj).2
      rw [hu] at hu'
      cases hu'
      obtain ⟨rfl, rfl, rfl⟩ := ih hr h' hr₁
      exact ⟨rfl, rfl, rfl⟩

end Pcl

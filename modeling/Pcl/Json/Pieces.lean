import Pcl.Json.StringBody

/-!
# The pieces of a string body

What stands behind an opening quote is cut into single bytes, short escapes and `\u` escapes with four bytes each,
up to a quote, a NUL or the end (`pieces`). `Means ps bs`: the pieces can be read as the bytes `bs`, a `\u` escape
by what `pcl_strtoi` makes of its four bytes. The standard has some of the pieces only (`Piece.Std`).
-/

namespace Pcl

open Utf8 (encode)

variable {i j r num bs : List UInt8} {c : UInt8} {t t' : Bool}

/-- A piece of the body of a string literal. -/
inductive Piece where
  | byte (c : UInt8)
  | escape (c : UInt8)
  | unit (num : List UInt8)

/-- Put a piece in front. -/
def pushPiece (p : Piece) (x : List Piece × List UInt8) : List Piece × List UInt8 := (p :: x.1, x.2)

/-- The pieces at the start of a text, and the rest of it. -/
def pieces : List UInt8 → List Piece × List UInt8
  | [] => ([], [])
  | c :: i =>
    if c = 0 ∨ c = ch '"' then ([], c :: i)
    else if c ≠ ch '\\' then pushPiece (.byte c) (pieces i)
    else
      match i with
      | [] => ([], [c])
      | d :: i =>
        if d ≠ ch 'u' then pushPiece (.escape d) (pieces i)
        else
          match i with
          | x₁ :: x₂ :: x₃ :: x₄ :: i => pushPiece (.unit [x₁, x₂, x₃, x₄]) (pieces i)
          | i => ([], c :: d :: i)

/-- The standard has the piece: no control character stands for itself, and `\u` is followed by hexadecimal
digits. -/
def Piece.Std : Piece → Prop
  | .byte c => 0x20 ≤ c
  | .escape _ => True
  | .unit num => Hex4 num

/-- What the pieces stand for. -/
inductive Means : List Piece → List UInt8 → Prop
  | nil : Means [] []
  | byte {c : UInt8} {ps : List Piece} {bs : List UInt8} (h : Means ps bs) : Means (.byte c :: ps) (c :: bs)
  | escape {c x : UInt8} {ps : List Piece} {bs : List UInt8} (hx : (c, x) ∈ shortEscapes) (h : Means ps bs) :
      Means (.escape c :: ps) (x :: bs)
  | unit {num bs : List UInt8} {n : UInt32} {ps : List Piece} (hn : hexUnit num = some n) (hs : ¬ High n.toNat)
      (hle : n.toNat ≤ 0x10FFFF) (h : Means ps bs) : Means (.unit num :: ps) (encode n.toNat ++ bs)
  | pair {hi lo bs : List UInt8} {n m : UInt32} {ps : List Piece} (hn : hexUnit hi = some n) (hm : hexUnit lo = some m)
      (h₁ : High n.toNat) (h₂ : Low m.toNat) (h : Means ps bs) :
      Means (.unit hi :: .unit lo :: ps) (encode (pairCode n.toNat m.toNat) ++ bs)

/-- The last piece is a `\u` escape. -/
def EndsInUnit (ps : List Piece) : Prop := ∃ num, ps.getLast? = some (.unit num)

/-- Whether there is a NUL behind the text of a buffer when the pieces are read, where `t` says so before. -/
def terminated (t : Bool) : List Piece → Bool
  | [] => t
  | .unit _ :: ps => terminated false ps
  | _ :: ps => terminated true ps

theorem terminated_eq {ps : List Piece} : terminated t ps = false ↔ EndsInUnit ps ∨ ps = [] ∧ t = false := by
  induction ps generalizing t with
  | nil => simp [terminated, EndsInUnit]
  | cons p ps ih =>
    have hlast : EndsInUnit (p :: ps) ↔ EndsInUnit ps ∨ ps = [] ∧ ∃ num, p = .unit num := by
      cases ps with
      | nil => simp [EndsInUnit]
      | cons q ps => simp [EndsInUnit]
    rw [hlast]
    cases p with
    | byte c => simp [terminated, ih]
    | escape c => simp [terminated, ih]
    | unit num => simp [terminated, ih]

/-! ### Cutting off the first piece -/

/-- The bytes of a piece in front of a text. -/
def Piece.Heads : Piece → List UInt8 → List UInt8 → Prop
  | .byte c, i, j => i = c :: j ∧ c ≠ 0 ∧ c ≠ ch '"' ∧ c ≠ ch '\\'
  | .escape c, i, j => i = ch '\\' :: c :: j ∧ c ≠ ch 'u'
  | .unit num, i, j => i = ch '\\' :: ch 'u' :: (num ++ j) ∧ num.length = 4

theorem Piece.Heads.pieces {p : Piece} (h : p.Heads i j) : pieces i = pushPiece p (pieces j) := by
  cases p with
  | byte c =>
    obtain ⟨rfl, h0, hq, hb⟩ := h
    rw [Pcl.pieces.eq_def]
    simp only [h0, hq, hb, or_self, ↓reduceIte, ne_eq, not_false_eq_true]
  | escape c =>
    obtain ⟨rfl, hu⟩ := h
    rw [Pcl.pieces.eq_def]
    simp only [show ¬ (ch '\\' = 0 ∨ ch '\\' = ch '"') by decide, hu, ↓reduceIte, ne_eq, not_true_eq_false,
      not_false_eq_true]
  | unit num =>
    obtain ⟨rfl, hlen⟩ := h
    match num, hlen with
    | [x₁, x₂, x₃, x₄], _ =>
      rw [Pcl.pieces.eq_def]
      simp only [show ¬ (ch '\\' = 0 ∨ ch '\\' = ch '"') by decide, ↓reduceIte, ne_eq, not_true_eq_false, List.cons_append,
        List.nil_append]

theorem pieces_cases (i : List UInt8) : pieces i = ([], i) ∨ ∃ (p : Piece) (j : List UInt8), p.Heads i j := by
  match i with
  | [] => exact .inl rfl
  | c :: i =>
    by_cases hend : c = 0 ∨ c = ch '"'
    · refine .inl ?_
      rw [pieces.eq_def]
      simp only [hend, ↓reduceIte]
    · obtain ⟨h0, hq⟩ := not_or.1 hend
      by_cases hb : c = ch '\\'
      · subst hb
        match i with
        | [] => exact .inl rfl
        | d :: i =>
          by_cases hu : d = ch 'u'
          · subst hu
            match i with
            | x₁ :: x₂ :: x₃ :: x₄ :: i => exact .inr ⟨.unit [x₁, x₂, x₃, x₄], i, rfl, rfl⟩
            | [] | [_] | [_, _] | [_, _, _] => exact .inl rfl
          · exact .inr ⟨.escape d, i, rfl, hu⟩
      · exact .inr ⟨.byte c, i, rfl, h0, hq, hb⟩

theorem pieces_cons {p : Piece} {ps : List Piece} (h : pieces i = (p :: ps, r)) :
    ∃ j, p.Heads i j ∧ pieces j = (ps, r) := by
  rcases pieces_cases i with hnil | ⟨q, j, hq⟩
  · rw [hnil] at h
    cases h
  · rw [hq.pieces] at h
    obtain ⟨hps, hr⟩ := Prod.mk.inj h
    obtain ⟨rfl, hrest⟩ := List.cons.inj hps
    exact ⟨j, hq, Prod.ext hrest hr⟩

theorem pieces_nil (h : pieces i = ([], r)) : i = r := by
  rcases pieces_cases i with hnil | ⟨q, j, hq⟩
  · rw [hnil] at h
    exact (Prod.mk.inj h).2
  · rw [hq.pieces] at h
    cases (Prod.mk.inj h).1

/-! ### The parser and the standard -/

/-- What the pieces stand for is what the parser reads. -/
theorem Means.chars {ps : List Piece} (h : Means ps bs) : ∀ {i : List UInt8} {t : Bool}, pieces i = (ps, r) →
    Chars i bs t (terminated t ps) r := by
  induction h with
  | nil =>
    intro i t hi
    rw [pieces_nil hi]
    exact .nil r t
  | byte h ih =>
    intro i t hi
    obtain ⟨j, ⟨rfl, h0, hq, hb⟩, hj⟩ := pieces_cons hi
    exact .plain h0 hq hb (ih hj)
  | escape hx h ih =>
    intro i t hi
    obtain ⟨j, ⟨rfl, -⟩, hj⟩ := pieces_cons hi
    exact .escape (unescape_short.2 hx) (ih hj)
  | unit hn hs hle h ih =>
    intro i t hi
    obtain ⟨j, ⟨rfl, hlen⟩, hj⟩ := pieces_cons hi
    exact .unicode (unicodeEscape_unit hlen hn hs hle j) (ih hj)
  | pair hn hm h₁ h₂ h ih =>
    intro i t hi
    obtain ⟨j, ⟨rfl, hlen⟩, hj⟩ := pieces_cons hi
    obtain ⟨k, ⟨rfl, hlen'⟩, hk⟩ := pieces_cons hj
    exact .unicode (unicodeEscape_pair hlen hlen' hn hm h₁ h₂ k) (ih hk)

/-- Standard pieces stand for a body of the standard, if that is a text. -/
theorem Means.strict {ps : List Piece} (h : Means ps bs) (hstd : ∀ p ∈ ps, p.Std) : ∀ {i : List UInt8} {t : Bool},
    pieces i = (ps, r) → StrictChars i bs t (terminated t ps) r := by
  induction h with
  | nil =>
    intro i t hi
    rw [pieces_nil hi]
    exact .nil r t
  | byte h ih =>
    intro i t hi
    obtain ⟨hc, hstd⟩ := List.forall_mem_cons.1 hstd
    obtain ⟨j, ⟨rfl, -, hq, hb⟩, hj⟩ := pieces_cons hi
    exact .plain ⟨hc, hq, hb⟩ (ih hstd hj)
  | escape hx h ih =>
    intro i t hi
    obtain ⟨-, hstd⟩ := List.forall_mem_cons.1 hstd
    obtain ⟨j, ⟨rfl, -⟩, hj⟩ := pieces_cons hi
    exact .escape hx (ih hstd hj)
  | @unit num bs n ps hn hs hle h ih =>
    intro i t hi
    obtain ⟨hnum, hstd⟩ := List.forall_mem_cons.1 hstd
    obtain ⟨j, ⟨rfl, -⟩, hj⟩ := pieces_cons hi
    have hval : n.toNat = numeral 16 num := hnum.value hn
    rw [hval] at hs ⊢
    exact .unit hnum hs (ih hstd hj)
  | @pair hi' lo bs n m ps hn hm h₁ h₂ h ih =>
    intro i t hi
    obtain ⟨hnum, hstd⟩ := List.forall_mem_cons.1 hstd
    obtain ⟨hnum', hstd⟩ := List.forall_mem_cons.1 hstd
    obtain ⟨j, ⟨rfl, -⟩, hj⟩ := pieces_cons hi
    obtain ⟨k, ⟨rfl, -⟩, hk⟩ := pieces_cons hj
    have hval : n.toNat = numeral 16 hi' := hnum.value hn
    have hval' : m.toNat = numeral 16 lo := hnum'.value hm
    rw [hval] at h₁ ⊢
    rw [hval'] at h₂ ⊢
    exact .pair hnum hnum' h₁ h₂ (ih hstd hk)

theorem pairPoint_cases {first code : UInt32} {k : List UInt8} (h : pairPoint first k = some (code, j)) :
    ∃ lo m, k = ch '\\' :: ch 'u' :: (lo ++ j) ∧ lo.length = 4 ∧ hexUnit lo = some m ∧ Low m.toNat ∧
      code = (0x10000 : UInt32) + ((first &&& 0x03ff) <<< 10) + (m &&& 0x03ff) := by
  unfold pairPoint at h
  by_cases h6 : k.length < 6 ∨ k.headD 0 ≠ ch '\\' ∨ (k.drop 1).headD 0 ≠ ch 'u'
  · rw [if_pos h6] at h
    cases h
  rw [if_neg h6] at h
  obtain ⟨hlen, hb, hu⟩ : 6 ≤ k.length ∧ k.headD 0 = ch '\\' ∧ (k.drop 1).headD 0 = ch 'u' := by
    simpa only [not_or, not_lt, ne_eq, not_not] using h6
  obtain ⟨c, d, k, rfl⟩ : ∃ c d l, k = c :: d :: l := by
    match k with
    | [] | [_] => simp at hlen
    | c :: d :: l => exact ⟨c, d, l, rfl⟩
  have hc : c = ch '\\' := hb
  have hd : d = ch 'u' := hu
  subst hc hd
  have hdrop : (ch '\\' :: ch 'u' :: k).drop 2 = k := rfl
  rw [hdrop] at h
  cases hm : hexUnit (k.take 4) with
  | none =>
    rw [hm] at h
    cases h
  | some m =>
    simp only [hm] at h
    by_cases hlow : m < 0xdc00 ∨ m > 0xdfff
    · rw [if_pos hlow] at h
      cases h
    · rw [if_neg hlow, Option.some.injEq, Prod.mk.injEq] at h
      obtain ⟨rfl, rfl⟩ := h
      refine ⟨k.take 4, m, ?_, ?_, hm, by_contra fun h => hlow ((low_iff m).2 h), rfl⟩
      · rw [List.take_append_drop]
      · simp only [List.length_cons] at hlen
        rw [List.length_take]
        omega

theorem unicodeEscape_cases {bytes : List UInt8} (h : unicodeEscape i = some (bytes, j)) :
    (∃ num n, i = num ++ j ∧ num.length = 4 ∧ hexUnit num = some n ∧ ¬ High n.toNat ∧ n.toNat ≤ 0x10FFFF ∧
      bytes = encode n.toNat) ∨
    ∃ hi lo n m, i = hi ++ ch '\\' :: ch 'u' :: (lo ++ j) ∧ hi.length = 4 ∧ lo.length = 4 ∧ hexUnit hi = some n ∧
      hexUnit lo = some m ∧ High n.toNat ∧ Low m.toNat ∧ bytes = encode (pairCode n.toNat m.toNat) := by
  obtain ⟨code, hc, he⟩ := unicodeEscape_eq h
  obtain ⟨hle, rfl⟩ := utf8Encode_ok_iff.1 he
  unfold codePoint at hc
  by_cases h4 : i.length < 4
  · rw [if_pos h4] at hc
    cases hc
  rw [if_neg h4] at hc
  cases hn : hexUnit (i.take 4) with
  | none =>
    rw [hn] at hc
    cases hc
  | some n =>
    have htake : (i.take 4).length = 4 := by
      rw [List.length_take]
      omega
    simp only [hn] at hc
    by_cases hhigh : n ≥ 0xd800 ∧ n ≤ 0xdbff
    · rw [if_pos hhigh] at hc
      obtain ⟨lo, m, hi, hlo, hm, hlow, rfl⟩ := pairPoint_cases hc
      have hval := pairCode_bits ((high_iff n).1 hhigh) hlow
      refine .inr ⟨i.take 4, lo, n, m, ?_, htake, hlo, hn, hm, (high_iff n).1 hhigh, hlow, ?_⟩
      · rw [← hi, List.take_append_drop]
      · rw [hval, toNat_ofNat_small (pairCode_le ((high_iff n).1 hhigh) hlow).2]
    · rw [if_neg hhigh, Option.some.injEq, Prod.mk.injEq] at hc
      obtain ⟨rfl, rfl⟩ := hc
      exact .inl ⟨i.take 4, n, (List.take_append_drop 4 i).symm, htake, hn, fun h => hhigh ((high_iff n).2 h), hle, rfl⟩

/-- The parser reads what the pieces stand for. -/
theorem Chars.means (h : Chars i bs t t' r) (hr : pieces r = ([], r)) :
    ∃ ps, pieces i = (ps, r) ∧ Means ps bs ∧ t' = terminated t ps := by
  induction h with
  | nil r t => exact ⟨[], hr, .nil, rfl⟩
  | @plain c i bs r t t' h0 hq hb h ih =>
    obtain ⟨ps, hi, hps, ht⟩ := ih hr
    refine ⟨.byte c :: ps, ?_, .byte hps, ht⟩
    rw [Piece.Heads.pieces (p := .byte c) ⟨rfl, h0, hq, hb⟩, hi]
    rfl
  | @escape c x i bs r t t' hx h ih =>
    obtain ⟨ps, hi, hps, ht⟩ := ih hr
    refine ⟨.escape c :: ps, ?_, .escape (unescape_short.1 hx) hps, ht⟩
    rw [Piece.Heads.pieces (p := .escape c) ⟨rfl, unescape_ne_u hx⟩, hi]
    rfl
  | unicode hu h ih =>
    obtain ⟨ps, hi, hps, ht⟩ := ih hr
    rcases unicodeEscape_cases hu with ⟨num, n, rfl, hlen, hn, hs, hle, rfl⟩ |
      ⟨hi', lo, n, m, rfl, hlen, hlen', hn, hm, h₁, h₂, hbytes⟩
    · refine ⟨.unit num :: ps, ?_, .unit hn hs hle hps, ht⟩
      rw [Piece.Heads.pieces (p := .unit num) ⟨rfl, hlen⟩, hi]
      rfl
    · rw [hbytes]
      refine ⟨.unit hi' :: .unit lo :: ps, ?_, .pair hn hm h₁ h₂ hps, ht⟩
      rw [Piece.Heads.pieces (p := .unit hi') ⟨rfl, hlen⟩, Piece.Heads.pieces (p := .unit lo) ⟨rfl, hlen'⟩, hi]
      rfl

theorem StrictChars.std (h : StrictChars i bs t t' r) (hr : pieces r = ([], r)) :
    ∃ ps, pieces i = (ps, r) ∧ ∀ p ∈ ps, p.Std := by
  induction h with
  | nil r t => exact ⟨[], hr, by simp⟩
  | @plain c i bs r t t' hc h ih =>
    obtain ⟨ps, hi, hps⟩ := ih hr
    refine ⟨.byte c :: ps, ?_, List.forall_mem_cons.2 ⟨hc.1, hps⟩⟩
    have h0 : c ≠ 0 := by
      rintro rfl
      exact absurd hc.1 (by decide)
    rw [Piece.Heads.pieces (p := .byte c) ⟨rfl, h0, hc.2⟩, hi]
    rfl
  | @escape c x i bs r t t' hx h ih =>
    obtain ⟨ps, hi, hps⟩ := ih hr
    refine ⟨.escape c :: ps, ?_, List.forall_mem_cons.2 ⟨trivial, hps⟩⟩
    rw [Piece.Heads.pieces (p := .escape c) ⟨rfl, unescape_ne_u (unescape_short.2 hx)⟩, hi]
    rfl
  | @unit num i bs r t t' hn hs h ih =>
    obtain ⟨ps, hi, hps⟩ := ih hr
    refine ⟨.unit num :: ps, ?_, List.forall_mem_cons.2 ⟨hn, hps⟩⟩
    rw [Piece.Heads.pieces (p := .unit num) ⟨rfl, hn.1⟩, hi]
    rfl
  | @pair hi' lo i bs r t t' hhi hlo h₁ h₂ h ih =>
    obtain ⟨ps, hi, hps⟩ := ih hr
    refine ⟨.unit hi' :: .unit lo :: ps, ?_, List.forall_mem_cons.2 ⟨hhi, List.forall_mem_cons.2 ⟨hlo, hps⟩⟩⟩
    rw [Piece.Heads.pieces (p := .unit hi') ⟨rfl, hhi.1⟩, Piece.Heads.pieces (p := .unit lo) ⟨rfl, hlo.1⟩, hi]
    rfl

end Pcl

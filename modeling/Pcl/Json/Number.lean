import Pcl.Json.RoundTrip

/-!
# Numbers of the standard

`JNumber` is a number as the standard writes it. `strtoll` and `strtod` read all of its text, and the value
of the parser is an integer exactly where there is no fraction and no exponent.
-/

namespace Pcl

variable {R : Type} {u k : List UInt8} {c : UInt8}

/-- The mark of an exponent. -/
def ExpMark (c : UInt8) : Prop := c = ch 'e' ∨ c = ch 'E'

instance (c : UInt8) : Decidable (ExpMark c) := by unfold ExpMark; infer_instance

/-- One digit or more. -/
def Digits (l : List UInt8) : Prop := l ≠ [] ∧ ∀ c ∈ l, isdigit c = true

/-- A number: an optional minus, 0 or digits without a leading zero, an optional fraction, and an optional exponent
of a mark, a sign and digits. -/
structure JNumber where
  neg : Bool
  int : List UInt8
  frac : Option (List UInt8)
  exp : Option (UInt8 × List UInt8 × List UInt8)
  int_digits : Digits int
  int_zero : int.headD 0 = ch '0' → int = [ch '0']
  frac_digits : ∀ d ∈ frac, Digits d
  exp_ok : ∀ p ∈ exp, ExpMark p.1 ∧ (p.2.1 = [] ∨ p.2.1 = [ch '+'] ∨ p.2.1 = [ch '-']) ∧ Digits p.2.2

namespace JNumber

/-- The text of a fraction. -/
def fracText (x : JNumber) : List UInt8 :=
  match x.frac with
  | none => []
  | some d => ch '.' :: d

/-- The text of an exponent. -/
def expText (x : JNumber) : List UInt8 :=
  match x.exp with
  | none => []
  | some (mark, sign, d) => mark :: (sign ++ d)

/-- The text behind the minus. -/
def unsigned (x : JNumber) : List UInt8 := x.int ++ (x.fracText ++ x.expText)

/-- The text of a number. -/
def text (x : JNumber) : List UInt8 := (if x.neg then [ch '-'] else []) ++ x.unsigned

/-- The digits of the fraction. -/
def fracDigits (x : JNumber) : List UInt8 := x.frac.getD []

/-- The exponent. -/
def exponent (x : JNumber) : Int :=
  match x.exp with
  | none => 0
  | some (_, sign, d) => if sign = [ch '-'] then -(numeral 10 d : Int) else numeral 10 d

/-- There is no fraction and no exponent. -/
def isInt (x : JNumber) : Bool := x.frac.isNone && x.exp.isNone

/-- The integer of the digits before the fraction. -/
def toInt (x : JNumber) : Int := if x.neg then -(numeral 10 x.int : Int) else numeral 10 x.int

/-- The number is representable as `v`: as an integer of 64 bits, or as a `double`, where a number that is too
small may be zero. -/
def Denotes (D : Doubles R) (x : JNumber) (v : Json R) : Prop :=
  if x.isInt then llongMin ≤ x.toInt ∧ x.toInt ≤ llongMax ∧ v = .int x.toInt
  else ∃ num range, D.ofDecimal x.neg (numeral 10 (x.int ++ x.fracDigits)) (x.exponent - x.fracDigits.length) =
    (num, range) ∧ (range = true → D.isZero num = true) ∧ v = .real num

theorem Denotes.unique {D : Doubles R} {x : JNumber} {v v' : Json R} (h : x.Denotes D v) (h' : x.Denotes D v') : v = v' := by
  unfold Denotes at h h'
  split at h
  · rename_i hx
    rw [if_pos hx] at h'
    exact h.2.2.trans h'.2.2.symm
  · rename_i hx
    rw [if_neg hx] at h'
    obtain ⟨num, range, heq, -, rfl⟩ := h
    obtain ⟨num', range', heq', -, rfl⟩ := h'
    cases heq.symm.trans heq'
    rfl

theorem denotes_int (D : Doubles R) {x : JNumber} (h : x.isInt = true) (hmin : llongMin ≤ x.toInt)
    (hmax : x.toInt ≤ llongMax) : x.Denotes D (.int x.toInt) := by
  unfold Denotes
  rw [if_pos h]
  exact ⟨hmin, hmax, rfl⟩

end JNumber

/-! ### The conversions -/

theorem isdigit_nul : isdigit 0 = false := by decide

theorem takeWhile_digits (hu : ∀ c ∈ u, isdigit c = true) (hk : isdigit (k.headD 0) = false) :
    (u ++ k).takeWhile isdigit = u ∧ (u ++ k).dropWhile isdigit = k := by
  cases k with
  | nil =>
    rw [List.append_nil]
    exact takeWhile_all hu
  | cons c k =>
    obtain ⟨htake, hdrop⟩ := takeWhile_all hu
    rw [List.headD_cons] at hk
    rw [takeWhile_stop hk, dropWhile_stop hk, htake, hdrop]
    exact ⟨rfl, rfl⟩

theorem Digits.head (h : Digits u) (k : List UInt8) : isdigit ((u ++ k).headD 0) = true := by
  obtain ⟨c, t, rfl⟩ := List.exists_cons_of_ne_nil h.1
  exact h.2 c List.mem_cons_self

theorem scanSign_digits (h : Digits u) (k : List UInt8) : scanSign (u ++ k) = (false, u ++ k) := by
  obtain ⟨c, t, rfl⟩ := List.exists_cons_of_ne_nil h.1
  obtain ⟨hminus, hplus, -⟩ := isdigit_ne (h.2 c List.mem_cons_self)
  rw [List.cons_append, scanSign, if_neg hminus, if_neg hplus]

theorem ExpMark.not_digit (h : ExpMark c) : isdigit c = false ∧ c ≠ ch '.' ∧ c ≠ ch '-' ∧ c ≠ ch '+' := by
  rcases h with rfl | rfl <;> decide

namespace JNumber
variable (x : JNumber)

theorem exp_some {mark : UInt8} {sign d : List UInt8} (h : x.exp = some (mark, sign, d)) :
    ExpMark mark ∧ (sign = [] ∨ sign = [ch '+'] ∨ sign = [ch '-']) ∧ Digits d := x.exp_ok _ h

theorem expText_head : isdigit (x.expText.headD 0) = false ∧ x.expText.headD 0 ≠ ch '.' := by
  unfold expText
  cases hx : x.exp with
  | none => decide
  | some p =>
    obtain ⟨hdigit, hdot, -⟩ := (x.exp_ok p hx).1.not_digit
    exact ⟨hdigit, hdot⟩

theorem fracText_head : isdigit ((x.fracText ++ x.expText).headD 0) = false := by
  unfold fracText
  cases x.frac with
  | none => exact x.expText_head.1
  | some d => exact (by decide : isdigit (ch '.') = false)

theorem scanFrac_text : scanFrac (x.fracText ++ x.expText) = (x.fracDigits, x.expText) := by
  obtain ⟨hdigit, hdot⟩ := x.expText_head
  unfold fracText fracDigits
  cases hx : x.frac with
  | none =>
    show scanFrac x.expText = ([], x.expText)
    generalize x.expText = t at hdot
    cases t with
    | nil => rfl
    | cons c t =>
      rw [List.headD_cons] at hdot
      rw [scanFrac, if_neg hdot]
  | some d =>
    obtain ⟨htake, hdrop⟩ := takeWhile_digits (x.frac_digits d hx).2 hdigit
    show scanFrac (ch '.' :: (d ++ x.expText)) = (d, x.expText)
    rw [scanFrac, if_pos rfl, htake, hdrop]

theorem scanExp_text : scanExp x.expText = (x.exponent, []) := by
  unfold expText exponent
  cases hx : x.exp with
  | none => rfl
  | some p =>
    obtain ⟨mark, sign, d⟩ := p
    obtain ⟨hmark, hsign, hd⟩ := x.exp_some hx
    have hscan : scanSign (sign ++ d) = (decide (sign = [ch '-']), d) := by
      have hd' := scanSign_digits hd []
      rw [List.append_nil] at hd'
      rcases hsign with rfl | rfl | rfl
      · exact hd'
      · rfl
      · rfl
    have hhead := hd.head []
    rw [List.append_nil] at hhead
    obtain ⟨htake, hdrop⟩ := takeWhile_all hd.2
    show scanExp (mark :: (sign ++ d)) = _
    rw [scanExp]
    simp only [hscan, htake, hdrop, decide_eq_true_eq]
    rw [if_pos ⟨hmark, hhead⟩]

theorem unsigned_head : isdigit (x.unsigned.headD 0) = true := x.int_digits.head _

theorem text_head : startsNumber (x.text.headD 0) := by
  unfold text
  cases x.neg with
  | true => exact .inl rfl
  | false => exact .inr x.unsigned_head

theorem scanSign_text : scanSign x.text = (x.neg, x.unsigned) := by
  unfold text
  cases x.neg with
  | true => rfl
  | false => exact scanSign_digits x.int_digits _

theorem text_space : isspace (x.text.headD 0) = false := x.text_head.ne.2.2.2.2.2.2.2.2.2

theorem scanDecimal_text : scanDecimal x.text = some (x.neg, numeral 10 (x.int ++ x.fracDigits),
    x.exponent - x.fracDigits.length, []) := by
  obtain ⟨htake, hdrop⟩ := takeWhile_digits x.int_digits.2 x.fracText_head
  have hne : ¬ (x.int.isEmpty && x.fracDigits.isEmpty) = true := by
    rw [Bool.and_eq_true, List.isEmpty_iff]
    exact fun h => x.int_digits.1 h.1
  unfold scanDecimal
  simp only [dropWhile_isspace_id x.text_space, scanSign_text]
  unfold unsigned
  simp only [htake, hdrop, scanFrac_text, scanExp_text, hne, Bool.false_eq_true, ↓reduceIte]

/-- `strtoll` reads the whole text if there is no fraction and no exponent. -/
theorem scanNumeral_text (h : x.isInt = true) : scanNumeral 10 x.text = some (x.toInt, []) := by
  have hu : x.unsigned = x.int := by
    unfold isInt at h
    rw [Bool.and_eq_true, Option.isNone_iff_eq_none, Option.isNone_iff_eq_none] at h
    unfold unsigned fracText expText
    rw [h.1, h.2]
    exact List.append_nil _
  obtain ⟨htake, hdrop⟩ := takeWhile_all (p := fun b => decide (digitVal b < 10))
    fun c hc => isdigit_val (x.int_digits.2 c hc)
  have hne : ¬ x.int.isEmpty = true := fun h => x.int_digits.1 (List.isEmpty_iff.1 h)
  unfold scanNumeral toInt
  simp only [dropWhile_isspace_id x.text_space, scanSign_text, skipPrefix_ten, hu, htake, hdrop, hne, Bool.false_eq_true,
    ↓reduceIte]

theorem numberValue_text (D : Doubles R) {fl : NumFlags} (hfl : (fl.exp || fl.decimal) = !x.isInt) (v : Json R)
    (r : List UInt8) : numberValue D fl x.text = some (v, r) ↔ x.Denotes D v ∧ ¬ Refused D v ∧ r = [] := by
  unfold numberValue Denotes
  rw [hfl]
  cases hx : x.isInt with
  | false =>
    obtain ⟨num, range, hp⟩ : ∃ num range, D.ofDecimal x.neg (numeral 10 (x.int ++ x.fracDigits))
        (x.exponent - x.fracDigits.length) = (num, range) := ⟨_, _, rfl⟩
    simp only [Bool.not_false, ↓reduceIte, scanDecimal_text, Bool.false_eq_true, hp]
    by_cases hrange : (range && !D.isZero num) = true
    · rw [if_pos hrange]
      rw [Bool.and_eq_true, Bool.not_eq_true'] at hrange
      constructor
      · rintro ⟨⟩
      · rintro ⟨⟨num', range', heq, hz, -⟩, -, -⟩
        cases heq
        rw [hz hrange.1] at hrange
        cases hrange.2
    · rw [if_neg hrange, accepted_eq_some]
      constructor
      · rintro ⟨hok, rfl, rfl⟩
        refine ⟨⟨num, range, rfl, fun hr => ?_, rfl⟩, hok, rfl⟩
        rwa [hr, Bool.true_and, Bool.not_eq_true', Bool.not_eq_false] at hrange
      · rintro ⟨⟨num', range', heq, -, rfl⟩, hok, rfl⟩
        cases heq
        exact ⟨hok, rfl, rfl⟩
  | true =>
    have h0 : x.text.headD 0 ≠ 0 := by
      intro h
      have hs := x.text_head
      rw [h] at hs
      exact absurd hs (by unfold startsNumber; decide)
    have hrun : strtoll x.text 10 = if x.toInt < llongMin then .error ⟨eRange, osErange, some (.lit "underflow occurred")⟩
        else if x.toInt > llongMax then .error ⟨eRange, osErange, some (.lit "overflow occurred")⟩
        else .ok (x.toInt, []) := by
      unfold strtoll
      rw [if_neg h0, x.scanNumeral_text hx]
    simp only [Bool.not_true, Bool.false_eq_true, ↓reduceIte, hrun]
    by_cases hmin : x.toInt < llongMin
    · simp only [if_pos hmin, reduceCtorEq, false_iff]
      rintro ⟨⟨h, -⟩, -⟩
      omega
    by_cases hmax : x.toInt > llongMax
    · simp only [if_neg hmin, if_pos hmax, reduceCtorEq, false_iff]
      rintro ⟨⟨-, h, -⟩, -⟩
      omega
    · simp only [if_neg hmin, if_neg hmax, accepted_eq_some]
      constructor
      · rintro ⟨hok, rfl, rfl⟩
        exact ⟨⟨by omega, by omega, rfl⟩, hok, rfl⟩
      · rintro ⟨⟨-, -, rfl⟩, hok, rfl⟩
        exact ⟨hok, rfl, rfl⟩

end JNumber
end Pcl

import Pcl.Json.Number

/-!
# Number tokens

A number token is a longest run of bytes a number can be made of. The parser never reads one that ends the
text, and it reads some that are no numbers (`Loose`): the scan only looks that there is one exponent mark, one
dot and one sign behind the mark, and what `strtoll` or `strtod` leaves of the token is left.
-/

namespace Pcl

variable {R : Type} {u k l tok : List UInt8} {c : UInt8} {fl : NumFlags}

/-- A sign. -/
def SignChar (c : UInt8) : Prop := c = ch '-' ∨ c = ch '+'

instance (c : UInt8) : Decidable (SignChar c) := by unfold SignChar; infer_instance

/-! ### The marks of a token -/

/-- `b` may come somewhere behind `a`. -/
def MayFollow (a b : UInt8) : Prop :=
  (ExpMark a → ¬ ExpMark b) ∧ (a = ch '.' → b ≠ ch '.') ∧ (SignChar a → ¬ SignChar b ∧ ¬ ExpMark b)

/-- There is one exponent mark, one dot and one sign at most, and the sign comes behind the mark; what was seen
before counts. -/
structure Marks (fl : NumFlags) (l : List UInt8) : Prop where
  once : l.Pairwise MayFollow
  mark : fl.exp = true → ∀ c ∈ l, ¬ ExpMark c
  dot : fl.decimal = true → ∀ c ∈ l, c ≠ ch '.'
  sign : fl.expsign = true → ∀ c ∈ l, ¬ SignChar c
  behind : ∀ c ∈ l, SignChar c → fl.exp = true ∨ ∃ d ∈ l, ExpMark d

/-- What was seen behind a token. -/
def NumFlags.after (fl : NumFlags) (l : List UInt8) : NumFlags :=
  ⟨fl.decimal || l.any (fun c => decide (c = ch '.')), fl.exp || l.any (fun c => decide (ExpMark c)),
    fl.expsign || l.any (fun c => decide (SignChar c))⟩

theorem ExpMark.ne (h : ExpMark c) : c ≠ ch '.' ∧ ¬ SignChar c := by
  rcases h with rfl | rfl <;> decide

theorem SignChar.ne (h : SignChar c) : c ≠ ch '.' ∧ ¬ ExpMark c := by
  rcases h with rfl | rfl <;> decide

theorem isdigit_unmarked (h : isdigit c = true) : ¬ ExpMark c ∧ c ≠ ch '.' ∧ ¬ SignChar c := by
  obtain ⟨hminus, hplus, he, hE, hdot, -⟩ := isdigit_ne h
  exact ⟨not_or.2 ⟨he, hE⟩, hdot, not_or.2 ⟨hminus, hplus⟩⟩

theorem marks_iff (fl : NumFlags) (l : List UInt8) : Marks fl l ↔ l.Pairwise MayFollow ∧
    (fl.exp = true → ∀ c ∈ l, ¬ ExpMark c) ∧ (fl.decimal = true → ∀ c ∈ l, c ≠ ch '.') ∧
    (fl.expsign = true → ∀ c ∈ l, ¬ SignChar c) ∧ ∀ c ∈ l, SignChar c → fl.exp = true ∨ ∃ d ∈ l, ExpMark d :=
  ⟨fun h => ⟨h.once, h.mark, h.dot, h.sign, h.behind⟩, fun ⟨h₁, h₂, h₃, h₄, h₅⟩ => ⟨h₁, h₂, h₃, h₄, h₅⟩⟩

theorem Marks.nil (fl : NumFlags) : Marks fl [] := by
  simp [marks_iff]

theorem marks_mark (h : ExpMark c) : Marks fl (c :: l) ↔ fl.exp = false ∧ Marks { fl with exp := true } l := by
  obtain ⟨hdot, hsign⟩ := h.ne
  simp only [marks_iff, List.pairwise_cons, MayFollow, List.forall_mem_cons]
  grind

theorem marks_dot (h : c = ch '.') : Marks fl (c :: l) ↔ fl.decimal = false ∧ Marks { fl with decimal := true } l := by
  have hmark : ¬ ExpMark c := fun hc => hc.ne.1 h
  have hsign : ¬ SignChar c := fun hc => hc.ne.1 h
  simp only [marks_iff, List.pairwise_cons, MayFollow, List.forall_mem_cons]
  grind

theorem marks_sign (h : SignChar c) :
    Marks fl (c :: l) ↔ fl.exp = true ∧ fl.expsign = false ∧ Marks { fl with expsign := true } l := by
  obtain ⟨hdot, hmark⟩ := h.ne
  simp only [marks_iff, List.pairwise_cons, MayFollow, List.forall_mem_cons]
  grind

theorem marks_digit (h : isdigit c = true) : Marks fl (c :: l) ↔ Marks fl l := by
  obtain ⟨hmark, hdot, hsign⟩ := isdigit_unmarked h
  simp only [marks_iff, List.pairwise_cons, MayFollow, List.forall_mem_cons]
  grind

theorem marks_digits (h : ∀ b ∈ u, isdigit b = true) : Marks fl (u ++ l) ↔ Marks fl l := by
  induction u with
  | nil => exact Iff.rfl
  | cons b u ih =>
    obtain ⟨hb, hu⟩ := List.forall_mem_cons.1 h
    rw [List.cons_append, marks_digit hb, ih hu]

/-! ### The scan -/

section
variable {left : Int} (hpos : ¬ left ≤ 0)
include hpos

theorem scanNumber_mark (h : ExpMark c) (hexp : fl.exp = false) :
    scanNumber (c :: l) left fl = scanNumber l (left - 1) { fl with exp := true } := by
  have h' : c = ch 'e' ∨ c = ch 'E' := h
  rw [scanNumber, if_neg hpos, if_pos h', if_neg (by rw [hexp]; exact Bool.false_ne_true)]

theorem scanNumber_dot (h : c = ch '.') (hdec : fl.decimal = false) :
    scanNumber (c :: l) left fl = scanNumber l (left - 1) { fl with decimal := true } := by
  have hmark : ¬ (c = ch 'e' ∨ c = ch 'E') := fun hc => ExpMark.ne hc |>.1 h
  rw [scanNumber, if_neg hpos, if_neg hmark, if_pos h, if_neg (by rw [hdec]; exact Bool.false_ne_true)]

theorem scanNumber_sign (h : SignChar c) (hexp : fl.exp = true) (hsign : fl.expsign = false) :
    scanNumber (c :: l) left fl = scanNumber l (left - 1) { fl with expsign := true } := by
  have hmark : ¬ (c = ch 'e' ∨ c = ch 'E') := h.ne.2
  have h' : c = ch '-' ∨ c = ch '+' := h
  rw [scanNumber, if_neg hpos, if_neg hmark, if_neg h.ne.1, if_pos h', if_neg (by rw [hexp]; exact Bool.false_ne_true),
    if_neg (by rw [hsign]; exact Bool.false_ne_true)]

theorem scanNumber_digit (h : isdigit c = true) : scanNumber (c :: l) left fl = scanNumber l (left - 1) fl := by
  obtain ⟨hmark, hdot, hsign⟩ := isdigit_unmarked h
  have hmark' : ¬ (c = ch 'e' ∨ c = ch 'E') := hmark
  have hsign' : ¬ (c = ch '-' ∨ c = ch '+') := hsign
  rw [scanNumber, if_neg hpos, if_neg hmark', if_neg hdot, if_neg hsign', if_neg fun hn => not_isdigit hn h]

end

/-- A mark that may not stand there ends the scan. -/
theorem scanNumber_bad (h : (ExpMark c ∧ fl.exp = true) ∨ (c = ch '.' ∧ fl.decimal = true) ∨
    (SignChar c ∧ (fl.exp = false ∨ fl.expsign = true))) :
    ∃ f, ∀ l left, ¬ left ≤ 0 → scanNumber (c :: l) left fl = .error f := by
  rcases h with ⟨h, hexp⟩ | ⟨h, hdec⟩ | ⟨h, hbad⟩
  · have h' : c = ch 'e' ∨ c = ch 'E' := h
    apply Exists.intro
    intro l left hpos
    rw [scanNumber, if_neg hpos, if_pos h', if_pos hexp]
  · have hmark : ¬ (c = ch 'e' ∨ c = ch 'E') := fun hc => ExpMark.ne hc |>.1 h
    apply Exists.intro
    intro l left hpos
    rw [scanNumber, if_neg hpos, if_neg hmark, if_pos h, if_pos hdec]
  · have hmark : ¬ (c = ch 'e' ∨ c = ch 'E') := h.ne.2
    have h' : c = ch '-' ∨ c = ch '+' := h
    by_cases hexp : fl.exp = true
    · have hsign : fl.expsign = true := by
        rcases hbad with hbad | hbad
        · rw [hexp] at hbad
          cases hbad
        · exact hbad
      apply Exists.intro
      intro l left hpos
      rw [scanNumber, if_neg hpos, if_neg hmark, if_neg h.ne.1, if_pos h', if_neg (by simp [hexp]), if_pos hsign]
    · apply Exists.intro
      intro l left hpos
      rw [scanNumber, if_neg hpos, if_neg hmark, if_neg h.ne.1, if_pos h', if_pos (by simp [hexp])]

theorem scanNumber_marks (hc : ¬ NumChar c) (k : List UInt8) {l : List UInt8} (hl : ∀ b ∈ l, NumChar b) : ∀ fl : NumFlags,
    (Marks fl l ∧ ∀ ext, scanNumber (l ++ c :: k ++ ext) (l ++ c :: k).length fl =
      .ok (fl.after l, ((c :: k).length : Int))) ∨
    (¬ Marks fl l ∧ ∃ f, ∀ ext, scanNumber (l ++ c :: k ++ ext) (l ++ c :: k).length fl = .error f) := by
  induction l with
  | nil =>
    refine fun fl => .inl ⟨Marks.nil fl, fun ext => ?_⟩
    have hafter : fl.after [] = fl := by simp [NumFlags.after]
    rw [hafter]
    exact scanNumber_digits hc k ext fl (u := []) fun b hb => absurd hb List.not_mem_nil
  | cons b l ih =>
    intro fl
    have ih := ih fun d hd => hl d (List.mem_cons_of_mem b hd)
    have hpos : ¬ ((b :: l ++ c :: k).length : Int) ≤ 0 := by
      simp only [List.length_append, List.length_cons]
      omega
    have hlen : ((b :: l ++ c :: k).length : Int) - 1 = (l ++ c :: k).length := by simp
    -- the byte may stand there and the scan goes on, or it fails
    have hgo {fl' : NumFlags} (hmarks : Marks fl (b :: l) ↔ Marks fl' l) (hafter : fl.after (b :: l) = fl'.after l)
        (hstep : ∀ m, scanNumber (b :: m) (b :: l ++ c :: k).length fl =
          scanNumber m ((b :: l ++ c :: k).length - 1) fl') :
        (Marks fl (b :: l) ∧ ∀ ext, scanNumber (b :: l ++ c :: k ++ ext) (b :: l ++ c :: k).length fl =
          .ok (fl.after (b :: l), ((c :: k).length : Int))) ∨
        (¬ Marks fl (b :: l) ∧ ∃ f, ∀ ext, scanNumber (b :: l ++ c :: k ++ ext) (b :: l ++ c :: k).length fl =
          .error f) := by
      have hrun (ext : List UInt8) : scanNumber (b :: l ++ c :: k ++ ext) (b :: l ++ c :: k).length fl =
          scanNumber (l ++ c :: k ++ ext) (l ++ c :: k).length fl' := by
        rw [← hlen]
        exact hstep (l ++ c :: k ++ ext)
      simp only [hrun, hmarks, hafter]
      exact ih fl'
    have hbad (h : (ExpMark b ∧ fl.exp = true) ∨ (b = ch '.' ∧ fl.decimal = true) ∨
        (SignChar b ∧ (fl.exp = false ∨ fl.expsign = true))) (hno : ¬ Marks fl (b :: l)) :
        ¬ Marks fl (b :: l) ∧ ∃ f, ∀ ext, scanNumber (b :: l ++ c :: k ++ ext) (b :: l ++ c :: k).length fl =
          .error f := by
      obtain ⟨f, hf⟩ := scanNumber_bad h
      exact ⟨hno, f, fun ext => hf _ _ hpos⟩
    by_cases he : ExpMark b
    · have hmarks : Marks fl (b :: l) ↔ _ := marks_mark he
      obtain ⟨hdot, hsign⟩ := he.ne
      cases hexp : fl.exp with
      | true => exact .inr (hbad (.inl ⟨he, hexp⟩) fun h => Bool.false_ne_true ((hmarks.1 h).1.symm.trans hexp))
      | false =>
        refine hgo (hmarks.trans (and_iff_right hexp)) ?_ fun m => scanNumber_mark hpos he hexp
        simp [NumFlags.after, he, hdot, hsign]
    by_cases hdot : b = ch '.'
    · have hmarks : Marks fl (b :: l) ↔ _ := marks_dot hdot
      have hsign : ¬ SignChar b := fun h => h.ne.1 hdot
      cases hdec : fl.decimal with
      | true =>
        exact .inr (hbad (.inr (.inl ⟨hdot, hdec⟩)) fun h => Bool.false_ne_true ((hmarks.1 h).1.symm.trans hdec))
      | false =>
        refine hgo (hmarks.trans (and_iff_right hdec)) ?_ fun m => scanNumber_dot hpos hdot hdec
        simp only [NumFlags.after, List.any_cons, decide_eq_true hdot, decide_eq_false he, decide_eq_false hsign,
          Bool.true_or, Bool.or_true, Bool.false_or]
    by_cases hsign : SignChar b
    · have hmarks : Marks fl (b :: l) ↔ _ := marks_sign hsign
      cases hexp : fl.exp with
      | false =>
        exact .inr (hbad (.inr (.inr ⟨hsign, .inl hexp⟩)) fun h => Bool.false_ne_true (hexp.symm.trans (hmarks.1 h).1))
      | true =>
        cases hexpsign : fl.expsign with
        | true =>
          exact .inr (hbad (.inr (.inr ⟨hsign, .inr hexpsign⟩))
            fun h => Bool.false_ne_true ((hmarks.1 h).2.1.symm.trans hexpsign))
        | false =>
          refine hgo (hmarks.trans ((and_iff_right hexp).trans (and_iff_right hexpsign))) ?_
            fun m => scanNumber_sign hpos hsign hexp hexpsign
          simp [NumFlags.after, he, hdot, hsign]
    · have hdigit : isdigit b = true := by
        rcases hl b List.mem_cons_self with h | h | h | h | h | h
        · exact absurd (.inl h) he
        · exact absurd (.inr h) he
        · exact absurd h hdot
        · exact absurd (.inl h) hsign
        · exact absurd (.inr h) hsign
        · exact h
      refine hgo (marks_digit hdigit) ?_ fun m => scanNumber_digit hpos hdigit
      simp [NumFlags.after, he, hdot, hsign]

end Pcl

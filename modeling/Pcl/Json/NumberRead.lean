import Pcl.Json.NumberAccept

/-!
# What number tokens are read

The parser reads the numbers of the standard that another byte follows, as the values they denote, unless these stand for
an invalid number. It reads no token at the end of the text, and it reads the loose tokens.
-/

namespace Pcl

variable {R : Type} {D : Doubles R} {u k tok r : List UInt8} {c : UInt8} {v : Json R}

/-- No mark was seen. -/
def NumFlags.none : NumFlags := ⟨false, false, false⟩

/-- A fraction or an exponent is marked in the token. -/
def marked (tok : List UInt8) : Bool := tok.any fun c => decide (ExpMark c ∨ c = ch '.')

theorem after_marked (tok : List UInt8) :
    ((NumFlags.none.after tok).exp || (NumFlags.none.after tok).decimal) = marked tok := by
  show (tok.any (fun c => decide (ExpMark c)) || tok.any fun c => decide (c = ch '.')) = marked tok
  unfold marked
  induction tok with
  | nil => rfl
  | cons c tok ih =>
    rw [List.any_cons, List.any_cons, List.any_cons, ← ih, Bool.decide_or]
    cases decide (ExpMark c) <;> cases decide (c = ch '.') <;> simp

theorem marked_digits (h : ∀ c ∈ u, isdigit c = true) : marked u = false := by
  unfold marked
  rw [List.any_eq_false]
  intro c hc hmark
  obtain ⟨hexp, hdot, -⟩ := isdigit_unmarked (h c hc)
  exact (of_decide_eq_true hmark).elim hexp hdot

theorem marked_append (u k : List UInt8) : marked (u ++ k) = (marked u || marked k) := List.any_append

theorem marked_drop (tok : List UInt8) : marked (tok.drop (signLen tok)) = marked tok := by
  unfold signLen
  split
  · rename_i h
    cases tok with
    | nil => rfl
    | cons c tok =>
      rw [List.headD_cons] at h
      subst h
      rfl
  · rfl

/-! ### Numbers as tokens -/

namespace JNumber
variable (x : JNumber)

theorem digits_numChar (h : ∀ c ∈ u, isdigit c = true) : ∀ c ∈ u, NumChar c :=
  fun c hc => .inr (.inr (.inr (.inr (.inr (h c hc)))))

theorem text_drop : x.text.drop (signLen x.text) = x.unsigned := by
  have hsign : signLen x.text = if x.neg then 1 else 0 := by
    unfold signLen text
    cases x.neg with
    | true => rfl
    | false => exact if_neg (isdigit_ne x.unsigned_head).1
  rw [hsign]
  unfold text
  cases x.neg with
  | true => rfl
  | false => rfl

theorem text_numChar : ∀ c ∈ x.text, NumChar c := by
  intro c hc
  unfold text unsigned fracText expText at hc
  simp only [List.mem_append] at hc
  rcases hc with hc | hc | hc | hc
  · cases hneg : x.neg with
    | true =>
      rw [hneg] at hc
      rw [List.mem_singleton.1 hc]
      exact .inr (.inr (.inr (.inl rfl)))
    | false =>
      rw [hneg] at hc
      cases hc
  · exact digits_numChar x.int_digits.2 c hc
  · cases hx : x.frac with
    | none =>
      rw [hx] at hc
      cases hc
    | some d =>
      rw [hx] at hc
      rcases List.mem_cons.1 hc with rfl | hc
      · exact .inr (.inr (.inl rfl))
      · exact digits_numChar (x.frac_digits d hx).2 c hc
  · cases hx : x.exp with
    | none =>
      rw [hx] at hc
      cases hc
    | some p =>
      obtain ⟨mark, sign, d⟩ := p
      obtain ⟨hmark, hsign, hd⟩ := x.exp_some hx
      rw [hx] at hc
      rcases List.mem_cons.1 hc with rfl | hc
      · exact hmark.elim .inl fun h => .inr (.inl h)
      · rcases List.mem_append.1 hc with hc | hc
        · rcases hsign with h | h | h
          · rw [h] at hc
            cases hc
          · rw [h] at hc
            exact .inr (.inr (.inr (.inr (.inl (List.mem_singleton.1 hc)))))
          · rw [h] at hc
            exact .inr (.inr (.inr (.inl (List.mem_singleton.1 hc))))
        · exact digits_numChar hd.2 c hc

theorem expText_marks {fl : NumFlags} (hexp : fl.exp = false) (hsign : fl.expsign = false) : Marks fl x.expText := by
  unfold expText
  cases hx : x.exp with
  | none => exact .nil fl
  | some p =>
    obtain ⟨mark, sign, d⟩ := p
    obtain ⟨hmark, hs, hd⟩ := x.exp_some hx
    have hdigits (fl : NumFlags) : Marks fl d := by
      have h : Marks fl (d ++ []) := (marks_digits hd.2).2 (.nil fl)
      rwa [List.append_nil] at h
    refine (marks_mark hmark).2 ⟨hexp, ?_⟩
    rcases hs with rfl | rfl | rfl
    · exact hdigits _
    · exact (marks_sign (.inr rfl)).2 ⟨rfl, hsign, hdigits _⟩
    · exact (marks_sign (.inl rfl)).2 ⟨rfl, hsign, hdigits _⟩

theorem unsigned_marks : Marks .none x.unsigned := by
  unfold unsigned
  rw [marks_digits x.int_digits.2]
  unfold fracText
  cases hx : x.frac with
  | none => exact x.expText_marks rfl rfl
  | some d =>
    exact (marks_dot rfl).2 ⟨rfl, (marks_digits (x.frac_digits d hx).2).2 (x.expText_marks rfl rfl)⟩

theorem marked_text : marked x.text = !x.isInt := by
  rw [← marked_drop, text_drop]
  unfold unsigned isInt
  rw [marked_append, marked_append, marked_digits x.int_digits.2, Bool.false_or]
  have hfrac : marked x.fracText = !x.frac.isNone := by
    unfold fracText
    cases x.frac with
    | none => rfl
    | some d => rfl
  have hexp : marked x.expText = !x.exp.isNone := by
    unfold expText
    cases hx : x.exp with
    | none => rfl
    | some p =>
      have hmark := (x.exp_ok p hx).1
      show (decide (ExpMark p.1 ∨ p.1 = ch '.') || _) = true
      rw [decide_eq_true (.inl hmark), Bool.true_or]
  rw [hfrac, hexp, Bool.not_and]

theorem text_no_leadingZero (hc : isdigit c = false) (k : List UInt8) : ¬ LeadingZero (x.text ++ c :: k) := by
  rintro ⟨h0, h1⟩
  unfold text at h0 h1
  cases hneg : x.neg with
  | true =>
    rw [hneg] at h0
    exact absurd h0 (by simp; decide)
  | false =>
    have hint : x.int = [ch '0'] := by
      refine x.int_zero ?_
      obtain ⟨b, t, hb⟩ := List.exists_cons_of_ne_nil x.int_digits.1
      rw [hneg] at h0
      unfold unsigned at h0
      rw [hb] at h0 ⊢
      exact h0
    have hhead := x.fracText_head
    rw [hneg] at h1
    unfold unsigned at h1
    rw [hint] at h1
    have h1' : isdigit ((x.fracText ++ x.expText ++ c :: k).headD 0) = true := h1
    cases hrest : x.fracText ++ x.expText with
    | nil =>
      rw [hrest] at h1'
      exact Bool.false_ne_true (hc.symm.trans h1')
    | cons b t =>
      rw [hrest] at h1' hhead
      exact Bool.false_ne_true (hhead.symm.trans h1')

end JNumber

/-! ### The parser on a token -/

/-- A longest run of bytes of numbers, in front of `k`. -/
structure NumberToken (tok k : List UInt8) : Prop where
  nonempty : tok ≠ []
  chars : ∀ c ∈ tok, NumChar c
  ends : ∀ c t, k = c :: t → ¬ NumChar c

/-- The token is a number of the standard with the value `v`. -/
def IsNumber (D : Doubles R) (tok : List UInt8) (v : Json R) : Prop := ∃ x : JNumber, x.text = tok ∧ x.Denotes D v

/-- What `strtod` or `strtoll` reads off the token is representable, and does not stand for an invalid number. -/
def Converts (D : Doubles R) (tok : List UInt8) : Prop :=
  if marked tok then ∃ neg m e r, scanDecimal tok = some (neg, m, e, r) ∧
    ((D.ofDecimal neg m e).2 = true → D.isZero (D.ofDecimal neg m e).1 = true) ∧ D.kind (D.ofDecimal neg m e).1 = .valid
  else ∃ n r, strtoll tok 10 = .ok (n, r) ∧ n ≠ jsonInvint

/-- A token that the scan lets pass and of which some part is converted. -/
structure Loose (D : Doubles R) (tok : List UInt8) : Prop where
  starts : startsNumber (tok.headD 0)
  marks : Marks .none (tok.drop (signLen tok))
  zero : ¬ LeadingZero tok
  converts : Converts D tok

theorem numberValue_converts (D : Doubles R) (tok : List UInt8) :
    (∃ p, numberValue D (NumFlags.none.after (tok.drop (signLen tok))) tok = some p) ↔ Converts D tok := by
  unfold numberValue Converts
  rw [after_marked, marked_drop]
  by_cases hm : marked tok = true
  · rw [if_pos hm, if_pos hm]
    cases hd : scanDecimal tok with
    | none =>
      constructor
      · rintro ⟨p, h⟩
        cases h
      · rintro ⟨neg, m, e, r, h, -⟩
        cases h
    | some q =>
      obtain ⟨neg, m, e, r⟩ := q
      constructor
      · rintro ⟨⟨v, r'⟩, h⟩
        by_cases hrange : ((D.ofDecimal neg m e).2 && !D.isZero (D.ofDecimal neg m e).1) = true
        · simp only [hrange, ↓reduceIte, reduceCtorEq] at h
        · simp only [if_neg hrange] at h
          obtain ⟨hok, -, -⟩ := accepted_eq_some.1 h
          refine ⟨neg, m, e, r, rfl, fun hr => ?_, not_not.1 hok⟩
          rwa [hr, Bool.true_and, Bool.not_eq_true', Bool.not_eq_false] at hrange
      · rintro ⟨neg', m', e', r', heq, hz, hok⟩
        cases heq
        refine ⟨(.real (D.ofDecimal neg m e).1, r), ?_⟩
        have hrange : ¬ ((D.ofDecimal neg m e).2 && !D.isZero (D.ofDecimal neg m e).1) = true := by
          rw [Bool.and_eq_true, Bool.not_eq_true']
          rintro ⟨hr, hno⟩
          rw [hz hr] at hno
          cases hno
        simp only [if_neg hrange]
        exact if_neg (not_not.2 hok)
  · rw [if_neg hm, if_neg hm]
    cases strtoll tok 10 with
    | error f =>
      constructor
      · rintro ⟨p, h⟩
        cases h
      · rintro ⟨n, r, h, -⟩
        cases h
    | ok q =>
      constructor
      · rintro ⟨⟨v, r⟩, h⟩
        exact ⟨q.1, q.2, rfl, (accepted_eq_some.1 h).1⟩
      · rintro ⟨n, r, h, hok⟩
        cases h
        exact ⟨(.int n, r), if_neg hok⟩

section
variable (h : NumberToken tok (c :: k)) (hstart : startsNumber (tok.headD 0))
include h hstart

theorem signLen_append : signLen (tok ++ c :: k) = signLen tok ∧ signLen tok ≤ tok.length ∧
    (LeadingZero (tok ++ c :: k) ↔ LeadingZero tok) := by
  obtain ⟨b, t, rfl⟩ := List.exists_cons_of_ne_nil h.nonempty
  refine ⟨rfl, ?_, ?_⟩
  · unfold signLen
    split
    · exact Nat.le_add_left 1 _
    · exact Nat.zero_le _
  · cases t with
    | nil =>
      have hc : isdigit c = false := by
        rw [← Bool.not_eq_true]
        exact fun hd => h.ends c k rfl (.inr (.inr (.inr (.inr (.inr hd)))))
      exact and_congr_right fun _ => (by rw [show ([b] ++ c :: k).drop 1 = c :: k from rfl]; simp [hc, isdigit_nul])
    | cons d t => exact Iff.rfl

/-- The scan of the parser lets the token pass, or fails. -/
theorem scanNumber_token :
    (Marks .none (tok.drop (signLen tok)) ∧ ∀ ext, scanNumber ((tok ++ c :: k ++ ext).drop (signLen tok))
      ((tok ++ c :: k).length - signLen tok) ⟨false, false, false⟩ =
        .ok (NumFlags.none.after (tok.drop (signLen tok)), ((c :: k).length : Int))) ∨
    (¬ Marks .none (tok.drop (signLen tok)) ∧ ∃ f, ∀ ext, scanNumber ((tok ++ c :: k ++ ext).drop (signLen tok))
      ((tok ++ c :: k).length - signLen tok) ⟨false, false, false⟩ = .error f) := by
  obtain ⟨-, hle, -⟩ := signLen_append h hstart
  have hdrop (ext : List UInt8) :
      (tok ++ c :: k ++ ext).drop (signLen tok) = tok.drop (signLen tok) ++ c :: k ++ ext := by
    rw [List.append_assoc, List.drop_append_of_le_length hle, List.append_assoc]
  have hlen : ((tok ++ c :: k).length : Int) - signLen tok = (tok.drop (signLen tok) ++ c :: k).length := by
    rw [List.length_append, List.length_append, List.length_drop]
    omega
  simp only [hdrop, hlen]
  exact scanNumber_marks (h.ends c k rfl) k (fun b hb => h.chars b (List.mem_of_mem_drop hb)) .none

theorem parseNumber_convert (hm : Marks .none (tok.drop (signLen tok))) (hz : ¬ LeadingZero tok) :
    (numberValue D (NumFlags.none.after (tok.drop (signLen tok))) tok = none →
      Fails (ipclJsonParseNumber D) (tok ++ c :: k)) ∧
    ∀ v r, numberValue D (NumFlags.none.after (tok.drop (signLen tok))) tok = some (v, r) →
      Reads (ipclJsonParseNumber D) (tok ++ c :: k) v (r ++ c :: k) := by
  obtain ⟨-, -, hzero⟩ := signLen_append h hstart
  rcases scanNumber_token h hstart with ⟨-, hscan⟩ | ⟨hno, -⟩
  · have hspace := hstart.ne.2.2.2.2.2.2.2.2.2
    have hrun {ext s} (hs : JState.At s (tok ++ c :: k) ext) := parseNumber_run (D := D) hs h.nonempty (hscan ext)
      (mt hzero.1 hz) (h.ends c k rfl) hspace
    exact ⟨fun hnone => KeepsCtx.fails (.parseNumber D) fun ext s hs => (hrun hs).1 hnone,
      fun v r hv ext s hs => (hrun hs).2 v r hv⟩
  · exact absurd hm hno

/-- The parser reads something off a token exactly if it is loose. -/
theorem parseNumber_loose : (Loose D tok → ∃ v r, Reads (ipclJsonParseNumber D) (tok ++ c :: k) v r) ∧
    (¬ Loose D tok → Fails (ipclJsonParseNumber D) (tok ++ c :: k)) := by
  obtain ⟨hsign, -, hzero⟩ := signLen_append h hstart
  have hne : tok ++ c :: k ≠ [] := List.append_ne_nil_of_left_ne_nil h.nonempty _
  constructor
  · intro hl
    obtain ⟨⟨v, r⟩, hv⟩ := (numberValue_converts D tok).2 hl.converts
    exact ⟨v, _, (parseNumber_convert h hstart hl.marks hl.zero).2 v r hv⟩
  · intro hl
    by_cases hz : LeadingZero tok
    · exact parseNumber_fails hne (.inr (.inr (hzero.2 hz)))
    rcases scanNumber_token h hstart with ⟨hm, -⟩ | ⟨-, f, hf⟩
    · refine (parseNumber_convert h hstart hm hz).1 (Option.eq_none_iff_forall_ne_some.2 fun p hp => hl ?_)
      exact ⟨hstart, hm, hz, (numberValue_converts D tok).1 ⟨p, hp⟩⟩
    · refine parseNumber_fails hne (.inl ⟨f, fun ext => ?_⟩)
      rw [hsign]
      exact hf ext

end

theorem parseNumber_end (hne : tok ≠ []) (hchars : ∀ c ∈ tok, NumChar c) : Fails (ipclJsonParseNumber D) tok := by
  have hle : signLen tok ≤ tok.length := by
    have := List.length_pos_iff.2 hne
    unfold signLen
    split <;> omega
  have hdrop (ext : List UInt8) : (tok ++ ext).drop (signLen tok) = tok.drop (signLen tok) ++ ext :=
    List.drop_append_of_le_length hle
  have hlen : (tok.length : Int) - signLen tok = (tok.drop (signLen tok)).length := by
    rw [List.length_drop]
    omega
  rcases scanNumber_scan (tok.drop (signLen tok)) ⟨false, false, false⟩ with
    ⟨f, hf⟩ | ⟨fl, hfl⟩ | ⟨fl, u, c, k, hl, hu, hc, -⟩
  · refine parseNumber_fails hne (.inl ⟨f, fun ext => ?_⟩)
    rw [hdrop, hlen, hf]
  · refine parseNumber_fails hne (.inr (.inl ⟨fl, fun ext => ?_⟩))
    rw [hdrop, hlen, hfl]
  · have hmem : c ∈ tok.drop (signLen tok) := by
      rw [hl]
      exact List.mem_append_right u List.mem_cons_self
    exact absurd (hchars c (List.mem_of_mem_drop hmem)) hc

/-! ### The standard -/

theorem valueBody_number (T : Tokens R) (n : Nat) (hs : startsNumber c) : valueBody T n c = T.number := by
  obtain ⟨h₁, h₂, h₃, h₄, h₅, h₆, -, -, -, -⟩ := hs.ne
  have hs' : c = ch '-' ∨ isdigit c = true := hs
  unfold valueBody
  rw [if_neg h₁, if_neg h₂, if_neg h₃, if_neg h₄, if_neg h₅, if_neg h₆, if_pos hs']

theorem valueBody_else (T : Tokens R) (n : Nat) (hc : NumChar c) (hs : ¬ startsNumber c) :
    valueBody T n c = JM.throw [txt "expected json value"] := by
  have hcases : c = ch 'e' ∨ c = ch 'E' ∨ c = ch '.' ∨ c = ch '+' := by
    rcases hc with h | h | h | h | h | h
    · exact .inl h
    · exact .inr (.inl h)
    · exact .inr (.inr (.inl h))
    · exact absurd (.inl h) hs
    · exact .inr (.inr (.inr h))
    · exact absurd (.inr h) hs
  have hs' : ¬ (c = ch '-' ∨ isdigit c = true) := hs
  unfold valueBody
  rw [if_neg, if_neg, if_neg, if_neg, if_neg, if_neg, if_neg hs']
  all_goals rcases hcases with rfl | rfl | rfl | rfl <;> decide

theorem NumChar.not_space (hc : NumChar c) : isspace c = false := by
  rcases hc with rfl | rfl | rfl | rfl | rfl | h
  · decide
  · decide
  · decide
  · decide
  · decide
  · exact startsNumber.ne (.inr h) |>.2.2.2.2.2.2.2.2.2

/-- A number of the standard is read as what it denotes, or refused when its value is made. -/
theorem IsNumber.read (hv : IsNumber D tok v) (h : NumberToken tok (c :: k)) :
    (¬ Refused D v → Reads (ipclJsonParseNumber D) (tok ++ c :: k) v (c :: k)) ∧
    (Refused D v → Fails (ipclJsonParseNumber D) (tok ++ c :: k)) := by
  obtain ⟨x, rfl, hx⟩ := hv
  have hc : isdigit c = false := by
    rw [← Bool.not_eq_true]
    exact fun hd => h.ends c k rfl (.inr (.inr (.inr (.inr (.inr hd)))))
  obtain ⟨-, -, hzero⟩ := signLen_append h x.text_head
  have hm : Marks .none (x.text.drop (signLen x.text)) := by
    rw [x.text_drop]
    exact x.unsigned_marks
  have hfl : ((NumFlags.none.after (x.text.drop (signLen x.text))).exp ||
      (NumFlags.none.after (x.text.drop (signLen x.text))).decimal) = !x.isInt := by
    rw [after_marked, marked_drop, x.marked_text]
  obtain ⟨hfails, hreads⟩ := parseNumber_convert h x.text_head hm (mt hzero.2 (x.text_no_leadingZero hc k))
  refine ⟨fun hok => hreads v [] ((x.numberValue_text D hfl v []).2 ⟨hx, hok, rfl⟩), fun hno => hfails ?_⟩
  refine Option.eq_none_iff_forall_ne_some.2 fun ⟨v', r⟩ hp => ?_
  obtain ⟨hx', hok, -⟩ := (x.numberValue_text D hfl v' r).1 hp
  rw [hx.unique hx'] at hno
  exact hok hno

/-- Wherever a value may stand, the token is read as the number it is, and refused if it is none: the parser of
values is the one for the whole text, for the elements of an array and for the members of an object. -/
def ReadsNumber (D : Doubles R) (mem : Stale) (tok k : List UInt8) : Prop :=
  ∀ n w, Space w →
    (∀ v, IsNumber D tok v → Reads (ipclJsonParseValue (tokens D mem) (n + 1)) (w ++ (tok ++ k)) v k) ∧
    ((∀ v, ¬ IsNumber D tok v) → Fails (ipclJsonParseValue (tokens D mem) (n + 1)) (w ++ (tok ++ k)))

/-- The encoding of an integer is decoded as the integer. -/
def IntRoundTrips (D : Doubles R) (mem : Stale) (i : Int) : Prop :=
  ∃ text e n, jsonEncode D mem (.int i) false .zero = some (text, e) ∧
    jsonDecode D mem text.bytes text.bytes.length = some (.ok (.int i, n))

theorem decimal_numChar (i : Int) : ∀ c ∈ decimal i, NumChar c := by
  intro c hc
  have hdigits : c ∈ digits i.natAbs → NumChar c := JNumber.digits_numChar (digits_isdigit i.natAbs) c
  by_cases hi : i < 0
  · rw [decimal_neg hi] at hc
    rcases List.mem_cons.1 hc with rfl | hc
    · exact .inr (.inr (.inr (.inl rfl)))
    · exact hdigits hc
  · rw [decimal_nonneg hi] at hc
    exact hdigits hc

/-- The text of an integer is one token, with nothing behind it. -/
theorem jsonEncode_int_fails (D : Doubles R) (mem : Stale) {i : Int} (hmin : llongMin < i) (hmax : i ≤ llongMax) :
    ¬ IntRoundTrips D mem i := by
  rintro ⟨text, e, n, henc, hdec⟩
  obtain ⟨text', henc', htext⟩ := jsonEncode_text mem (.of_run henc) (.int hmin hmax) .zero
  rw [henc] at henc'
  cases henc'
  have htok : text.bytes = decimal i := htext
  have hstart := decimal_starts i
  have hne : decimal i ≠ [] := ne_nil_of_headD fun h => by
    rw [h] at hstart
    exact absurd hstart (by unfold startsNumber; decide)
  have hchars := decimal_numChar i
  have hstrip : stripBom (decimal i) = decimal i := by
    refine if_neg ?_
    rintro ⟨t, ht⟩
    have hhead : (decimal i).headD 0 = 0xEF := by
      rw [← ht]
      rfl
    exact hstart.ne.2.2.2.2.2.2.2.2.1 hhead
  have hbody : Fails (valueBody (tokens D mem) (decimal i).length ((decimal i).headD 0)) (decimal i) := by
    rw [valueBody_number _ _ hstart]
    exact parseNumber_end hne hchars
  obtain ⟨f, s', hfail, hctx⟩ := StopRule.parseValue (decimal i).length Space.nil hstart.ne.2.2.2.2.2.2.2.2.2 hne
    (FailsWhen.rule _ _) hbody [] _ (JState.start_at _ []) trivial
  obtain ⟨msg, hmsg⟩ := hctx.message
  have hrun := decodeWith_run (tokens D mem) [] hne
  rw [List.append_nil, hstrip, if_neg hne] at hrun
  rw [List.nil_append] at hfail
  simp only [hfail, hmsg, Option.map_some] at hrun
  unfold jsonDecode at hdec
  rw [htok, hrun] at hdec
  cases hdec

namespace NumberToken
variable {mem : Stale} {w : List UInt8} (h : NumberToken tok k) (n : Nat) (hw : Space w)
include h

theorem head : (tok ++ k).headD 0 = tok.headD 0 ∧ NumChar (tok.headD 0) := by
  obtain ⟨b, t, rfl⟩ := List.exists_cons_of_ne_nil h.nonempty
  exact ⟨rfl, h.chars b List.mem_cons_self⟩

theorem append_ne_nil : tok ++ k ≠ [] := List.append_ne_nil_of_left_ne_nil h.nonempty k

theorem not_space : isspace ((tok ++ k).headD 0) = false := by
  rw [h.head.1]
  exact h.head.2.not_space

include hw

theorem reads (hstart : startsNumber (tok.headD 0)) (hr : Reads (ipclJsonParseNumber D) (tok ++ k) v r) :
    Reads (ipclJsonParseValue (tokens D mem) (n + 1)) (w ++ (tok ++ k)) v r := by
  refine .parseValue n hw h.not_space h.append_ne_nil ?_
  rw [h.head.1, valueBody_number _ n hstart]
  exact hr

theorem fails (hno : k = [] ∨ ¬ Loose D tok ∨ ∃ v, IsNumber D tok v ∧ Refused D v) :
    Fails (ipclJsonParseValue (tokens D mem) (n + 1)) (w ++ (tok ++ k)) := by
  refine StopRule.parseValue n hw h.not_space h.append_ne_nil (FailsWhen.rule _ _) ?_
  rw [h.head.1]
  by_cases hstart : startsNumber (tok.headD 0)
  · rw [valueBody_number _ n hstart]
    cases k with
    | nil =>
      rw [List.append_nil]
      exact parseNumber_end h.nonempty h.chars
    | cons c k =>
      rcases hno with hno | hno | ⟨v, hv, hno⟩
      · cases hno
      · exact (parseNumber_loose h hstart).2 hno
      · exact (hv.read h).2 hno
  · rw [valueBody_else _ n h.head.2 hstart]
    exact .throw _ _

/-- A loose token with something behind it is read in part at least. -/
theorem reads_loose (hk : k ≠ []) (hl : Loose D tok) :
    ∃ v r, Reads (ipclJsonParseValue (tokens D mem) (n + 1)) (w ++ (tok ++ k)) v r := by
  obtain ⟨c, k, rfl⟩ := List.exists_cons_of_ne_nil hk
  obtain ⟨v, r, hr⟩ := (parseNumber_loose h hl.starts).1 hl
  exact ⟨v, r, h.reads n hw hl.starts hr⟩

end NumberToken

/-- A token is read as the standard has it exactly if, being a number, it does not end the text and does not stand for an
invalid one, and, being none, it ends the text or is not loose; and the encoding of an integer is never decoded. -/
theorem parseNumber_reads_iff (D : Doubles R) (mem : Stale) (h : NumberToken tok k) :
    (ReadsNumber D mem tok k ↔
      (∀ v, IsNumber D tok v → k ≠ [] ∧ ¬ Refused D v) ∧ ((∀ v, ¬ IsNumber D tok v) → k = [] ∨ ¬ Loose D tok)) ∧
    ∀ i, llongMin < i → i ≤ llongMax → ¬ IntRoundTrips D mem i := by
  refine ⟨⟨fun hread => ⟨fun v hv => ?_, fun hno => ?_⟩, ?_⟩, fun i hmin hmax => jsonEncode_int_fails D mem hmin hmax⟩
  · have hreads := ((hread 0 [] .nil).1 v hv).not_failsAlone
    exact ⟨fun hk => hreads (h.fails 0 .nil (.inl hk)).alone,
      fun hno => hreads (h.fails 0 .nil (.inr (.inr ⟨v, hv, hno⟩))).alone⟩
  · by_contra hcon
    obtain ⟨hk, hl⟩ := not_or.1 hcon
    obtain ⟨v, r, hr⟩ : ∃ v r, Reads (ipclJsonParseValue (tokens D mem) (0 + 1)) ([] ++ (tok ++ k)) v r :=
      h.reads_loose 0 .nil hk (not_not.1 hl)
    exact hr.not_failsAlone ((hread 0 [] .nil).2 hno).alone
  · rintro ⟨hnum, hother⟩ n w hw
    refine ⟨fun v hv => ?_, fun hno => h.fails n hw ((hother hno).imp_right .inl)⟩
    obtain ⟨hk, hok⟩ := hnum v hv
    obtain ⟨c, k, rfl⟩ := List.exists_cons_of_ne_nil hk
    have hstart : startsNumber (tok.headD 0) := by
      obtain ⟨x, rfl, -⟩ := hv
      exact x.text_head
    exact h.reads n hw hstart ((hv.read h).1 hok)

theorem isNumber_fortyTwo : IsNumber decimals (txt "42") (.int 42) := by
  have hdigits : (txt "42").all isdigit = true := by decide
  refine ⟨⟨false, txt "42", none, none, ⟨List.cons_ne_nil _ _, List.all_eq_true.1 hdigits⟩, ?_, ?_, ?_⟩, rfl, ?_⟩
  · exact fun h => absurd h (by decide)
  · rintro d ⟨⟩
  · rintro p ⟨⟩
  · exact JNumber.denotes_int decimals rfl (show llongMin ≤ 42 by decide) (show 42 ≤ llongMax by decide)

theorem numberToken_fortyTwo (hk : ∀ c t, k = c :: t → ¬ NumChar c) : NumberToken (txt "42") k := by
  obtain ⟨x, hx, -⟩ := isNumber_fortyTwo
  exact ⟨List.cons_ne_nil _ _, hx ▸ x.text_numChar, hk⟩

/-- `42` in front of a comma. -/
theorem parseNumber_reads_iff_element :
    (ReadsNumber decimals (fun _ => .lit "") (txt "42") (txt ",") ↔
      (∀ v, IsNumber decimals (txt "42") v → txt "," ≠ [] ∧ ¬ Refused decimals v) ∧
        ((∀ v, ¬ IsNumber decimals (txt "42") v) → txt "," = [] ∨ ¬ Loose decimals (txt "42"))) ∧
    ∀ i, llongMin < i → i ≤ llongMax → ¬ IntRoundTrips decimals (fun _ => .lit "") i := by
  refine parseNumber_reads_iff decimals (fun _ => .lit "") (numberToken_fortyTwo ?_)
  rintro c t ht
  rw [← (List.cons.inj ht).1]
  unfold NumChar
  decide

/-- `42` is a number, and is refused at the end of the text. -/
theorem parseNumber_refuses : ¬ ReadsNumber decimals (fun _ => .lit "") (txt "42") [] := by
  intro h
  have htok : NumberToken (txt "42") [] := numberToken_fortyTwo (by rintro c t ⟨⟩)
  exact ((h 0 [] .nil).1 _ isNumber_fortyTwo).not_failsAlone (htok.fails 0 .nil (.inl rfl)).alone

end Pcl

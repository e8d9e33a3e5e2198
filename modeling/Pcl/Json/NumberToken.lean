import Pcl.Json.Grammar

/-!
# What a number token reads

The scan of `ipcl_json_parse_number` ends at the first byte that cannot be part of a number. A token has
to be followed by such a byte, so that `strtoll` and `strtod` do not look behind the end of the text:
they read from `u ++ c :: k` what they read from `u`.
-/

namespace Pcl

variable {R : Type} {u k : List UInt8} {c : UInt8}

/-- A byte the scan of a number goes on with. -/
def NumChar (c : UInt8) : Prop :=
  c = ch 'e' ∨ c = ch 'E' ∨ c = ch '.' ∨ c = ch '-' ∨ c = ch '+' ∨ isdigit c = true

theorem takeWhile_stop {p : UInt8 → Bool} (hc : p c = false) : (u ++ c :: k).takeWhile p = u.takeWhile p := by
  induction u with
  | nil => simp [hc]
  | cons b u ih =>
    by_cases hb : p b = true
    · simp [hb, ih]
    · simp [hb]

theorem dropWhile_stop {p : UInt8 → Bool} (hc : p c = false) :
    (u ++ c :: k).dropWhile p = u.dropWhile p ++ c :: k := by
  induction u with
  | nil => simp [hc]
  | cons b u ih =>
    by_cases hb : p b = true
    · simp [hb, ih]
    · simp [hb]

theorem scanSign_stop (hc : c ≠ ch '-' ∧ c ≠ ch '+') :
    scanSign (u ++ c :: k) = ((scanSign u).1, (scanSign u).2 ++ c :: k) := by
  cases u with
  | nil => simp [scanSign, hc.1, hc.2]
  | cons b u =>
    by_cases h₁ : b = ch '-'
    · simp [scanSign, h₁]
    by_cases h₂ : b = ch '+'
    · simp [scanSign, h₂, show ch '+' ≠ ch '-' by decide]
    · simp [scanSign, h₁, h₂]

theorem scanFrac_stop (hc : ¬ NumChar c) : scanFrac (u ++ c :: k) = ((scanFrac u).1, (scanFrac u).2 ++ c :: k) := by
  unfold NumChar at hc
  simp only [not_or] at hc
  obtain ⟨-, -, hdot, -, -, hdigit⟩ := hc
  rw [Bool.not_eq_true] at hdigit
  cases u with
  | nil => simp [scanFrac, hdot]
  | cons b u =>
    by_cases h : b = ch '.'
    · simp [scanFrac, h, takeWhile_stop hdigit, dropWhile_stop hdigit]
    · simp [scanFrac, h]

theorem scanExp_stop (hc : ¬ NumChar c) : scanExp (u ++ c :: k) = ((scanExp u).1, (scanExp u).2 ++ c :: k) := by
  unfold NumChar at hc
  simp only [not_or] at hc
  obtain ⟨he, hE, -, hminus, hplus, hdigit⟩ := hc
  rw [Bool.not_eq_true] at hdigit
  cases u with
  | nil => simp [scanExp, he, hE]
  | cons b u =>
    have hhead : isdigit (((scanSign u).2 ++ c :: k).headD 0) = isdigit ((scanSign u).2.headD 0) := by
      cases (scanSign u).2 with
      | nil => exact hdigit
      | cons d t => rfl
    simp only [List.cons_append, scanExp, scanSign_stop ⟨hminus, hplus⟩, hhead, takeWhile_stop hdigit,
      dropWhile_stop hdigit]
    split <;> rfl

theorem dropWhile_isspace_id {s : List UInt8} (hs : isspace (s.headD 0) = false) : s.dropWhile isspace = s := by
  cases s with
  | nil => rfl
  | cons b s => exact List.dropWhile_cons_of_neg (by simpa using hs)

theorem scanDecimal_stop (hc : ¬ NumChar c) (hu : u ≠ []) (hs : isspace (u.headD 0) = false) :
    scanDecimal (u ++ c :: k) = (scanDecimal u).map fun p => (p.1, p.2.1, p.2.2.1, p.2.2.2 ++ c :: k) := by
  have hc' := hc
  unfold NumChar at hc'
  simp only [not_or] at hc'
  obtain ⟨-, -, -, hminus, hplus, hdigit⟩ := hc'
  rw [Bool.not_eq_true] at hdigit
  have hs' : isspace ((u ++ c :: k).headD 0) = false := by
    cases u with
    | nil => exact absurd rfl hu
    | cons b u => exact hs
  unfold scanDecimal
  simp only [dropWhile_isspace_id hs, dropWhile_isspace_id hs', scanSign_stop ⟨hminus, hplus⟩, takeWhile_stop hdigit,
    dropWhile_stop hdigit, scanFrac_stop hc, scanExp_stop hc]
  split <;> rfl

theorem skipPrefix_ten (s : List UInt8) : skipPrefix 10 s = s := by
  unfold skipPrefix
  split
  · simp
  · rfl

theorem digitVal_isdigit (h : isdigit c = false) : decide (digitVal c < 10) = false := by
  rw [decide_eq_false_iff_not]
  unfold digitVal
  rw [if_neg (by simp [h])]
  split
  · omega
  · split <;> omega

theorem scanNumeral_stop (hc : ¬ NumChar c) (hu : u ≠ []) (hs : isspace (u.headD 0) = false) :
    scanNumeral 10 (u ++ c :: k) = (scanNumeral 10 u).map fun p => (p.1, p.2 ++ c :: k) := by
  unfold NumChar at hc
  simp only [not_or] at hc
  obtain ⟨-, -, -, hminus, hplus, hdigit⟩ := hc
  rw [Bool.not_eq_true] at hdigit
  have hdigit' := digitVal_isdigit hdigit
  have hs' : isspace ((u ++ c :: k).headD 0) = false := by
    cases u with
    | nil => exact absurd rfl hu
    | cons b u => exact hs
  unfold scanNumeral
  simp only [dropWhile_isspace_id hs, dropWhile_isspace_id hs', scanSign_stop ⟨hminus, hplus⟩, skipPrefix_ten,
    takeWhile_stop (p := fun b => decide (digitVal b < 10)) hdigit',
    dropWhile_stop (p := fun b => decide (digitVal b < 10)) hdigit']
  split <;> rfl

theorem strtoll_stop (hc : ¬ NumChar c) (hu : u ≠ []) (hs : isspace (u.headD 0) = false) :
    strtoll (u ++ c :: k) 10 = (strtoll u 10).map fun p => (p.1, p.2 ++ c :: k) := by
  have hhead : (u ++ c :: k).headD 0 = u.headD 0 := by
    obtain ⟨b, u', rfl⟩ := List.exists_cons_of_ne_nil hu
    rfl
  unfold strtoll
  rw [hhead, scanNumeral_stop hc hu hs]
  cases scanNumeral 10 u with
  | none => split <;> rfl
  | some p =>
    simp only [Option.map_some]
    split
    · rfl
    · split
      · rfl
      · split <;> rfl

theorem strtoll_scan {s r : List UInt8} {n : Int} (h : strtoll s 10 = .ok (n, r)) : scanNumeral 10 s = some (n, r) := by
  unfold strtoll at h
  by_cases h0 : s.headD 0 = 0
  · rw [if_pos h0] at h
    cases h
  rw [if_neg h0] at h
  cases hn : scanNumeral 10 s with
  | none => simp only [hn, reduceCtorEq] at h
  | some p =>
    simp only [hn] at h
    split at h
    · cases h
    · split at h
      · cases h
      · injection h with h
        exact congrArg some h

/-! ### The numbers take up some of the text -/

theorem scanSign_suffix (s : List UInt8) : (scanSign s).2 <:+ s := by
  cases s with
  | nil => exact List.suffix_refl []
  | cons b s =>
    simp only [scanSign]
    split
    · exact List.suffix_cons b s
    · split
      · exact List.suffix_cons b s
      · exact List.suffix_refl _

theorem scanNumeral_shrinks {s r : List UInt8} {n : Int} (h : scanNumeral 10 s = some (n, r)) :
    r <:+ s ∧ r.length < s.length := by
  unfold scanNumeral at h
  simp only [skipPrefix_ten] at h
  split at h
  · cases h
  · rename_i hne
    simp only [Option.some.injEq, Prod.mk.injEq] at h
    obtain ⟨-, rfl⟩ := h
    have hsuf : (scanSign (s.dropWhile isspace)).2 <:+ s := (scanSign_suffix _).trans (List.dropWhile_suffix _)
    refine ⟨(List.dropWhile_suffix _).trans hsuf, ?_⟩
    have hsplit := congrArg List.length
      (List.takeWhile_append_dropWhile (p := fun b => decide (digitVal b < 10)) (l := (scanSign (s.dropWhile isspace)).2))
    have hpos := List.length_pos_iff.2 (mt List.isEmpty_iff.2 hne)
    rw [List.length_append] at hsplit
    have := hsuf.length_le
    omega

theorem scanFrac_length (s : List UInt8) : (scanFrac s).1.length + (scanFrac s).2.length ≤ s.length ∧
    (scanFrac s).2 <:+ s := by
  cases s with
  | nil => exact ⟨Nat.le_refl _, List.suffix_refl _⟩
  | cons c t =>
    simp only [scanFrac]
    split
    · have hsplit := congrArg List.length (List.takeWhile_append_dropWhile (p := isdigit) (l := t))
      rw [List.length_append] at hsplit
      refine ⟨?_, (List.dropWhile_suffix _).trans (List.suffix_cons c t)⟩
      simp only [List.length_cons]
      omega
    · exact ⟨Nat.le_of_eq (Nat.zero_add _), List.suffix_refl _⟩

theorem scanExp_suffix (s : List UInt8) : (scanExp s).2 <:+ s := by
  cases s with
  | nil => exact List.suffix_refl _
  | cons c t =>
    simp only [scanExp]
    split
    · exact (List.dropWhile_suffix _).trans ((scanSign_suffix t).trans (List.suffix_cons c t))
    · exact List.suffix_refl _

theorem scanDecimal_shrinks {s r : List UInt8} {neg : Bool} {m : Nat} {e : Int}
    (h : scanDecimal s = some (neg, m, e, r)) : r <:+ s ∧ r.length < s.length := by
  unfold scanDecimal at h
  simp only at h
  split at h
  · cases h
  · rename_i hne
    simp only [Option.some.injEq, Prod.mk.injEq] at h
    obtain ⟨-, -, -, rfl⟩ := h
    have hsuf : (scanSign (s.dropWhile isspace)).2 <:+ s := (scanSign_suffix _).trans (List.dropWhile_suffix _)
    have hsplit := congrArg List.length
      (List.takeWhile_append_dropWhile (p := isdigit) (l := (scanSign (s.dropWhile isspace)).2))
    rw [List.length_append] at hsplit
    obtain ⟨hfrac, hfracs⟩ := scanFrac_length ((scanSign (s.dropWhile isspace)).2.dropWhile isdigit)
    have hexp := scanExp_suffix (scanFrac ((scanSign (s.dropWhile isspace)).2.dropWhile isdigit)).2
    refine ⟨hexp.trans (hfracs.trans ((List.dropWhile_suffix _).trans hsuf)), ?_⟩
    have hpos : 0 < ((scanSign (s.dropWhile isspace)).2.takeWhile isdigit).length +
        (scanFrac ((scanSign (s.dropWhile isspace)).2.dropWhile isdigit)).1.length := by
      by_contra h0
      simp only [Nat.not_lt, Nat.le_zero_eq, Nat.add_eq_zero_iff, List.length_eq_zero_iff] at h0
      rw [h0.1, h0.2] at hne
      exact hne rfl
    have := hexp.length_le
    have := hsuf.length_le
    omega

/-! ### The scan -/

/-- The scan ends with an error, at the end of the text, or at a byte that is not part of a number. -/
inductive Scan (l : List UInt8) (fl : NumFlags) : Prop
  | error (f : Fault) (h : ∀ ext, scanNumber (l ++ ext) l.length fl = .error f)
  | over (fl' : NumFlags) (h : ∀ ext, scanNumber (l ++ ext) l.length fl = .ok (fl', 0))
  | stop (fl' : NumFlags) (u : List UInt8) (c : UInt8) (k : List UInt8) (hl : l = u ++ c :: k)
      (hu : ∀ b ∈ u, NumChar b) (hc : ¬ NumChar c)
      (h : ∀ ext, scanNumber (l ++ ext) l.length fl = .ok (fl', ((c :: k).length : Int)))

/-- The scan goes on behind a byte of a number. -/
theorem Scan.cons {l : List UInt8} {fl fl' : NumFlags} (hc : NumChar c)
    (h : ∀ ext, scanNumber (c :: l ++ ext) (c :: l).length fl = scanNumber (l ++ ext) l.length fl')
    (hl : Scan l fl') : Scan (c :: l) fl := by
  match hl with
  | .error f hf => exact .error f fun ext => (h ext).trans (hf ext)
  | .over fl'' hend => exact .over fl'' fun ext => (h ext).trans (hend ext)
  | .stop fl'' u d k hl hu hd hstop =>
    refine .stop fl'' (c :: u) d k (by rw [hl, List.cons_append]) ?_ hd fun ext => (h ext).trans (hstop ext)
    intro b hb
    rcases List.mem_cons.1 hb with rfl | hb
    · exact hc
    · exact hu b hb

theorem isdigit_of_not_lt (h : ¬ (c < ch '0' ∨ c > ch '9')) : isdigit c = true := by
  rw [isdigit_iff]
  have h' : ¬ (c < 0x30 ∨ c > 0x39) := h
  grind

theorem not_isdigit (h : c < ch '0' ∨ c > ch '9') : ¬ isdigit c = true := by
  rw [isdigit_iff]
  have h' : c < 0x30 ∨ c > 0x39 := h
  grind

theorem scanNumber_scan (l : List UInt8) : ∀ fl : NumFlags, Scan l fl := by
  induction l with
  | nil =>
    intro fl
    refine .over fl fun ext => ?_
    cases ext with
    | nil => rfl
    | cons c ext => simp [scanNumber]
  | cons c l ih =>
    intro fl
    have hpos : ¬ ((c :: l).length : Int) ≤ 0 := by simp
    have hlen : ((c :: l).length : Int) - 1 = l.length := by simp
    by_cases he : c = ch 'e' ∨ c = ch 'E'
    · have hnum : NumChar c := by
        rcases he with he | he
        · exact .inl he
        · exact .inr (.inl he)
      by_cases hexp : fl.exp = true
      · apply Scan.error
        intro ext
        simp only [List.cons_append, scanNumber, if_neg hpos, if_pos he, if_pos hexp]
        rfl
      · refine (ih { fl with exp := true }).cons hnum fun ext => ?_
        simp only [List.cons_append, scanNumber, if_neg hpos, if_pos he, if_neg hexp, hlen]
    by_cases hdot : c = ch '.'
    · by_cases hdec : fl.decimal = true
      · apply Scan.error
        intro ext
        simp only [List.cons_append, scanNumber, if_neg hpos, if_neg he, if_pos hdot, if_pos hdec]
        rfl
      · refine (ih { fl with decimal := true }).cons (.inr (.inr (.inl hdot))) fun ext => ?_
        simp only [List.cons_append, scanNumber, if_neg hpos, if_neg he, if_pos hdot, if_neg hdec, hlen]
    by_cases hsign : c = ch '-' ∨ c = ch '+'
    · have hnum : NumChar c := by
        rcases hsign with h | h
        · exact .inr (.inr (.inr (.inl h)))
        · exact .inr (.inr (.inr (.inr (.inl h))))
      by_cases hexp : (!fl.exp) = true
      · apply Scan.error
        intro ext
        simp only [List.cons_append, scanNumber, if_neg hpos, if_neg he, if_neg hdot, if_pos hsign, if_pos hexp]
        rfl
      by_cases hexpsign : fl.expsign = true
      · apply Scan.error
        intro ext
        simp only [List.cons_append, scanNumber, if_neg hpos, if_neg he, if_neg hdot, if_pos hsign, if_neg hexp,
          if_pos hexpsign]
        rfl
      · refine (ih { fl with expsign := true }).cons hnum fun ext => ?_
        simp only [List.cons_append, scanNumber, if_neg hpos, if_neg he, if_neg hdot, if_pos hsign, if_neg hexp,
          if_neg hexpsign, hlen]
    by_cases hend : c < ch '0' ∨ c > ch '9'
    · refine .stop fl [] c l rfl (fun b hb => by cases hb) ?_ fun ext => ?_
      · rintro (h | h | h | h | h | h)
        · exact he (.inl h)
        · exact he (.inr h)
        · exact hdot h
        · exact hsign (.inl h)
        · exact hsign (.inr h)
        · exact not_isdigit hend h
      · simp only [List.cons_append, scanNumber, if_neg hpos, if_neg he, if_neg hdot, if_neg hsign, if_pos hend]
    · refine (ih fl).cons (.inr (.inr (.inr (.inr (.inr (isdigit_of_not_lt hend)))))) fun ext => ?_
      simp only [List.cons_append, scanNumber, if_neg hpos, if_neg he, if_neg hdot, if_neg hsign, if_neg hend, hlen]

/-! ### The token -/

/-- The integer is `PCL_JSON_INVINT`, the real is `PCL_JSON_INVREAL` or not finite. -/
def Refused (D : Doubles R) : Json R → Prop
  | .int i => i = jsonInvint
  | .real r => D.kind r ≠ .valid
  | _ => False

instance (D : Doubles R) : DecidablePred (Refused D)
  | .int i => inferInstanceAs (Decidable (i = jsonInvint))
  | .real r => inferInstanceAs (Decidable (D.kind r ≠ .valid))
  | .null | .bool _ | .str _ | .arr _ | .obj _ => isFalse id

/-- A value that may be made, and what the conversion left. -/
def accepted (D : Doubles R) (v : Json R) (r : List UInt8) : Option (Json R × List UInt8) :=
  if Refused D v then none else some (v, r)

theorem accepted_eq_some {D : Doubles R} {v v' : Json R} {r r' : List UInt8} :
    accepted D v r = some (v', r') ↔ ¬ Refused D v ∧ v = v' ∧ r = r' := by
  unfold accepted
  split
  · rename_i h
    exact iff_of_false (by rintro ⟨⟩) fun hc => hc.1 h
  · rename_i h
    rw [Option.some.injEq, Prod.mk.injEq]
    exact (and_iff_right h).symm

/-- The value of the bytes up to where the scan stopped, and what the conversion left of them. -/
def numberValue (D : Doubles R) (fl : NumFlags) (u : List UInt8) : Option (Json R × List UInt8) :=
  if fl.exp || fl.decimal then
    match scanDecimal u with
    | none => none
    | some (neg, m, e, r) =>
      let (num, range) := D.ofDecimal neg m e
      if range && !D.isZero num then none else accepted D (.real num) r
  else
    match strtoll u 10 with
    | .error _ => none
    | .ok (num, r) => accepted D (.int num) r

/-- The sign of a number is not scanned. -/
def signLen (i : List UInt8) : Nat := if i.headD 0 = ch '-' then 1 else 0

/-- A leading zero. -/
def LeadingZero (i : List UInt8) : Prop := i.headD 0 = ch '0' ∧ isdigit ((i.drop 1).headD 0) = true

theorem numberValue_shrinks {D : Doubles R} {fl : NumFlags} {v : Json R} {r : List UInt8}
    (h : numberValue D fl u = some (v, r)) : r <:+ u ∧ r.length < u.length := by
  unfold numberValue at h
  split at h
  · cases hd : scanDecimal u with
    | none => simp only [hd, reduceCtorEq] at h
    | some p =>
      obtain ⟨neg, m, e, r'⟩ := p
      simp only [hd] at h
      split at h
      · cases h
      · obtain ⟨-, -, rfl⟩ := accepted_eq_some.1 h
        exact scanDecimal_shrinks hd
  · cases hn : strtoll u 10 with
    | error f => simp only [hn, reduceCtorEq] at h
    | ok p =>
      obtain ⟨n, r'⟩ := p
      simp only [hn] at h
      obtain ⟨-, -, rfl⟩ := accepted_eq_some.1 h
      exact scanNumeral_shrinks (strtoll_scan hn)

theorem goto_run {t r ext : List UInt8} {s : JState} (hs : s.At (u ++ t) ext) (hr : r <:+ u) :
    ∃ s', JM.goto (r ++ (t ++ ext)) s = some (.ok () s') ∧ s'.At (r ++ t) ext := by
  have hle := hr.length_le
  refine ⟨_, rfl, ?_, ?_, hs.ctx_in.nonneg, hs.ctx_in.le_length⟩
  · show r ++ (t ++ ext) = r ++ t ++ ext
    rw [List.append_assoc]
  · show s.left - ((s.rest.length - (r ++ (t ++ ext)).length : Nat) : Int) = (r ++ t).length
    simp only [hs.left_eq, hs.rest_eq, List.length_append]
    omega

section
variable {D : Doubles R} {fl : NumFlags} {ext : List UInt8} {s : JState}

/-- The value is made behind the number, or refused there. -/
theorem make_run {t r' : List UInt8} {v : Json R} {make : JM (Json R)} (hs : s.At (u ++ t) ext) (hr : r' <:+ u)
    (hok : ¬ Refused D v → make = pure v) (hno : Refused D v → ∃ f, make = JM.fault f) :
    (accepted D v r' = none → ∃ f s', (do JM.goto (r' ++ (t ++ ext)); make : JM (Json R)) s = some (.fail f s')) ∧
    ∀ v' r, accepted D v r' = some (v', r) →
      ∃ s', (do JM.goto (r' ++ (t ++ ext)); make : JM (Json R)) s = some (.ok v' s') ∧ s'.At (r ++ t) ext := by
  obtain ⟨s', hgoto, hs'⟩ := goto_run hs hr
  simp only [JM.bind_run, hgoto, JM.andThen_ok]
  constructor
  · intro h
    obtain ⟨f, rfl⟩ := hno (by by_contra hv; rw [accepted, if_neg hv] at h; cases h)
    exact ⟨f, s', rfl⟩
  · intro v' r h
    obtain ⟨hv, rfl, rfl⟩ := accepted_eq_some.1 h
    rw [hok hv]
    exact ⟨s', rfl, hs'⟩

theorem jsonInt_make (i : Int) : (¬ Refused D (.int i : Json R) → (JM.jsonInt i : JM (Json R)) = pure (.int i)) ∧
    (Refused D (.int i : Json R) → ∃ f, (JM.jsonInt i : JM (Json R)) = JM.fault f) := by
  unfold Refused JM.jsonInt
  exact ⟨fun h => if_neg h, fun h => ⟨_, if_pos h⟩⟩

theorem jsonReal_make (r : R) : (¬ Refused D (.real r) → JM.jsonReal D r = pure (.real r)) ∧
    (Refused D (.real r) → ∃ f, JM.jsonReal D r = JM.fault f) := by
  rw [show Refused D (.real r) ↔ D.kind r ≠ .valid from Iff.rfl]
  unfold JM.jsonReal
  cases D.kind r with
  | valid => simp
  | invreal => simp
  | nan => simp
  | inf => simp

theorem parseNumber_run (hs : s.At (u ++ c :: k) ext) (hu : u ≠ [])
    (hscan : scanNumber ((u ++ c :: k ++ ext).drop (signLen u)) ((u ++ c :: k).length - signLen u)
      ⟨false, false, false⟩ = .ok (fl, ((c :: k).length : Int))) (hz : ¬ LeadingZero (u ++ c :: k))
    (hc : ¬ NumChar c) (hspace : isspace (u.headD 0) = false) :
    (numberValue D fl u = none → ∃ f s', ipclJsonParseNumber D s = some (.fail f s')) ∧
    ∀ v r, numberValue D fl u = some (v, r) → ∃ s', ipclJsonParseNumber D s = some (.ok v s') ∧
      s'.At (r ++ c :: k) ext := by
  have hrest : s.rest = u ++ c :: (k ++ ext) := by
    rw [hs.rest_eq, List.append_assoc, List.cons_append]
  have hhead : s.rest.headD 0 = u.headD 0 := by
    obtain ⟨b, u', rfl⟩ := List.exists_cons_of_ne_nil hu
    rw [hrest]
    rfl
  have hsecond : (s.rest.drop 1).headD 0 = ((u ++ c :: k).drop 1).headD 0 := by
    obtain ⟨b, u', rfl⟩ := List.exists_cons_of_ne_nil hu
    rw [hrest]
    cases u' with
    | nil => rfl
    | cons b' u' => rfl
  have hsign : (if s.rest.headD 0 = ch '-' then 1 else 0) = signLen u := by
    rw [hhead]
    rfl
  have hzero : ¬ (s.rest.headD 0 = ch '0' ∧ isdigit ((s.rest.drop 1).headD 0) = true) := by
    rw [hhead, hsecond]
    obtain ⟨b, u', rfl⟩ := List.exists_cons_of_ne_nil hu
    exact hz
  have hleft : ¬ ((c :: k).length : Int) = 0 := by
    simp only [List.length_cons]
    omega
  have hget : JM.get s = some (.ok s s) := rfl
  rw [← hs.rest_eq, ← hs.left_eq] at hscan
  unfold ipclJsonParseNumber numberValue
  rw [JM.bind_run, hget, JM.andThen_ok]
  simp only [hsign, hscan, hleft, hzero, ↓reduceIte]
  by_cases hflag : (fl.exp || fl.decimal) = true
  · simp only [hflag, ↓reduceIte]
    rw [hrest, scanDecimal_stop hc hu hspace]
    cases hd : scanDecimal u with
    | none => exact ⟨fun _ => ⟨_, _, rfl⟩, fun v r h => by cases h⟩
    | some p =>
      obtain ⟨neg, m, e, r⟩ := p
      simp only [Option.map_some]
      by_cases hrange : ((D.ofDecimal neg m e).2 && !D.isZero (D.ofDecimal neg m e).1) = true
      · simp only [hrange, ↓reduceIte]
        exact ⟨fun _ => ⟨_, _, rfl⟩, fun v r h => by cases h⟩
      · simp only [hrange]
        exact make_run hs (scanDecimal_shrinks hd).1 (jsonReal_make _).1 (jsonReal_make _).2
  · simp only [hflag, Bool.false_eq_true, ↓reduceIte]
    rw [hrest, strtoll_stop hc hu hspace]
    cases hn : strtoll u 10 with
    | error f => exact ⟨fun _ => ⟨f, s, rfl⟩, fun v r h => by cases h⟩
    | ok p =>
      obtain ⟨n, r⟩ := p
      simp only [Except.map]
      exact make_run hs (scanNumeral_shrinks (strtoll_scan hn)).1 (jsonInt_make _).1 (jsonInt_make _).2

end

theorem JState.At.headD {i ext : List UInt8} {s : JState} (hs : s.At i ext) (hne : i ≠ []) :
    s.rest.headD 0 = i.headD 0 := by
  obtain ⟨b, t, rfl⟩ := List.exists_cons_of_ne_nil hne
  rw [hs.rest_eq]
  rfl

theorem LeadingZero.rest {i ext : List UInt8} {s : JState} (hs : s.At i ext) (hz : LeadingZero i) :
    s.rest.headD 0 = ch '0' ∧ isdigit ((s.rest.drop 1).headD 0) = true := by
  match i with
  | [] => exact absurd hz (by unfold LeadingZero; decide)
  | [b] => exact absurd hz.2 (by simp; decide)
  | b :: b' :: t =>
    rw [hs.rest_eq]
    exact hz

theorem KeepsCtx.parseNumber (D : Doubles R) : KeepsCtx (ipclJsonParseNumber D) := by
  have hint (i : Int) : KeepsCtx (JM.jsonInt i : JM (Json R)) := ite (fault _) (pure _)
  have hreal (r : R) : KeepsCtx (JM.jsonReal D r) := by
    unfold JM.jsonReal
    split
    · exact pure _
    · exact fault _
    · exact fault _
    · exact fault _
  refine get fun s => ?_
  dsimp only
  split
  · exact fault _
  · refine ite (throw _) (ite (throw _) (ite ?_ ?_))
    · split
      · exact throw _
      · exact ite (fault _) (bind (goto _) fun _ => hreal _)
    · split
      · exact fault _
      · exact bind (goto _) fun _ => hint _

/-- A scan that fails or runs to the end, or a leading zero, is an error. -/
theorem parseNumber_fails {D : Doubles R} {i : List UInt8} (hne : i ≠ [])
    (h : (∃ f, ∀ ext, scanNumber ((i ++ ext).drop (signLen i)) (i.length - signLen i) ⟨false, false, false⟩ = .error f) ∨
      (∃ fl, ∀ ext, scanNumber ((i ++ ext).drop (signLen i)) (i.length - signLen i) ⟨false, false, false⟩ = .ok (fl, 0)) ∨
      LeadingZero i) : Fails (ipclJsonParseNumber D) i := by
  refine KeepsCtx.fails (.parseNumber D) fun ext s hs => ?_
  have hget : JM.get s = some (.ok s s) := rfl
  have hsign : (if s.rest.headD 0 = ch '-' then 1 else 0) = signLen i := by
    rw [hs.headD hne]
    rfl
  unfold ipclJsonParseNumber
  rw [JM.bind_run, hget, JM.andThen_ok]
  simp only [hsign, hs.left_eq]
  cases hscan : scanNumber (s.rest.drop (signLen i)) (i.length - signLen i) ⟨false, false, false⟩ with
  | error f => exact ⟨f, s, rfl⟩
  | ok p =>
    obtain ⟨fl, left⟩ := p
    by_cases hleft : left = 0
    · simp only [hleft, ↓reduceIte]
      exact ⟨_, _, rfl⟩
    by_cases hz : s.rest.headD 0 = ch '0' ∧ isdigit ((s.rest.drop 1).headD 0) = true
    · simp only [hleft, hz, and_self, ↓reduceIte]
      exact ⟨_, _, rfl⟩
    rw [hs.rest_eq] at hscan
    rcases h with ⟨f, hf⟩ | ⟨fl', hend⟩ | hz'
    · rw [hf ext] at hscan
      cases hscan
    · rw [hend ext] at hscan
      cases hscan
      exact absurd rfl hleft
    · exact absurd (hz'.rest hs) hz

theorem startsNumber.numChar (h : startsNumber c) : NumChar c := by
  rcases h with h | h
  · exact .inr (.inr (.inr (.inl h)))
  · exact .inr (.inr (.inr (.inr (.inr h))))

theorem parseNumber_token (D : Doubles R) {i : List UInt8} (hi : startsNumber (i.headD 0)) :
    Token (ipclJsonParseNumber D) i ∨ Fails (ipclJsonParseNumber D) i := by
  have hne : i ≠ [] := by
    rintro rfl
    exact absurd hi (by unfold startsNumber; decide)
  have hsign : signLen i ≤ i.length := by
    have := List.length_pos_iff.2 hne
    unfold signLen
    split <;> omega
  have hdrop (ext : List UInt8) : (i ++ ext).drop (signLen i) = i.drop (signLen i) ++ ext :=
    List.drop_append_of_le_length hsign
  have hlen : ((i.drop (signLen i)).length : Int) = i.length - signLen i := by
    rw [List.length_drop]
    omega
  have hscan := scanNumber_scan (i.drop (signLen i)) ⟨false, false, false⟩
  match hscan with
  | .error f h =>
    simp only [← hdrop, hlen] at h
    exact .inr (parseNumber_fails hne (.inl ⟨f, h⟩))
  | .over fl h =>
    simp only [← hdrop, hlen] at h
    exact .inr (parseNumber_fails hne (.inr (.inl ⟨fl, h⟩)))
  | .stop fl u c k hl hu hc h =>
    simp only [← hdrop, hlen] at h
    by_cases hz : LeadingZero i
    · exact .inr (parseNumber_fails hne (.inr (.inr hz)))
    -- the token is the sign and what was scanned
    obtain ⟨tok, htok⟩ : ∃ tok, tok = i.take (signLen i) ++ u := ⟨_, rfl⟩
    have hik : i = tok ++ c :: k := by
      rw [htok, List.append_assoc, ← hl, List.take_append_drop]
    have htne : tok ≠ [] := by
      rintro rfl
      rw [hik] at hi
      exact hc hi.numChar
    have hhead : i.headD 0 = tok.headD 0 := by
      obtain ⟨b, t, rfl⟩ := List.exists_cons_of_ne_nil htne
      rw [hik]
      rfl
    have hsl : signLen i = signLen tok := by
      unfold signLen
      rw [hhead]
    have hspace : isspace (tok.headD 0) = false := by
      rw [← hhead]
      exact hi.ne.2.2.2.2.2.2.2.2.2
    have hrun (ext : List UInt8) (s : JState) (hs : s.At i ext) := by
      rw [hsl, hik] at h
      rw [hik] at hs hz
      exact parseNumber_run (D := D) hs htne (h ext) hz hc hspace
    cases hv : numberValue D fl tok with
    | none => exact .inr (KeepsCtx.fails (.parseNumber D) fun ext s hs => (hrun ext s hs).1 hv)
    | some p =>
      obtain ⟨v, r⟩ := p
      obtain ⟨⟨pre, hpre⟩, hlt⟩ := numberValue_shrinks hv
      have hpne : pre ≠ [] := by
        rintro rfl
        rw [← hpre] at hlt
        exact Nat.lt_irrefl _ hlt
      refine .inl ⟨v, pre, r ++ c :: k, hpne, ?_, fun ext s hs => (hrun ext s hs).2 v r hv⟩
      rw [hik, ← hpre, List.append_assoc]

end Pcl

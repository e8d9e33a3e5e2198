import Pcl.Io.Fmtconv

/-!
# When a format is translated as documented

The scanner loses one '%' of "%%", it does not know the digit 3 nor the flag '#', and it drops the 'P' of more
directives than those documented.
-/

namespace Pcl.Fmtconv

/-! ### The outer loop -/

theorem dropWhile_percent {v : List XChar} (hv : X '%' ∉ v) (l : List XChar) :
    (v ++ X '%' :: l).dropWhile (· ≠ X '%') = X '%' :: l ∧ (v ++ X '%' :: l).takeWhile (· ≠ X '%') = v := by
  have hall : ∀ c ∈ v, decide (c ≠ X '%') = true := fun c hc => decide_eq_true fun h => hv (h ▸ hc)
  constructor
  · rw [List.dropWhile_append_of_pos hall, List.dropWhile_cons_of_neg (by decide)]
  · rw [List.takeWhile_append_of_pos hall, List.takeWhile_cons_of_neg (by decide), List.append_nil]

theorem loop_literal (len : Nat) {fmt : List XChar} (out : List XChar) (h : X '%' ∉ fmt) :
    loop len fmt out = put len out fmt := by
  have hdrop : fmt.dropWhile (· ≠ X '%') = [] :=
    List.dropWhile_eq_nil_iff.2 fun c hc => decide_eq_true fun heq => h (heq ▸ hc)
  rw [loop.eq_def]
  split
  · rfl
  · rename_i heq
    rw [hdrop] at heq
    cases heq

theorem loop_percent {len : Nat} {v rest out out' out'' rest' : List XChar} (hv : X '%' ∉ v)
    (hput : put len out (v ++ [X '%']) = some out') (hdir : directive len out' rest = some (out'', rest')) :
    loop len (v ++ X '%' :: rest) out = loop len rest' out'' := by
  obtain ⟨hdrop, htake⟩ := dropWhile_percent hv rest
  rw [loop.eq_def]
  split
  · rename_i heq
    rw [hdrop] at heq
    cases heq
  · rename_i p r heq
    rw [hdrop] at heq
    cases heq
    rw [htake, hput]
    simp only
    split
    · rename_i hnone
      rw [hdir] at hnone
      cases hnone
    · rename_i hsome
      rw [hdir] at hsome
      cases hsome
      rfl

theorem conv_eq_nil : conv [] = [] := by rw [conv]

theorem conv_single : conv [X '%'] = [X '%'] := by
  rw [conv.eq_def]
  rfl

/-- A directive puts out what `conv` says, in place of the '%' already there. -/
theorem directive_conv {len : Nat} {out rest : List XChar} (hroom : out.length + 1 + rest.length < len) :
    ∃ s rest', directive len (out ++ [X '%']) rest = some (out ++ s, rest') ∧ conv (X '%' :: rest) = s ++ conv rest' ∧
      s.length + rest'.length ≤ rest.length + 1 ∧ rest'.length ≤ rest.length := by
  cases rest with
  | nil =>
    refine ⟨[X '%'], [], rfl, ?_, Nat.le_refl _, Nat.le_refl _⟩
    rw [conv_single, conv_eq_nil, List.append_nil]
  | cons d l =>
    rw [List.length_cons] at hroom
    by_cases hpercent : d = X '%'
    · refine ⟨[X '%'], l, if_pos hpercent, ?_, ?_, Nat.le_succ _⟩
      swap
      · simp only [List.length_cons, List.length_nil]
        omega
      rw [hpercent, conv_percent]
      rfl
    by_cases hslash : d = X '/'
    · have hput : put len out [X '/'] = some (out ++ [X '/']) := put_room (by simp only [List.length_singleton]; omega)
      have hroom' : (out ++ [X '/']).length + l.length < len := by
        rw [List.length_append, List.length_singleton]
        omega
      obtain ⟨s, rest, hscan, hconv, hle⟩ := @scanSpec_convFrom len (X '/') _ l (.inl (by decide)) hroom'
      refine ⟨X '/' :: s, rest, ?_, ?_, ?_, ?_⟩
      · show (if d = X '%' then some (out ++ [X '%'], l) else scanSpec len (X '%') (out ++ [X '%']) (d :: l)) = _
        rw [if_neg hpercent]
        unfold scanSpec
        rw [if_neg hpercent, if_pos hslash, if_pos rfl, List.dropLast_concat, hput, hslash]
        show scanSpec len (X '/') (out ++ [X '/']) l = _
        rw [hscan, List.append_assoc]
        rfl
      · rw [hslash, conv_slash, hconv]
        rfl
      · simp only [List.length_cons]
        omega
      · simp only [List.length_cons]
        omega
    · have hhead : (d :: l).head? ≠ some (X '/') := fun h => hslash (Option.some.inj h)
      have hroom' : (out ++ [X '%']).length + (d :: l).length < len := by
        rw [List.length_append, List.length_singleton, List.length_cons]
        omega
      obtain ⟨s, rest, hscan, hconv, hle⟩ := @scanSpec_convFrom len (X '%') _ (d :: l) (.inr hhead) hroom'
      refine ⟨X '%' :: s, rest, ?_, ?_, ?_, ?_⟩
      · show (if d = X '%' then some (out ++ [X '%'], l) else scanSpec len (X '%') (out ++ [X '%']) (d :: l)) = _
        rw [if_neg hpercent, hscan, List.append_assoc]
        rfl
      · rw [conv_spec l hpercent hslash, hconv]
        rfl
      · simp only [List.length_cons] at hle ⊢
        omega
      · exact Nat.le_trans (Nat.le_add_left _ _) hle

/-- The loop translates the rest of the format as `conv` does, which never makes it longer. -/
theorem loop_conv {len : Nat} (fmt out : List XChar) (hroom : out.length + fmt.length < len) :
    loop len fmt out = some (out ++ conv fmt) ∧ (conv fmt).length ≤ fmt.length := by
  induction hn : fmt.length using Nat.strongRecOn generalizing fmt out with
  | ind n ih =>
    subst hn
    by_cases hpercent : X '%' ∈ fmt
    · obtain ⟨v, rest, rfl, hv⟩ := List.eq_append_cons_of_mem hpercent
      rw [List.length_append, List.length_cons] at hroom
      have hput : put len out (v ++ [X '%']) = some (out ++ (v ++ [X '%'])) :=
        put_room (by rw [List.length_append, List.length_singleton]; omega)
      have hroom' : (out ++ v).length + 1 + rest.length < len := by
        rw [List.length_append]
        omega
      obtain ⟨s, rest', hdir, hconv, hlen, hle⟩ := directive_conv hroom'
      rw [← List.append_assoc] at hput
      have hroom'' : (out ++ v ++ s).length + rest'.length < len := by
        rw [List.length_append, List.length_append]
        omega
      have hlt : rest'.length < (v ++ X '%' :: rest).length := by
        rw [List.length_append, List.length_cons]
        omega
      obtain ⟨hloop, hshort⟩ := ih _ hlt rest' (out ++ v ++ s) hroom'' rfl
      rw [loop_percent hv hput hdir, hloop, conv_copies hv, hconv]
      refine ⟨by simp only [List.append_assoc], ?_⟩
      simp only [List.length_append, List.length_cons]
      omega
    · have hconv : conv fmt = fmt := by
        have h := conv_copies hpercent []
        rwa [List.append_nil, conv_eq_nil, List.append_nil] at h
      rw [loop_literal len out hpercent, hconv]
      exact ⟨put_room hroom, Nat.le_refl _⟩

theorem fmtconv_conv (fmt : List XChar) : fmtconv fmt = some (conv fmt) ∧ (conv fmt).length ≤ fmt.length := by
  have hroom : ([] : List XChar).length + fmt.length < fmt.length + 1 := by
    rw [List.length_nil]
    omega
  exact loop_conv fmt [] hroom

/-! ### Directives on which scanner and documentation agree -/

/-- The text behind a '%' is no second '%', and before a "Ps" or "Pc" behind it stand exactly flags, width and
precision or something the scanner stops at. -/
def Agrees (l : List XChar) : Prop :=
  l.head? ≠ some (X '%') ∧ ∀ u k rest, k = X 's' ∨ k = X 'c' →
    (l = X '/' :: u ++ X 'P' :: k :: rest → ∃ c ∈ u, c ∉ specChars) ∧
    (l = u ++ X 'P' :: k :: rest → ((∀ c ∈ u, c ∈ specChars) ↔ modifiers u = (u, [])))

/-- Every directive of a format is one they agree on. -/
def AllAgree (fmt : List XChar) : Prop := ∀ a l, fmt = a ++ X '%' :: l → Agrees l

theorem AllAgree.append_iff {v : List XChar} (hv : X '%' ∉ v) (l : List XChar) : AllAgree (v ++ l) ↔ AllAgree l := by
  constructor
  · intro h a r heq
    exact h (v ++ a) r (by rw [heq, List.append_assoc])
  · intro h a r heq
    rcases List.append_eq_append_iff.1 heq with ⟨a', rfl, hl⟩ | ⟨c', rfl, hl⟩
    · exact h a' r hl
    · cases c' with
      | nil => exact h [] r hl.symm
      | cons c c' =>
        obtain ⟨rfl, -⟩ := List.cons.inj hl
        exact absurd (List.mem_append_right a List.mem_cons_self) hv

theorem AllAgree.cons_iff (l : List XChar) : AllAgree (X '%' :: l) ↔ Agrees l ∧ AllAgree l := by
  constructor
  · intro h
    exact ⟨h [] l rfl, fun a r heq => h (X '%' :: a) r (by rw [heq]; rfl)⟩
  · rintro ⟨hl, h⟩ a r heq
    cases a with
    | nil =>
      cases heq
      exact hl
    | cons c a => exact h a r (List.cons.inj heq).2

theorem allAgree_nil : AllAgree [] := by
  intro a l heq
  cases a <;> cases heq

/-! ### Scanner and documentation on one directive -/

theorem scanned_append {u : List XChar} (hu : ∀ c ∈ u, c ∈ specChars) {k : XChar} (hk : k = X 's' ∨ k = X 'c')
    (rest : List XChar) : scanned (u ++ X 'P' :: k :: rest) = some (u, k, rest) := by
  induction u with
  | nil =>
    show (if k = X 's' ∨ k = X 'c' then some ([], k, rest) else none) = _
    rw [if_pos hk]
  | cons c u ih =>
    have hspec := hu c List.mem_cons_self
    have hP : c ≠ X 'P' := fun h => absurd (h ▸ hspec) (by decide)
    rw [List.cons_append, scanned.eq_def]
    simp only
    rw [if_neg hP, if_pos hspec, ih fun c hc => hu c (List.mem_cons_of_mem _ hc)]
    rfl

theorem scanned_spec {l u rest : List XChar} {k : XChar} (h : scanned l = some (u, k, rest)) :
    ∀ c ∈ u, c ∈ specChars := by
  induction l generalizing u with
  | nil => cases h
  | cons c l ih =>
    rw [scanned.eq_def] at h
    simp only at h
    split at h
    · cases l with
      | nil => cases h
      | cons k' rest' =>
        simp only at h
        split at h <;> cases h
        exact fun _ hm => absurd hm List.not_mem_nil
    · split at h
      · rename_i hspec
        obtain ⟨⟨u', k', rest'⟩, hs, heq⟩ := Option.map_eq_some_iff.1 h
        cases heq
        intro x hx
        rcases List.mem_cons.1 hx with rfl | hx
        · exact hspec
        · exact ih hs x hx
      · cases h

theorem span_append {p : XChar → Bool} (hp : p (X 'P') = false) (u rest : List XChar) :
    (u ++ X 'P' :: rest).takeWhile p = u.takeWhile p ∧
      (u ++ X 'P' :: rest).dropWhile p = u.dropWhile p ++ X 'P' :: rest := by
  have hneg : ¬ p (X 'P') = true := by rw [hp]; exact Bool.false_ne_true
  induction u with
  | nil => exact ⟨List.takeWhile_cons_of_neg hneg, List.dropWhile_cons_of_neg hneg⟩
  | cons c u ih =>
    by_cases hc : p c = true
    · rw [List.cons_append, List.takeWhile_cons_of_pos hc, List.takeWhile_cons_of_pos hc,
        List.dropWhile_cons_of_pos hc, List.dropWhile_cons_of_pos hc, ih.1]
      exact ⟨rfl, ih.2⟩
    · rw [List.cons_append, List.takeWhile_cons_of_neg hc, List.takeWhile_cons_of_neg hc,
        List.dropWhile_cons_of_neg hc, List.dropWhile_cons_of_neg hc]
      exact ⟨rfl, rfl⟩

theorem number_append (u rest : List XChar) :
    number (u ++ X 'P' :: rest) = ((number u).1, (number u).2 ++ X 'P' :: rest) := by
  have hspan (u : List XChar) := span_append (p := isDigit) (by decide) u rest
  have hnum (c : XChar) (hc : c ≠ X '*') (l : List XChar) :
      number (c :: l) = ((c :: l).takeWhile isDigit, (c :: l).dropWhile isDigit) := if_neg hc
  cases u with
  | nil =>
    have hnil := hspan []
    rw [List.nil_append] at hnil
    rw [List.nil_append, hnum _ (by decide), hnil.1, hnil.2]
    rfl
  | cons c u =>
    by_cases hc : c = X '*'
    · rw [hc]
      rfl
    · have hcons := hspan (c :: u)
      rw [List.cons_append] at hcons
      rw [List.cons_append, hnum c hc, hnum c hc, hcons.1, hcons.2]

theorem precision_append (u rest : List XChar) :
    precision (u ++ X 'P' :: rest) = ((precision u).1, (precision u).2 ++ X 'P' :: rest) := by
  cases u with
  | nil => rfl
  | cons c u =>
    by_cases hc : c = X '.'
    · have hprec (l : List XChar) : precision (c :: l) = (c :: (number l).1, (number l).2) := if_pos hc
      rw [List.cons_append, hprec, hprec, number_append]
    · have hprec (l : List XChar) : precision (c :: l) = ([], c :: l) := if_neg hc
      rw [List.cons_append, hprec, hprec]
      rfl

theorem modifiers_append (u rest : List XChar) :
    modifiers (u ++ X 'P' :: rest) = ((modifiers u).1, (modifiers u).2 ++ X 'P' :: rest) := by
  let flag (c : XChar) : Bool := decide (c ∈ flags)
  obtain ⟨htake, hdrop⟩ := span_append (p := flag) (by decide) u rest
  have hmod (l : List XChar) : modifiers l = (l.takeWhile flag ++ ((number (l.dropWhile flag)).1 ++
      (precision (number (l.dropWhile flag)).2).1), (precision (number (l.dropWhile flag)).2).2) := rfl
  rw [hmod, hmod, htake, hdrop, number_append, precision_append]

theorem portable_append {u : List XChar} (hu : modifiers u = (u, [])) {k : XChar} (hk : k = X 's' ∨ k = X 'c')
    (rest : List XChar) : portable (u ++ X 'P' :: k :: rest) = some (u, k, rest) := by
  unfold portable
  rw [modifiers_append, hu]
  exact if_pos ⟨rfl, hk⟩

theorem portable_modifiers {l u rest : List XChar} {k : XChar} (h : portable l = some (u, k, rest)) :
    modifiers u = (u, []) := by
  obtain ⟨hl, hk, -⟩ := portable_eq h
  have hmod : modifiers l = (u, X 'P' :: k :: rest) := by
    unfold portable at h
    split at h
    · rename_i heq
      split at h
      · rename_i hp
        cases h
        rw [heq, hp.1]
      · cases h
    · cases h
  rw [hl, modifiers_append] at hmod
  obtain ⟨h₁, h₂⟩ := Prod.mk.inj hmod
  exact Prod.ext h₁ (List.append_left_eq_self.1 h₂)

theorem Plain.cancel {u u' r r' : List XChar} (h : Plain u) (h' : Plain u') (heq : u ++ X 'P' :: r = u' ++ X 'P' :: r') :
    u = u' ∧ r = r' := by
  have hpast {v : List XChar} (hv : Plain v) (r : List XChar) : (v ++ X 'P' :: r).takeWhile (· ≠ X 'P') = v := by
    have hall : ∀ c ∈ v, decide (c ≠ X 'P') = true := fun c hc => decide_eq_true fun h => hv.2 (h ▸ hc)
    rw [List.takeWhile_append_of_pos hall, List.takeWhile_cons_of_neg (by decide), List.append_nil]
  have hu : u = u' := by rw [← hpast h r, heq, hpast h']
  subst hu
  exact ⟨rfl, (List.cons.inj (List.append_cancel_left heq)).2⟩

/-- Scanner and documentation agree on a directive exactly if they take the same 'P' of it for a modifier. -/
theorem agrees_iff (l : List XChar) :
    Agrees l ↔ l.head? ≠ some (X '%') ∧ (∀ l', l = X '/' :: l' → scanned l' = none) ∧ scanned l = portable l := by
  constructor
  · rintro ⟨hhead, h⟩
    refine ⟨hhead, ?_, ?_⟩
    · rintro l' rfl
      cases hs : scanned l' with
      | none => rfl
      | some t =>
        obtain ⟨u, k, rest⟩ := t
        obtain ⟨hl, hk, -⟩ := scanned_eq hs
        obtain ⟨c, hc, hnot⟩ := (h u k rest hk).1 (by rw [hl]; rfl)
        exact absurd (scanned_spec hs c hc) hnot
    · cases hs : scanned l with
      | some t =>
        obtain ⟨u, k, rest⟩ := t
        obtain ⟨hl, hk, -⟩ := scanned_eq hs
        have hmod := ((h u k rest hk).2 hl).1 (scanned_spec hs)
        rw [hl, portable_append hmod hk]
      | none =>
        cases hp : portable l with
        | none => rfl
        | some t =>
          obtain ⟨u, k, rest⟩ := t
          obtain ⟨hl, hk, -⟩ := portable_eq hp
          have hspec := ((h u k rest hk).2 hl).2 (portable_modifiers hp)
          rw [hl, scanned_append hspec hk] at hs
          cases hs
  · rintro ⟨hhead, hslash, heq⟩
    refine ⟨hhead, fun u k rest hk => ⟨fun hl => ?_, fun hl => ⟨fun hspec => ?_, fun hmod => ?_⟩⟩⟩
    · have hnone : scanned (u ++ X 'P' :: k :: rest) = none := hslash _ hl
      refine Decidable.byContradiction fun hnot => ?_
      have hspec : ∀ c ∈ u, c ∈ specChars :=
        fun c hc => Decidable.byContradiction fun hn => hnot ⟨c, hc, hn⟩
      rw [scanned_append hspec hk] at hnone
      cases hnone
    · rw [hl, scanned_append hspec hk, ← hl] at heq
      exact portable_modifiers heq.symm
    · rw [hl, portable_append hmod hk, ← hl] at heq
      exact scanned_spec heq

/-! ### The two translations of a directive -/

theorem reference_eq_nil : reference [] = [] := by rw [reference]

theorem reference_single : reference [X '%'] = [X '%'] := by
  rw [reference.eq_def]
  rfl

theorem reference_percent (l : List XChar) : reference (X '%' :: X '%' :: l) = X '%' :: X '%' :: reference l := by
  rw [reference, if_neg (by decide), if_pos rfl]

theorem reference_slash (l : List XChar) : reference (X '%' :: X '/' :: l) = X '/' :: reference l := by
  rw [reference, if_neg (by decide), if_neg (by decide), if_pos rfl]

/-- What the documentation puts out from behind a '%' on. -/
def referenceFrom (l : List XChar) : List XChar :=
  match portable l with
  | none => reference l
  | some (u, k, rest) => u ++ k :: reference rest

theorem reference_spec {d : XChar} (l : List XChar) (h : d ≠ X '%') (h' : d ≠ X '/') :
    reference (X '%' :: d :: l) = X '%' :: referenceFrom (d :: l) := by
  rw [reference, if_neg (by decide), if_neg h, if_neg h']
  unfold referenceFrom
  split <;> rename_i h <;> rw [h]

/-- What is put out behind a '%' does not begin with another one. -/
theorem convFrom_head {d : XChar} (l : List XChar) (h : d ≠ X '%') : (convFrom (d :: l)).head? ≠ some (X '%') := by
  unfold convFrom
  split
  · rw [conv_literal h]
    exact fun heq => h (Option.some.inj heq)
  · rename_i u k rest hs
    obtain ⟨-, hk, hplain⟩ := scanned_eq hs
    cases u with
    | nil =>
      intro heq
      cases heq
      exact absurd hk (by decide)
    | cons c u =>
      intro heq
      cases heq
      exact hplain.1 List.mem_cons_self

/-- The '%' that the scanner loses is never made up for later. -/
theorem conv_ne_percents (l : List XChar) (n : Nat) : conv l ≠ List.replicate (n + 1) (X '%') ++ reference l := by
  induction hn : l.length using Nat.strongRecOn generalizing l n with
  | ind m ih =>
    subst hn
    rw [List.replicate_succ, List.cons_append]
    intro heq
    cases l with
    | nil =>
      rw [conv_eq_nil] at heq
      cases heq
    | cons c l =>
      by_cases hc : c = X '%'
      swap
      · rw [conv_literal hc] at heq
        exact hc (List.cons.inj heq).1
      subst hc
      cases l with
      | nil =>
        rw [conv_single, reference_single] at heq
        exact absurd (List.cons.inj heq).2 (by simp)
      | cons d l =>
        by_cases hpercent : d = X '%'
        · subst hpercent
          rw [conv_percent, reference_percent] at heq
          refine ih l.length (Nat.lt_succ_of_lt (Nat.lt_succ_self _)) l (n + 1) rfl ?_
          rw [(List.cons.inj heq).2]
          simp [List.replicate_succ']
        by_cases hslash : d = X '/'
        · subst hslash
          rw [conv_slash] at heq
          exact absurd (List.cons.inj heq).1 (by decide)
        rw [conv_spec l hpercent hslash, reference_spec l hpercent hslash] at heq
        refine convFrom_head l hpercent ?_
        rw [(List.cons.inj heq).2]
        cases n <;> rfl

/-- One keeps the 'P' that the other drops. -/
theorem dropped_ne {k : XChar} (hk : k = X 's' ∨ k = X 'c') (u x y : List XChar) : u ++ k :: x ≠ u ++ X 'P' :: y := by
  intro heq
  have hkP := (List.cons.inj (List.append_cancel_left heq)).1
  rw [hkP] at hk
  exact absurd hk (by decide)

theorem conv_undropped {u : List XChar} (hu : Plain u) (r : List XChar) :
    conv (u ++ X 'P' :: r) = u ++ X 'P' :: conv r := by
  rw [conv_copies hu.1, conv_literal (by decide)]

theorem reference_undropped {u : List XChar} (hu : Plain u) (r : List XChar) :
    reference (u ++ X 'P' :: r) = u ++ X 'P' :: reference r := by
  rw [reference_copies hu.1, reference_literal (by decide)]

theorem convFrom_eq_reference_iff (l : List XChar) :
    convFrom l = reference l ↔ scanned l = none ∧ conv l = reference l := by
  unfold convFrom
  split
  · rename_i hs
    exact ⟨fun h => ⟨hs, h⟩, fun h => h.2⟩
  · rename_i u k rest hs
    obtain ⟨hl, hk, hplain⟩ := scanned_eq hs
    refine ⟨fun h => ?_, fun h => ?_⟩
    · rw [hl, reference_undropped hplain] at h
      exact absurd h (dropped_ne hk _ _ _)
    · rw [hs] at h
      cases h.1

/-- Behind a '%' the translations are equal exactly if they drop the same 'P' and the rest is translated equally. -/
theorem convFrom_eq_referenceFrom_iff (l : List XChar)
    (ih : ∀ r : List XChar, r.length ≤ l.length → (conv r = reference r ↔ AllAgree r)) :
    convFrom l = referenceFrom l ↔ scanned l = portable l ∧ AllAgree l := by
  unfold convFrom referenceFrom
  cases hs : scanned l with
  | none =>
    cases hp : portable l with
    | none =>
      simp only [true_and]
      exact ih l (Nat.le_refl _)
    | some t =>
      obtain ⟨u, k, rest⟩ := t
      obtain ⟨hl, hk, hplain⟩ := portable_eq hp
      refine ⟨fun h => ?_, fun h => nomatch h.1⟩
      simp only at h
      rw [hl, conv_undropped hplain] at h
      exact absurd h.symm (dropped_ne hk _ _ _)
  | some t =>
    obtain ⟨u, k, rest⟩ := t
    obtain ⟨hl, hk, hplain⟩ := scanned_eq hs
    cases hp : portable l with
    | none =>
      refine ⟨fun h => ?_, fun h => nomatch h.1⟩
      simp only at h
      rw [hl, reference_undropped hplain] at h
      exact absurd h (dropped_ne hk _ _ _)
    | some t =>
      obtain ⟨u', k', rest'⟩ := t
      obtain ⟨hl', hk', hplain'⟩ := portable_eq hp
      obtain ⟨rfl, htail⟩ := hplain.cancel hplain' (hl.symm.trans hl')
      obtain ⟨rfl, rfl⟩ := List.cons.inj htail
      have hk' : X '%' ∉ u ++ [X 'P', k] := by
        intro hm
        rcases List.mem_append.1 hm with hm | hm
        · exact hplain.1 hm
        · rcases hk with rfl | rfl <;> exact absurd hm (by decide)
      have hl'' : l = u ++ [X 'P', k] ++ rest := by rw [hl, List.append_assoc]; rfl
      have hle : rest.length ≤ l.length := by
        rw [hl'', List.length_append]
        exact Nat.le_add_left _ _
      simp only [true_and]
      rw [hl'', AllAgree.append_iff hk', ← ih rest hle]
      constructor
      · intro h
        exact (List.cons.inj (List.append_cancel_left h)).2
      · intro h
        rw [h]

theorem conv_eq_reference_iff (fmt : List XChar) : conv fmt = reference fmt ↔ AllAgree fmt := by
  induction hn : fmt.length using Nat.strongRecOn generalizing fmt with
  | ind n ih =>
    subst hn
    cases fmt with
    | nil =>
      rw [conv_eq_nil, reference_eq_nil]
      exact ⟨fun _ => allAgree_nil, fun _ => rfl⟩
    | cons c l =>
      by_cases hc : c = X '%'
      swap
      · have hsingle : X '%' ∉ [c] := fun h => hc (List.mem_singleton.1 h).symm
        rw [conv_literal hc, reference_literal hc, List.cons_inj_right, ih _ (Nat.lt_succ_self _) l rfl]
        exact (AllAgree.append_iff hsingle l).symm
      subst hc
      cases l with
      | nil =>
        have hagrees : Agrees [] := ⟨by simp, fun u k rest _ => ⟨fun h => by simp at h, fun h => by simp at h⟩⟩
        rw [conv_single, reference_single, AllAgree.cons_iff]
        exact ⟨fun _ => ⟨hagrees, allAgree_nil⟩, fun _ => rfl⟩
      | cons d l =>
        rw [AllAgree.cons_iff, agrees_iff]
        by_cases hpercent : d = X '%'
        · subst hpercent
          rw [conv_percent, reference_percent, List.cons_inj_right]
          refine ⟨fun h => absurd h (conv_ne_percents l 0), fun h => absurd rfl h.1.1⟩
        have hhead : (d :: l).head? ≠ some (X '%') := fun h => hpercent (Option.some.inj h)
        by_cases hslash : d = X '/'
        · subst hslash
          have hsingle : X '%' ∉ [X '/'] := by decide
          have hagree : AllAgree (X '/' :: l) ↔ AllAgree l := AllAgree.append_iff hsingle l
          rw [conv_slash, reference_slash, List.cons_inj_right, convFrom_eq_reference_iff, hagree,
            ih l.length (Nat.lt_succ_of_lt (Nat.lt_succ_self _)) l rfl]
          have hscanned : scanned (X '/' :: l) = none := rfl
          have hportable : portable (X '/' :: l) = none := by cases l <;> rfl
          refine and_congr_left fun _ => ⟨fun h => ⟨hhead, ?_, hscanned.trans hportable.symm⟩, fun h => h.2.1 l rfl⟩
          rintro l' heq
          rwa [← (List.cons.inj heq).2]
        · have hnot (l' : List XChar) (heq : d :: l = X '/' :: l') : scanned l' = none :=
            absurd (List.cons.inj heq).1 hslash
          rw [conv_spec l hpercent hslash, reference_spec l hpercent hslash, List.cons_inj_right,
            convFrom_eq_referenceFrom_iff (d :: l) fun r hr => ih r.length (Nat.lt_succ_of_le hr) r rfl]
          exact ⟨fun h => ⟨⟨hhead, hnot, h.1⟩, h.2⟩, fun h => ⟨h.1.2.2, h.2⟩⟩

/-- A format is translated as documented, and not made longer, exactly if its directives are ones that scanner
and documentation agree on. -/
theorem fmtconv_meets_iff (fmt : List XChar) :
    (∃ out, fmtconv fmt = some out ∧ out = reference fmt ∧ out.length ≤ fmt.length) ↔ AllAgree fmt := by
  obtain ⟨hrun, hle⟩ := fmtconv_conv fmt
  rw [← conv_eq_reference_iff]
  constructor
  · rintro ⟨out, hout, rfl, -⟩
    exact Option.some.inj (hrun.symm.trans hout)
  · intro h
    exact ⟨conv fmt, hrun, h, hle⟩

/-- "%%" becomes "%". -/
theorem fmtconv_percent : fmtconv [X '%', X '%'] = some [X '%'] ∧
    ¬∃ out, fmtconv [X '%', X '%'] = some out ∧ out = reference [X '%', X '%'] ∧ out.length ≤ 2 := by
  have hrun : fmtconv [X '%', X '%'] = some [X '%'] := by
    rw [(fmtconv_conv _).1, conv_percent, conv_eq_nil]
  refine ⟨hrun, ?_⟩
  rintro ⟨out, hout, heq, -⟩
  rw [hrun] at hout
  cases hout
  rw [reference_percent, reference_eq_nil] at heq
  cases heq

end Pcl.Fmtconv

import Pcl.Json.NumberRead

/-!
# Formatted and compact texts

`stripSpace` removes the whitespace outside of string literals. It turns the formatted text of a value into the
compact one: a part of the one `Compacts` to the same part of the other, and starts and ends outside of literals.
-/

namespace Pcl

open Grammar

variable {R : Type} {s s' t t' : List UInt8}

/-- Where a byte of a text stands. -/
inductive Place where
  | outside
  | literal
  | escaped
deriving DecidableEq

/-- Where the byte after it stands. -/
def Place.next : Place → UInt8 → Place
  | .outside, c => if c = ch '"' then .literal else .outside
  | .literal, c => if c = ch '\\' then .escaped else if c = ch '"' then .outside else .literal
  | .escaped, _ => .literal

/-- The text without the whitespace outside of string literals. -/
def stripSpace : Place → List UInt8 → List UInt8
  | _, [] => []
  | p, c :: s => if p = .outside ∧ isspace c then stripSpace p s else c :: stripSpace (p.next c) s

/-- A part of a text that is `t` without its whitespace. -/
structure Compacts (s t : List UInt8) : Prop where
  nul : 0 ∉ s
  nul' : 0 ∉ t
  strip : ∀ r, stripSpace .outside (s ++ r) = t ++ stripSpace .outside r

namespace Compacts

theorem nil : Compacts [] [] := ⟨List.not_mem_nil, List.not_mem_nil, fun _ => rfl⟩

theorem append (h : Compacts s t) (h' : Compacts s' t') : Compacts (s ++ s') (t ++ t') where
  nul := by rw [List.mem_append, not_or]; exact ⟨h.nul, h'.nul⟩
  nul' := by rw [List.mem_append, not_or]; exact ⟨h.nul', h'.nul'⟩
  strip r := by rw [List.append_assoc, h.strip, h'.strip, List.append_assoc]

theorem space (hs : Space s) : Compacts s [] where
  nul h0 := absurd (hs 0 h0) (by decide)
  nul' := List.not_mem_nil
  strip r := by
    induction s with
    | nil => rfl
    | cons c s ih =>
      rw [List.cons_append, stripSpace, if_pos ⟨rfl, hs c List.mem_cons_self⟩]
      exact ih fun b hb => hs b (List.mem_cons_of_mem c hb)

/-- A byte that is written outside of a literal, and starts none. -/
def Plain (c : UInt8) : Prop := c ≠ 0 ∧ isspace c = false ∧ c ≠ ch '"'

instance : DecidablePred Plain := fun c => inferInstanceAs (Decidable (c ≠ 0 ∧ isspace c = false ∧ c ≠ ch '"'))

theorem plain (hs : ∀ c ∈ s, Plain c) : Compacts s s where
  nul h0 := (hs 0 h0).1 rfl
  nul' h0 := (hs 0 h0).1 rfl
  strip r := by
    induction s with
    | nil => rfl
    | cons c s ih =>
      obtain ⟨-, hspace, hquote⟩ := hs c List.mem_cons_self
      rw [List.cons_append, stripSpace, if_neg (by simp [hspace]), Place.next, if_neg hquote,
        ih fun b hb => hs b (List.mem_cons_of_mem c hb), List.cons_append]

theorem word (hs : s.all (fun c => decide (Plain c)) = true) : Compacts s s :=
  plain fun c hc => of_decide_eq_true (List.all_eq_true.1 hs c hc)

theorem number (hs : ∀ c ∈ s, NumChar c) : Compacts s s := by
  refine plain fun c hc => ⟨?_, (hs c hc).not_space, ?_⟩
  · rintro rfl
    exact absurd (hs 0 hc) (by unfold NumChar; decide)
  · rintro rfl
    exact absurd (hs _ hc) (by unfold NumChar; decide)

theorem textIf (hs : Space s) (c : Bool) : Compacts (Pcl.textIf (true && c) s) (Pcl.textIf (false && c) t) := by
  cases c with
  | true => exact space hs
  | false => exact nil

/-- The bytes are inside of a literal, and do not end it. -/
def Stays : Place → List UInt8 → Bool
  | p, [] => p = .literal
  | p, c :: s => p ≠ .outside && Stays (p.next c) s

theorem Stays.strip {p : Place} (h : Stays p s) (r : List UInt8) : stripSpace p (s ++ r) = s ++ stripSpace .literal r := by
  induction s generalizing p with
  | nil =>
    have hp : p = .literal := of_decide_eq_true h
    rw [hp]
    rfl
  | cons c s ih =>
    obtain ⟨hp, hs⟩ := Bool.and_eq_true_iff.1 h
    have hp' : p ≠ .outside := of_decide_eq_true hp
    rw [List.cons_append, stripSpace, if_neg fun hspace => hp' hspace.1, ih hs, List.cons_append]

theorem charText_stays (c : UInt8) : Stays .literal (charText c) := by
  have htable : ∀ n < 256, Stays .literal (charText (UInt8.ofNat n)) := by
    set_option maxRecDepth 4000 in decide
  have h := htable c.toNat (UInt8.toNat_lt c)
  rwa [UInt8.ofNat_toNat] at h

theorem string (k : CStr) : Compacts (stringText k) (stringText k) where
  nul := nul_stringText k
  nul' := nul_stringText k
  strip r := by
    have hbody (l : List UInt8) (r : List UInt8) :
        stripSpace .literal (l.flatMap charText ++ r) = l.flatMap charText ++ stripSpace .literal r := by
      induction l with
      | nil => rfl
      | cons c l ih => rw [List.flatMap_cons, List.append_assoc, Stays.strip (charText_stays c), ih, List.append_assoc]
    have hclose : stripSpace .literal (ch '"' :: r) = ch '"' :: stripSpace .outside r := rfl
    have hopen (u : List UInt8) : stripSpace .outside (ch '"' :: u) = ch '"' :: stripSpace .literal u := rfl
    unfold stringText
    rw [List.cons_append, hopen, List.append_assoc, hbody, List.singleton_append, hclose]
    simp

theorem container {opening closing : UInt8} (ho : Plain opening) (hc : Plain closing) (n n' count : Nat)
    (h : Compacts s t) : Compacts (containerText opening closing true n count s) (containerText opening closing false n' count t) := by
  have hone {c : UInt8} (hc : Plain c) : Compacts [c] [c] := plain fun b hb => List.mem_singleton.1 hb ▸ hc
  have htabs : Space (tabsText n) := Space.tabs true n
  exact (hone ho).append ((textIf (t := [ch '\n']) (Space.newline true) _).append (h.append ((textIf htabs _).append (hone hc))))

/-- What stands around an element. -/
theorem element (n n' : Nat) (h : Compacts s t) (more : Bool) (h' : Compacts s' t') :
    Compacts (Pcl.textIf true (tabsText n) ++ (s ++ (Pcl.textIf more [ch ','] ++ (Pcl.textIf true [ch '\n'] ++ s'))))
      (Pcl.textIf false (tabsText n') ++ (t ++ (Pcl.textIf more [ch ','] ++ (Pcl.textIf false [ch '\n'] ++ t')))) := by
  have hcomma : Compacts (Pcl.textIf more [ch ',']) (Pcl.textIf more [ch ',']) := by
    cases more with
    | true => exact word (s := [ch ',']) (by decide)
    | false => exact nil
  exact (space (Space.tabs true n)).append (h.append (hcomma.append ((space (Space.newline true)).append h')))

end Compacts

/-- The formatted text of a value, at every depth. -/
theorem encodeText_compacts {D : Doubles R} (hD : ∀ r, D.isFinite r = true → ∀ c ∈ D.format r, NumChar c) (v : Json R) :
    ∀ n n', Compacts (encodeText D true v n) (encodeText D false v n') := by
  induction v using Json.ind with
  | null => exact fun _ _ => Compacts.word (s := txt "null") (by decide)
  | bool b =>
    intro _ _
    cases b with
    | true => exact Compacts.word (s := txt "true") (by decide)
    | false => exact Compacts.word (s := txt "false") (by decide)
  | int i => exact fun _ _ => .number (decimal_numChar i)
  | real r =>
    intro n n'
    rw [encodeText, encodeText]
    cases hr : D.isFinite r with
    | true => exact .number (hD r hr)
    | false => exact Compacts.word (s := txt "null") (by decide)
  | str s => exact fun _ _ => .string s
  | arr l ih =>
    have hloop : ∀ n n', Compacts (elementsText D true l n) (elementsText D false l n') := by
      induction l with
      | nil => exact fun _ _ => .nil
      | cons v l ihl =>
        intro n n'
        have hl := ihl fun w hw => ih w (List.mem_cons_of_mem v hw)
        exact .element n n' (ih v List.mem_cons_self n n') _ (hl n n')
    exact fun n n' => .container (by decide) (by decide) n n' _
      (hloop (n + 1) (n' + 1))
  | obj m ih =>
    have hloop : ∀ n n', Compacts (membersText D true m n) (membersText D false m n') := by
      induction m with
      | nil => exact fun _ _ => .nil
      | cons p m ihm =>
        intro n n'
        obtain ⟨k, v⟩ := p
        have hm := ihm fun q hq => ih q (List.mem_cons_of_mem _ hq)
        have hcolon : Compacts [ch ':'] [ch ':'] := .word (by decide)
        have hmember := (Compacts.string k).append (hcolon.append ((Compacts.space (Space.textIf true (s := [ch ' ']) (.singleton rfl))).append
          (ih _ List.mem_cons_self n n')))
        have h := Compacts.element n n' hmember (!m.isEmpty) (hm n n')
        rw [membersText, membersText]
        simpa [textIf] using h
    exact fun n n' => .container (by decide) (by decide) n n' _
      (hloop (n + 1) (n' + 1))

/-- Both outputs are written, and the formatted one without its whitespace is the compact one. -/
def FormatsAlike (D : Doubles R) (mem mem' : Stale) (v : Json R) (e e' : ErrState) : Prop := ∃ formatted compact,
  jsonEncode D mem v true e = some (formatted, e) ∧ jsonEncode D mem' v false e' = some (compact, e') ∧
    stripSpace .outside formatted.bytes = compact.bytes

/-- A finite real is written with the characters of numbers: the outputs agree just where both are written without
leaving `int`. -/
theorem jsonEncode_compacts_iff (D : Doubles R) (hD : ∀ r, D.isFinite r = true → ∀ c ∈ D.format r, NumChar c)
    (mem mem' : Stale) (v : Json R) (e e' : ErrState) :
    FormatsAlike D mem mem' v e e' ↔ EncodeFits D true v ∧ EncodeFits D false v := by
  constructor
  · rintro ⟨formatted, compact, hrun, hrun', -⟩
    exact ⟨.of_run hrun, .of_run hrun'⟩
  · rintro ⟨hfit, hfit'⟩
    have h := encodeText_compacts hD v 0 0
    obtain ⟨formatted, hrun, hformatted⟩ := jsonEncode_text_of_nul mem hfit h.nul e
    obtain ⟨compact, hrun', hcompact⟩ := jsonEncode_text_of_nul mem' hfit' h.nul' e'
    refine ⟨formatted, compact, hrun, hrun', ?_⟩
    have hstrip := h.strip []
    rw [List.append_nil] at hstrip
    rw [hformatted, hcompact, hstrip]
    exact List.append_nil _

/-- Halves of integers. -/
def halves : Doubles Int where
  ofDecimal neg m e := ((if neg then -1 else 1) * (2 * m * 10 ^ e.toNat / 10 ^ (-e).toNat), false)
  isZero r := r == 0
  kind _ := .valid
  format r := (if r < 0 then [ch '-'] else []) ++ digits (r.natAbs / 2) ++ if r.natAbs % 2 = 1 then txt ".5" else []

theorem halves_numChar (r : Int) : ∀ c ∈ halves.format r, NumChar c := by
  intro c hc
  rcases List.mem_append.1 hc with hc | hc
  · rcases List.mem_append.1 hc with hc | hc
    · split at hc
      · exact .inr (.inr (.inr (.inl (List.mem_singleton.1 hc))))
      · cases hc
    · exact JNumber.digits_numChar (digits_isdigit _) c hc
  · split at hc
    · have hall : (txt ".5").all (fun c => c = ch '.' ∨ isdigit c = true) = true := by decide
      rcases of_decide_eq_true (List.all_eq_true.1 hall c hc) with h | h
      · exact .inr (.inr (.inl h))
      · exact .inr (.inr (.inr (.inr (.inr h))))
    · cases hc

theorem jsonEncode_compacts_iff_half : FormatsAlike halves (fun _ => .lit "") (fun _ => .lit "")
    (.obj [(.lit "a b", .arr [.real 3, .null])]) .zero .zero :=
  (jsonEncode_compacts_iff halves (fun r _ => halves_numChar r) _ _ _ .zero .zero).2 ⟨by decide, by decide⟩

/-- A string of `n` letters. -/
def letters (n : Nat) : CStr :=
  ⟨List.replicate n (ch 'a'), fun h0 => absurd (List.eq_of_mem_replicate h0) (by decide)⟩

theorem stringText_letters (n : Nat) : (stringText (letters n)).length = n + 2 := by
  have hletter : charText (ch 'a') = [ch 'a'] := by decide
  unfold stringText letters
  rw [List.flatMap_replicate, hletter]
  simp

/-- The text of a string of 2 ^ 31 bytes cannot be written. -/
theorem jsonEncode_overflows :
    ¬ FormatsAlike halves (fun _ => .lit "") (fun _ => .lit "") (.str (letters (2 ^ 31))) .zero .zero := by
  rintro ⟨formatted, compact, hrun, -⟩
  have hlen := encodeFits_length (EncodeFits.of_run hrun)
  rw [encodeText, stringText_letters] at hlen
  exact absurd hlen (Nat.not_lt.2 (Nat.le_add_right _ _))

end Pcl

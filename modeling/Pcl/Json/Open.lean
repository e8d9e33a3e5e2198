import Pcl.Json.Accept

/-!
# Values that break off

By induction on the fuel, the parser of values stops on a value that breaks off as it does at the place where the text
does: where the parser has no result there, or fails, so it does in front of everything around.
-/

namespace Pcl

open Grammar

variable {R : Type} {T : Tokens R} {B L : List UInt8 → Prop} {i : List UInt8}

theorem Grammar.OpenValue.head (h : OpenValue T L i) : i ≠ [] ∧ isspace (i.headD 0) = false ∧ i.headD 0 ≠ ch ']' := by
  have known {c : UInt8} (hi : i.headD 0 = c) (hc : c ≠ 0 ∧ isspace c = false ∧ c ≠ ch ']') :
      i ≠ [] ∧ isspace (i.headD 0) = false ∧ i.headD 0 ≠ ch ']' := by
    rw [hi]
    exact ⟨ne_nil_of_headD (hi ▸ hc.1), hc.2⟩
  cases h with
  | leaf hh =>
    rcases hh with hh | hh
    · exact known hh (by decide)
    · exact known hh (by decide)
  | array => exact known (c := ch '[') rfl (by decide)
  | object => exact known (c := ch '\x7b') rfl (by decide)

theorem Grammar.OpenElements.head (h : OpenElements T L i) :
    i ≠ [] ∧ isspace (i.headD 0) = false ∧ i.headD 0 ≠ ch ']' := by
  cases h with
  | last h => exact h.head
  | more hv => exact ⟨hv.head.1, hv.head.2.1, hv.head.2.2.1⟩

theorem Grammar.OpenMembers.head {m : List (CStr × Json R)} (h : OpenMembers T L m i) : i.headD 0 = ch '"' := by
  cases h with
  | key hq => exact hq
  | last hq => exact hq
  | more hq => exact hq

/-! ### Where it breaks off -/

mutual

/-- A value breaks off at one place. -/
theorem Grammar.OpenValue.place {i : List UInt8} : OpenValue T L i → ∃ j, L j ∧ OpenValue T (· = j) i
  | .leaf hh hi => ⟨i, hi, .leaf hh rfl⟩
  | .array hw hl => (Grammar.OpenElements.place hl).imp fun _ hj => ⟨hj.1, .array hw hj.2⟩
  | .object hw hm => (Grammar.OpenMembers.place hm).imp fun _ hj => ⟨hj.1, .object hw hj.2⟩

theorem Grammar.OpenElements.place {i : List UInt8} : OpenElements T L i → ∃ j, L j ∧ OpenElements T (· = j) i
  | .last hv => (Grammar.OpenValue.place hv).imp fun _ hj => ⟨hj.1, .last hj.2⟩
  | .more hv hw hw' hl => (Grammar.OpenElements.place hl).imp fun _ hj => ⟨hj.1, .more hv hw hw' hj.2⟩

theorem Grammar.OpenMembers.place {i : List UInt8} {m : List (CStr × Json R)} :
    OpenMembers T L m i → ∃ j, L j ∧ OpenMembers T (· = j) m i
  | .key hq hi => ⟨i, hi, .key hq rfl⟩
  | .last hq hk hw hw' hv => (Grammar.OpenValue.place hv).imp fun _ hj => ⟨hj.1, .last hq hk hw hw' hj.2⟩
  | .more hq hk hw hw' hv hw'' hw₃ hd hm =>
    (Grammar.OpenMembers.place hm).imp fun _ hj => ⟨hj.1, .more hq hk hw hw' hv hw'' hw₃ hd hj.2⟩

end

/-! ### The parser stops there -/

section
variable {P : ∀ {α : Type}, JM α → List UInt8 → Prop}

/-- `P` holds of `value` on every text of less than `n` bytes that breaks off. -/
def StopsOn (T : Tokens R) (L : List UInt8 → Prop) (P : ∀ {α : Type}, JM α → List UInt8 → Prop) (value : JM (Json R))
    (n : Nat) : Prop :=
  ∀ {w i : List UInt8}, OpenValue T L i → Space w → (w ++ i).length < n → P value (w ++ i)

variable (hP : StopRule P) (hT : T.GivenBut B) {value : JM (Json R)} {n : Nat} (hval : ReadsValues T value n)
  (hopen : StopsOn T L P value n)
include hP hT hval hopen

theorem arrayLoop_stops {k : Nat} : ∀ {i : List UInt8}, OpenElements T L i → i.length < n → i.length < k →
    ∀ acc, P (arrayLoop value k acc) i := by
  induction k with
  | zero =>
    intro i h hn hk
    omega
  | succ k ih =>
    intro i h hn hk acc
    cases h with
    | last h => exact hP.bind_left (hopen h .nil hn)
    | @more _ w w' j v hv hw hw' hl =>
      have hlen := hv.shrinks hT
      simp only [List.length_append, List.length_cons] at hlen
      have hrest := ih hl (by omega) (by omega) (acc ++ [v])
      exact hP.bind_right (hval hv .nil hn) (hP.afterValue_more _ hw hw' hl.head.2.1 hl.head.1 (by decide) hrest)

theorem objectLoop_stops (hkey : ∀ {i}, L i → i.headD 0 = ch '"' → P T.string i) {k : Nat} :
    ∀ {i : List UInt8} {m : List (CStr × Json R)}, OpenMembers T L m i → i.length < n → i.length < k →
      P (objectLoop T.string value k m) i := by
  induction k with
  | zero =>
    intro i m h hn hk
    omega
  | succ k ih =>
    intro i m h hn hk
    cases h with
    | key hq h => exact hP.bind_left (hkey h hq)
    | last hq hs hw hw' hv =>
      have hlen := (hT.string_token hq hs).shrinks hs
      simp only [List.length_append, List.length_cons] at hlen
      exact hP.bind_right hs (hP.afterKey hw (hP.bind_left (hopen hv hw' (by rw [List.length_append]; omega))))
    | @more _ i w w' j w'' w₃ i' key v hq hs hw hw' hv hw'' hw₃ hd hm =>
      have hlen := (hT.string_token hq hs).shrinks hs
      have hlen' := hv.shrinks hT
      simp only [List.length_append, List.length_cons] at hlen hlen'
      have hq' : i'.headD 0 = ch '"' := hm.head
      have hne : i' ≠ [] := ne_nil_of_headD (by rw [hq']; decide)
      refine hP.bind_right hs (hP.afterKey hw (hP.bind_right (hval hv hw' (by rw [List.length_append]; omega)) ?_))
      rw [Json.objput_new hd]
      exact hP.afterValue_more _ hw'' hw₃ (by rw [hq']; rfl) hne (by decide) (ih hm (by omega) (by omega))

end

/-- What holds of the parsers of arrays and strings where a text breaks off holds of the parser of values where a value
around it starts. -/
theorem parseValue_stops {P : ∀ {α : Type}, JM α → List UInt8 → Prop} (hP : StopRule P) (hT : T.GivenBut B)
    (harray : ∀ {n i}, L i → i.headD 0 = ch '[' → P (ipclJsonParseArray (ipclJsonParseValue T (n + 1)) (n + 1)) i)
    (hstring : ∀ {i}, L i → i.headD 0 = ch '"' → P T.string i) (n : Nat) : StopsOn T L P (ipclJsonParseValue T n) n := by
  induction n with
  | zero =>
    intro w i h hw hn
    omega
  | succ n ih =>
    intro w i h hw hn
    have hhead := h.head
    simp only [List.length_append] at hn
    refine StopRule.parseValue n hw hhead.2.1 hhead.1 hP ?_
    cases h with
    | leaf hh h =>
      rcases hh with hh | hh
      · have hpos := List.length_pos_iff.2 hhead.1
        obtain ⟨n, rfl⟩ : ∃ m, n = m + 1 := ⟨n - 1, by omega⟩
        rw [hh]
        exact harray h hh
      · rw [hh]
        exact hP.bind_left (hstring h hh)
    | @array w₁ j hw₁ h =>
      have hlen : j.length < n := by simp at hn; omega
      exact hP.bind_right (.peek_cons _ _) (hP.bind_right (.skip_one _ _) (hP.ite_not (by decide)
        (hP.bind_right (.ignore_skipws hw₁ h.head.2.1 h.head.1) (hP.bind_right (.mark _) (hP.bind_right (.peek h.head.1)
          (hP.ite_not h.head.2.2 (arrayLoop_stops hP hT (parseValue_reads hT n) ih h hlen hlen [])))))))
    | @object w₁ j hw₁ h =>
      have hq : j.headD 0 = ch '"' := h.head
      have hne : j ≠ [] := ne_nil_of_headD (by rw [hq]; decide)
      have hlen : j.length < n := by simp at hn; omega
      exact hP.bind_right (.peek_cons _ _) (hP.bind_right (.skip_one _ _) (hP.ite_not (by decide)
        (hP.bind_right (.skipws hw₁ (by rw [hq]; rfl) hne) (hP.bind_right (.mark _) (hP.bind_right (.peek hne)
          (hP.ite_not (by rw [hq]; decide)
            (objectLoop_stops hP hT (parseValue_reads hT n) ih hstring h hlen hlen)))))))

end Pcl

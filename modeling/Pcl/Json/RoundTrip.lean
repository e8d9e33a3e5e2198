import Pcl.Json.ReadBack
import Pcl.Json.Strings

/-!
# Decoding what was encoded

The text of a container is decoded as the container, with its strings read back (`jsonDecode_jsonEncode`).
-/

namespace Pcl

open Grammar

variable {R : Type}

namespace Json

/-- A value without real numbers, whose strings and keys are accepted as UTF-8 and whose keys are different
in every object. -/
inductive Encodable : Json R → Prop
  | null : Encodable .null
  | bool (b : Bool) : Encodable (.bool b)
  | int {i : Int} (hmin : llongMin < i) (hmax : i ≤ llongMax) : Encodable (.int i)
  | str {s : CStr} (h : Utf8Ok s.bytes) : Encodable (.str s)
  | arr {l : List (Json R)} (h : ∀ v ∈ l, Encodable v) : Encodable (.arr l)
  | obj {m : List (CStr × Json R)} (hd : OMap.Distinct keyEq m) (hk : ∀ p ∈ m, Utf8Ok p.1.bytes)
      (hv : ∀ p ∈ m, Encodable p.2) : Encodable (.obj m)

/-- The value is an array or an object. -/
def Container : Json R → Prop
  | .arr _ | .obj _ => True
  | _ => False

end Json

/-- The rest of the text ends a number. -/
def NumEnd (r : List UInt8) : Prop := ∃ c k, r = c :: k ∧ ¬ NumChar c

theorem NumEnd.cons {c : UInt8} (k : List UInt8) (hc : ¬ NumChar c) : NumEnd (c :: k) := ⟨c, k, rfl, hc⟩

namespace Space
variable {s t : List UInt8}

theorem textIf (format : Bool) (hs : Space s) : Space (textIf format s) := by
  cases format with
  | true => exact hs
  | false => exact nil

theorem singleton {c : UInt8} (hc : isspace c = true) : Space [c] := by
  intro d hd
  rw [List.mem_singleton.1 hd]
  exact hc

theorem tabs (format : Bool) (n : Nat) : Space (Pcl.textIf format (tabsText n)) := by
  refine textIf format fun c hc => ?_
  rw [List.eq_of_mem_replicate hc]
  rfl

theorem newline (format : Bool) : Space (Pcl.textIf format [ch '\n']) := textIf format (singleton rfl)

end Space

/-- What follows an element ends a number. -/
theorem numEnd_after {w : List UInt8} (hw : Space w) {c : UInt8} (hc : ¬ NumChar c) (k : List UInt8) :
    NumEnd (w ++ c :: k) := by
  cases w with
  | nil => exact .cons k hc
  | cons b w =>
    refine .cons (w ++ c :: k) fun hb => ?_
    have hs := hw b List.mem_cons_self
    rw [isspace_iff] at hs
    unfold NumChar at hb
    rw [isdigit_iff] at hb
    have h1 : ch 'e' = 0x65 := rfl
    have h2 : ch 'E' = 0x45 := rfl
    have h3 : ch '.' = 0x2e := rfl
    have h4 : ch '-' = 0x2d := rfl
    have h5 : ch '+' = 0x2b := rfl
    rw [h1, h2, h3, h4, h5] at hb
    grind

/-- The strings and keys of the value fit the buffer that they are read into. -/
def Json.Fitting (v : Json R) : Prop := ∀ s ∈ v.strings, StringFits s

theorem Json.Fitting.element {l : List (Json R)} (h : (Json.arr l).Fitting) {v : Json R} (hv : v ∈ l) : v.Fitting :=
  fun s hs => h s (Json.strings_element hv hs)

theorem Json.Fitting.member {m : List (CStr × Json R)} (h : (Json.obj m).Fitting) {p : CStr × Json R} (hp : p ∈ m) :
    StringFits p.1 ∧ p.2.Fitting :=
  ⟨h p.1 (Json.strings_member hp).1, fun s hs => h s ((Json.strings_member hp).2 hs)⟩

/-- What is read back of an element or a member: a value at the start of its text. -/
def TextRead (D : Doubles R) (mem : Stale) (format : Bool) (v : Json R) : Prop :=
  ∀ n r, NumEnd r ∨ v.Container → Value (tokens D mem) (encodeText D format v n ++ r) (v.mapStr (reread mem)) r

section
variable {D : Doubles R} {mem : Stale} {format : Bool}

theorem elements_text {l : List (Json R)} (hl : ∀ v ∈ l, TextRead D mem format v) {w : List UInt8} (hw : Space w)
    (r : List UInt8) (n : Nat) (hne : l ≠ []) : ∃ ws i, elementsText D format l n ++ (w ++ ch ']' :: r) = ws ++ i ∧
      Space ws ∧ Elements (tokens D mem) i (Json.mapElements (reread mem) l) r := by
  induction l with
  | nil => exact absurd rfl hne
  | cons v l ih =>
    have hv := hl v List.mem_cons_self n
    have hcomma : ¬ NumChar (ch ',') := by unfold NumChar; decide
    have hclose : ¬ NumChar (ch ']') := by unfold NumChar; decide
    cases l with
    | nil =>
      have hend := (Space.newline format).append hw
      refine ⟨_, encodeText D format v n ++ ((textIf format [ch '\n'] ++ w) ++ ch ']' :: r), ?_, .tabs format n, ?_⟩
      · simp [elementsText, textIf]
      · exact .last (hv _ (.inl (numEnd_after hend hclose r))) hend
    | cons v' l =>
      obtain ⟨ws, i, heq, hws, hi⟩ := ih (fun u hu => hl u (List.mem_cons_of_mem v hu)) (List.cons_ne_nil _ _)
      refine ⟨_, encodeText D format v n ++ ([] ++ ch ',' :: ((textIf format [ch '\n'] ++ ws) ++ i)), ?_,
        .tabs format n, ?_⟩
      · rw [elementsText, List.append_assoc, List.append_assoc, List.append_assoc, List.append_assoc, heq]
        simp [textIf]
      · exact .more (hv _ (.inl (.cons _ hcomma))) .nil ((Space.newline format).append hws) hi

/-- A key is read back as it is reread. -/
def KeyRead (mem : Stale) (k : CStr) : Prop := ∀ r, Reads (ipclJsonParseString mem) (stringText k ++ r) (reread mem k) r

theorem members_text {m : List (CStr × Json R)} (hk : ∀ p ∈ m, KeyRead mem p.1)
    (hm : ∀ p ∈ m, TextRead D mem format p.2) {w : List UInt8} (hw : Space w) (r : List UInt8) (n : Nat) (hne : m ≠ []) :
    ∃ ws i, membersText D format m n ++ (w ++ ch '\x7d' :: r) = ws ++ i ∧ Space ws ∧
      Members (tokens D mem) i (Json.mapMembers (reread mem) m) r := by
  induction m with
  | nil => exact absurd rfl hne
  | cons p m ih =>
    obtain ⟨k, v⟩ := p
    have hv := hm (k, v) List.mem_cons_self n
    have hkey : KeyRead mem k := hk (k, v) List.mem_cons_self
    have hsp : Space (textIf format [ch ' ']) := Space.textIf format (.singleton rfl)
    have hcomma : ¬ NumChar (ch ',') := by unfold NumChar; decide
    have hclose : ¬ NumChar (ch '\x7d') := by unfold NumChar; decide
    cases m with
    | nil =>
      have hend := (Space.newline format).append hw
      refine ⟨_, stringText k ++ ([] ++ ch ':' :: (textIf format [ch ' '] ++ (encodeText D format v n ++
        ((textIf format [ch '\n'] ++ w) ++ ch '\x7d' :: r)))), ?_, .tabs format n, ?_⟩
      · simp [membersText, textIf]
      · exact .last rfl (hkey _) .nil hsp (hv _ (.inl (numEnd_after hend hclose r))) hend
    | cons p' m =>
      obtain ⟨ws, i, heq, hws, hi⟩ := ih (fun q hq => hk q (List.mem_cons_of_mem _ hq))
        (fun q hq => hm q (List.mem_cons_of_mem _ hq)) (List.cons_ne_nil _ _)
      refine ⟨_, stringText k ++ ([] ++ ch ':' :: (textIf format [ch ' '] ++ (encodeText D format v n ++
        ([] ++ ch ',' :: ((textIf format [ch '\n'] ++ ws) ++ i))))), ?_, .tabs format n, ?_⟩
      · rw [membersText, List.append_assoc, List.append_assoc, List.append_assoc, List.append_assoc, List.append_assoc,
          List.append_assoc, List.append_assoc, heq]
        simp [textIf]
      · exact .more rfl (hkey _) .nil hsp (hv _ (.inl (.cons _ hcomma))) .nil ((Space.newline format).append hws) hi

/-- The text of a value is read as the value with its strings reread. -/
theorem text_read {v : Json R} (hv : v.Encodable) (hfit : v.Fitting)
    (hf : ∀ s ∈ v.strings, ∀ t ∈ v.strings, reread mem s = reread mem t → s = t) : TextRead D mem format v := by
  induction v using Json.ind with
  | null => exact fun _ r _ => .litNull r
  | bool b =>
    intro _ r _
    cases b with
    | true => exact .litTrue r
    | false => exact .litFalse r
  | int i =>
    rintro _ r (⟨c, k, rfl, hc⟩ | hno)
    · cases hv with
      | int hmin hmax =>
        refine .number ?_ (parseNumber_decimal D hmin hmax hc k)
        rw [encodeText, decimal_append_headD]
        exact decimal_starts i
    · exact hno.elim
  | real r => cases hv
  | str s =>
    intro _ r _
    cases hv with
    | str hs => exact .string rfl (parseString_text mem hs (hfit s (List.mem_singleton_self s)) r)
  | arr l ih =>
    intro n r _
    cases hv with
    | arr hv =>
      have hl : ∀ v ∈ l, TextRead D mem format v := fun v hm =>
        ih v hm (hv v hm) (hfit.element hm) fun s hs t ht => hf s (Json.strings_element hm hs) t (Json.strings_element hm ht)
      by_cases hne : l = []
      · subst hne
        have htext : encodeText D format (.arr []) n ++ r = ch '[' :: ([] ++ ch ']' :: r) := by
          simp [encodeText, containerText, elementsText, textIf]
        rw [htext]
        exact .emptyArray .nil r
      · obtain ⟨ws, i, heq, hws, hi⟩ := elements_text hl (Space.tabs (format && decide (l.length ≠ 0)) n) r (n + 1) hne
        have htext : encodeText D format (.arr l) n ++ r =
            ch '[' :: ((textIf (format && decide (l.length ≠ 0)) [ch '\n'] ++ ws) ++ i) := by
          rw [List.append_assoc, ← heq]
          simp [encodeText, containerText]
        rw [htext]
        exact .array ((Space.newline _).append hws) hi
  | obj m ih =>
    intro n r _
    cases hv with
    | obj hd hk hv =>
      have hm : ∀ p ∈ m, TextRead D mem format p.2 := fun p hp => ih p hp (hv p hp) (hfit.member hp).2 fun s hs t ht =>
        hf s ((Json.strings_member hp).2 hs) t ((Json.strings_member hp).2 ht)
      by_cases hne : m = []
      · subst hne
        have htext : encodeText D format (.obj []) n ++ r = ch '\x7b' :: ([] ++ ch '\x7d' :: r) := by
          simp [encodeText, containerText, membersText, textIf]
        rw [htext]
        exact .emptyObject .nil r
      · obtain ⟨ws, i, heq, hws, hi⟩ :=
          members_text (fun p hp => parseString_text mem (hk p hp) (hfit.member hp).1) hm (Space.tabs (format && decide (m.length ≠ 0)) n) r (n + 1) hne
        have htext : encodeText D format (.obj m) n ++ r =
            ch '\x7b' :: ((textIf (format && decide (m.length ≠ 0)) [ch '\n'] ++ ws) ++ i) := by
          rw [List.append_assoc, ← heq]
          simp [encodeText, containerText]
        rw [htext]
        exact .object ((Space.newline _).append hws) hi (Json.distinct_mapMembers hd hf)

/-! ### A string that does not fit -/

/-- The text of a string that does not fit. -/
def UnfitString (i : List UInt8) : Prop := ∃ s r, i = stringText s ++ r ∧ ¬ StringFits s

/-- The text of a value with a string that does not fit breaks off there. -/
def TextOpen (D : Doubles R) (mem : Stale) (format : Bool) (v : Json R) : Prop :=
  ∀ n r, OpenValue (tokens D mem) UnfitString (encodeText D format v n ++ r)

theorem elements_open {l : List (Json R)} (hl : ∀ v ∈ l, TextRead D mem format v ∨ TextOpen D mem format v)
    (hex : ∃ v ∈ l, TextOpen D mem format v) (r : List UInt8) (n : Nat) :
    ∃ ws i, elementsText D format l n ++ r = ws ++ i ∧ Space ws ∧ OpenElements (tokens D mem) UnfitString i := by
  induction l with
  | nil =>
    obtain ⟨v, hv, -⟩ := hex
    cases hv
  | cons v l ih =>
    have hcomma : ¬ NumChar (ch ',') := by unfold NumChar; decide
    by_cases hv : TextOpen D mem format v
    · rw [elementsText, List.append_assoc, List.append_assoc]
      exact ⟨_, _, rfl, .tabs format n, .last (hv n _)⟩
    · obtain ⟨u, hu, ho⟩ := hex
      have hul : u ∈ l := (List.mem_cons.1 hu).resolve_left fun h => hv (h ▸ ho)
      obtain ⟨v', l', rfl⟩ := List.exists_cons_of_ne_nil (List.ne_nil_of_mem hul)
      obtain ⟨ws, i, heq, hws, hi⟩ := ih (fun w hw => hl w (List.mem_cons_of_mem v hw)) ⟨u, hul, ho⟩
      have hread := (hl v List.mem_cons_self).resolve_right hv
      refine ⟨_, encodeText D format v n ++ ([] ++ ch ',' :: ((textIf format [ch '\n'] ++ ws) ++ i)), ?_,
        .tabs format n, ?_⟩
      · rw [elementsText, List.append_assoc, List.append_assoc, List.append_assoc, List.append_assoc, heq]
        simp [textIf]
      · exact .more (hread n _ (.inl (.cons _ hcomma))) .nil ((Space.newline format).append hws) hi

theorem members_open {m : List (CStr × Json R)} (hk : ∀ p ∈ m, KeyRead mem p.1 ∨ ¬ StringFits p.1)
    (hm : ∀ p ∈ m, TextRead D mem format p.2 ∨ TextOpen D mem format p.2)
    (hex : ∃ p ∈ m, ¬ StringFits p.1 ∨ TextOpen D mem format p.2) (r : List UInt8) (n : Nat) :
    ∀ {acc : List (CStr × Json R)}, OMap.Distinct Json.keyEq (acc ++ Json.mapMembers (reread mem) m) →
      ∃ ws i, membersText D format m n ++ r = ws ++ i ∧ Space ws ∧ OpenMembers (tokens D mem) UnfitString acc i := by
  induction m with
  | nil =>
    obtain ⟨p, hp, -⟩ := hex
    cases hp
  | cons p m ih =>
    intro acc hd
    obtain ⟨k, v⟩ := p
    have hsp : Space (textIf format [ch ' ']) := Space.textIf format (.singleton rfl)
    have hcomma : ¬ NumChar (ch ',') := by unfold NumChar; decide
    by_cases hkf : StringFits k
    case neg =>
      rw [membersText, List.append_assoc, List.append_assoc]
      exact ⟨_, _, rfl, .tabs format n, .key rfl ⟨k, _, rfl, hkf⟩⟩
    have hkey : KeyRead mem k := (hk (k, v) List.mem_cons_self).resolve_right (not_not.2 hkf)
    by_cases hv : TextOpen D mem format v
    · obtain ⟨tail, htext⟩ : ∃ tail, membersText D format ((k, v) :: m) n ++ r = textIf format (tabsText n) ++
          (stringText k ++ ([] ++ ch ':' :: (textIf format [ch ' '] ++ (encodeText D format v n ++ tail)))) := by
        rw [membersText, List.append_assoc, List.append_assoc, List.append_assoc, List.append_assoc, List.append_assoc]
        exact ⟨_, rfl⟩
      exact ⟨_, _, htext, .tabs format n, .last rfl (hkey _) .nil hsp (hv n tail)⟩
    · obtain ⟨q, hq, ho⟩ := hex
      have hqm : q ∈ m := (List.mem_cons.1 hq).resolve_left fun h => by
        rw [h] at ho
        exact ho.elim (fun hno => hno hkf) hv
      obtain ⟨p', m', rfl⟩ := List.exists_cons_of_ne_nil (List.ne_nil_of_mem hqm)
      rw [Json.mapMembers, ← List.singleton_append, ← List.append_assoc] at hd
      obtain ⟨ws, i, heq, hws, hi⟩ := ih (fun w hw => hk w (List.mem_cons_of_mem _ hw))
        (fun w hw => hm w (List.mem_cons_of_mem _ hw)) ⟨q, hqm, ho⟩ hd
      have hread := (hm (k, v) List.mem_cons_self).resolve_right hv
      have hd' : OMap.Distinct Json.keyEq (acc ++ [(reread mem k, Json.mapStr (reread mem) v)]) :=
        List.Pairwise.sublist (List.sublist_append_left _ _) hd
      refine ⟨_, stringText k ++ ([] ++ ch ':' :: (textIf format [ch ' '] ++ (encodeText D format v n ++
        ([] ++ ch ',' :: ((textIf format [ch '\n'] ++ ws) ++ i))))), ?_, .tabs format n, ?_⟩
      · rw [membersText, List.append_assoc, List.append_assoc, List.append_assoc, List.append_assoc, List.append_assoc,
          List.append_assoc, List.append_assoc, heq]
        simp [textIf]
      · exact .more rfl (hkey _) .nil hsp (hread n _ (.inl (.cons _ hcomma))) .nil ((Space.newline format).append hws)
          hd' hi

theorem text_open {v : Json R} (hv : v.Encodable) (hfit : ¬ v.Fitting)
    (hf : ∀ s ∈ v.strings, ∀ t ∈ v.strings, reread mem s = reread mem t → s = t) : TextOpen D mem format v := by
  induction v using Json.ind with
  | null | bool b | int i | real r => exact absurd (fun s hs => by cases hs) hfit
  | str s =>
    intro n r
    refine .leaf (.inr rfl) ⟨s, r, rfl, fun hs => hfit fun t ht => ?_⟩
    rwa [List.mem_singleton.1 ht]
  | arr l ih =>
    intro n r
    cases hv with
    | arr hv =>
      have hmem {v : Json R} (hm : v ∈ l) : ∀ s ∈ v.strings, ∀ t ∈ v.strings, reread mem s = reread mem t → s = t :=
        fun s hs t ht => hf s (Json.strings_element hm hs) t (Json.strings_element hm ht)
      have hl (v : Json R) (hm : v ∈ l) : TextRead D mem format v ∨ TextOpen D mem format v := by
        by_cases hvf : v.Fitting
        · exact .inl (text_read (hv v hm) hvf (hmem hm))
        · exact .inr (ih v hm (hv v hm) hvf (hmem hm))
      obtain ⟨v, hm, hvf⟩ : ∃ v ∈ l, ¬ v.Fitting := by
        by_contra hall
        refine hfit fun s hs => ?_
        obtain ⟨v, hm, hs⟩ := Json.mem_elementStrings hs
        exact not_not.1 (fun hno => hall ⟨v, hm, fun hvf => hno (hvf s hs)⟩)
      obtain ⟨ws, i, heq, hws, hi⟩ := elements_open hl ⟨v, hm, ih v hm (hv v hm) hvf (hmem hm)⟩
        (textIf (format && decide (l.length ≠ 0)) (tabsText n) ++ ch ']' :: r) (n + 1)
      have htext : encodeText D format (.arr l) n ++ r =
          ch '[' :: ((textIf (format && decide (l.length ≠ 0)) [ch '\n'] ++ ws) ++ i) := by
        rw [List.append_assoc, ← heq]
        simp [encodeText, containerText]
      rw [htext]
      exact .array ((Space.newline _).append hws) hi
  | obj m ih =>
    intro n r
    cases hv with
    | obj hd hk hv =>
      have hmem {p : CStr × Json R} (hp : p ∈ m) : ∀ s ∈ p.2.strings, ∀ t ∈ p.2.strings,
          reread mem s = reread mem t → s = t :=
        fun s hs t ht => hf s ((Json.strings_member hp).2 hs) t ((Json.strings_member hp).2 ht)
      have hm (p : CStr × Json R) (hp : p ∈ m) : TextRead D mem format p.2 ∨ TextOpen D mem format p.2 := by
        by_cases hvf : p.2.Fitting
        · exact .inl (text_read (hv p hp) hvf (hmem hp))
        · exact .inr (ih p hp (hv p hp) hvf (hmem hp))
      have hkeys (p : CStr × Json R) (hp : p ∈ m) : KeyRead mem p.1 ∨ ¬ StringFits p.1 := by
        by_cases hkf : StringFits p.1
        · exact .inl (parseString_text mem (hk p hp) hkf)
        · exact .inr hkf
      obtain ⟨p, hp, ho⟩ : ∃ p ∈ m, ¬ StringFits p.1 ∨ ¬ p.2.Fitting := by
        by_contra hall
        refine hfit fun s hs => ?_
        obtain ⟨p, hp, rfl | hs⟩ := Json.mem_memberStrings hs
        · exact not_not.1 fun hno => hall ⟨p, hp, .inl hno⟩
        · exact not_not.1 (fun hno => hall ⟨p, hp, .inr fun hvf => hno (hvf s hs)⟩)
      obtain ⟨ws, i, heq, hws, hi⟩ := members_open hkeys hm
        ⟨p, hp, ho.imp_right fun hvf => ih p hp (hv p hp) hvf (hmem hp)⟩
        (textIf (format && decide (m.length ≠ 0)) (tabsText n) ++ ch '\x7d' :: r) (n + 1)
        (List.nil_append (Json.mapMembers _ m) ▸ Json.distinct_mapMembers hd hf)
      have htext : encodeText D format (.obj m) n ++ r =
          ch '\x7b' :: ((textIf (format && decide (m.length ≠ 0)) [ch '\n'] ++ ws) ++ i) := by
        rw [List.append_assoc, ← heq]
        simp [encodeText, containerText]
      rw [htext]
      exact .object ((Space.newline _).append hws) hi

/-! ### No NUL in the text -/

theorem nul_charText {c : UInt8} (hc : c ≠ 0) : 0 ∉ charText c := by
  have htable : ∀ n < 256, UInt8.ofNat n ≠ 0 → 0 ∉ charText (UInt8.ofNat n) := by
    set_option maxRecDepth 4000 in decide
  have h := htable c.toNat (UInt8.toNat_lt c)
  rw [UInt8.ofNat_toNat] at h
  exact h hc

theorem nul_stringText (s : CStr) : 0 ∉ stringText s := by
  intro h
  rcases List.mem_cons.1 h with h | h
  · exact absurd h (by decide)
  rcases List.mem_append.1 h with h | h
  · obtain ⟨c, hc, h⟩ := List.mem_flatMap.1 h
    exact nul_charText (fun h0 => s.nul_free (h0 ▸ hc)) h
  · exact absurd h (by decide)

theorem nul_decimal (i : Int) : 0 ∉ decimal i := by
  have hd : 0 ∉ digits i.natAbs := fun h => absurd (digits_isdigit _ _ h) (by decide)
  by_cases hi : i < 0
  · rw [decimal_neg hi, List.mem_cons, not_or]
    exact ⟨by decide, hd⟩
  · rwa [decimal_nonneg hi]

theorem nul_textIf {c : Bool} {s : List UInt8} (hs : 0 ∉ s) : 0 ∉ textIf c s := by
  cases c with
  | true => exact hs
  | false => exact List.not_mem_nil

theorem nul_tabs (n : Nat) : 0 ∉ tabsText n := fun h => absurd (List.eq_of_mem_replicate h) (by decide)

theorem nul_containerText {opening closing : UInt8} (ho : opening ≠ 0) (hc : closing ≠ 0) {n count : Nat}
    {loop : List UInt8} (hloop : 0 ∉ loop) : 0 ∉ containerText opening closing format n count loop := by
  unfold containerText
  simp only [List.mem_cons, List.mem_append, List.not_mem_nil, not_or, or_false]
  exact ⟨ho.symm, nul_textIf (by decide), hloop, nul_textIf (nul_tabs n), hc.symm⟩

theorem nul_encodeText {v : Json R} (hv : v.Encodable) : ∀ n, 0 ∉ encodeText D format v n := by
  induction v using Json.ind with
  | null => exact fun _ => by rw [encodeText]; decide
  | bool b => exact fun _ => by cases b <;> (rw [encodeText]; decide)
  | int i => exact fun _ => nul_decimal i
  | real r => cases hv
  | str s => exact fun _ => nul_stringText s
  | arr l ih =>
    cases hv with
    | arr hv =>
      have hloop : ∀ n, 0 ∉ elementsText D format l n := by
        induction l with
        | nil => exact fun _ => List.not_mem_nil
        | cons v l ihl =>
          intro n
          have hl := ihl (fun u hu => ih u (List.mem_cons_of_mem v hu)) fun u hu => hv u (List.mem_cons_of_mem v hu)
          simp only [elementsText, List.mem_append, not_or]
          exact ⟨nul_textIf (nul_tabs n), ih v List.mem_cons_self (hv v List.mem_cons_self) n, nul_textIf (by decide),
            nul_textIf (by decide), hl n⟩
      exact fun n => nul_containerText (by decide) (by decide) (hloop (n + 1))
  | obj m ih =>
    cases hv with
    | obj hd hk hv =>
      clear hd hk
      have hloop : ∀ n, 0 ∉ membersText D format m n := by
        induction m with
        | nil => exact fun _ => List.not_mem_nil
        | cons p m ihm =>
          intro n
          obtain ⟨k, v⟩ := p
          have hm := ihm (fun q hq => ih q (List.mem_cons_of_mem _ hq)) fun q hq => hv q (List.mem_cons_of_mem _ hq)
          simp only [membersText, List.mem_append, not_or]
          exact ⟨nul_textIf (nul_tabs n), nul_stringText k, by decide, nul_textIf (by decide),
            ih _ List.mem_cons_self (hv _ List.mem_cons_self) n, nul_textIf (by decide), nul_textIf (by decide), hm n⟩
      exact fun n => nul_containerText (by decide) (by decide) (hloop (n + 1))

/-- The encoder returns the text of the value where the text fits and there is no NUL in it. -/
theorem jsonEncode_text_of_nul (mem : Stale) {v : Json R} (hfit : EncodeFits D format v) (hv : 0 ∉ encodeText D format v 0)
    (e : ErrState) : ∃ text, jsonEncode D mem v format e = some (text, e) ∧ text.bytes = encodeText D format v 0 := by
  have hinit : (bufInit 256 .text : Buf UInt8).Holds [] true := .init (by decide) .text
  rcases (encode_puts D format v 0).appends e hinit rfl with ⟨-, b', hrun, hb', -⟩ | ⟨hno, -⟩
  · refine ⟨⟨encodeText D format v 0, hv⟩, ?_, rfl⟩
    have hstr : blockStr mem b'.data = ⟨encodeText D format v 0, hv⟩ := by
      rw [blockStr_held mem hb']
      exact CStr.ofBytes_bytes ⟨encodeText D format v 0, hv⟩
    unfold jsonEncode
    simp only [ErrM.bind_run, hrun, Option.bind_some, ErrM.pure_run, hstr]
  · exact absurd hfit hno

/-- It has no defined result where the text does not fit. -/
theorem EncodeFits.of_run {mem : Stale} {v : Json R} {text : CStr} {e e' : ErrState}
    (h : jsonEncode D mem v format e = some (text, e')) : EncodeFits D format v := by
  have hinit : (bufInit 256 .text : Buf UInt8).Holds [] true := .init (by decide) .text
  rcases (encode_puts D format v 0).appends e hinit rfl with ⟨hfit, -⟩ | ⟨-, hrun⟩
  · exact hfit
  · unfold jsonEncode at h
    rw [ErrM.bind_run, hrun] at h
    cases h

/-- The encoder returns the text of the value where it fits. -/
theorem jsonEncode_text (mem : Stale) {v : Json R} (hfit : EncodeFits D format v) (hv : v.Encodable) (e : ErrState) : ∃ text,
    jsonEncode D mem v format e = some (text, e) ∧ text.bytes = encodeText D format v 0 :=
  jsonEncode_text_of_nul mem hfit (nul_encodeText hv 0) e

/-- The encoded value is decoded as the value with its strings reread, where they fit. -/
theorem jsonDecode_jsonEncode (D : Doubles R) (mem : Stale) (format : Bool) {v : Json R} (hv : v.Encodable)
    (hc : v.Container) (henc : EncodeFits D format v) (hfit : v.Fitting)
    (hf : ∀ s ∈ v.strings, ∀ t ∈ v.strings, reread mem s = reread mem t → s = t) (rest : List UInt8) (e : ErrState) :
    ∃ text, jsonEncode D mem v format e = some (text, e) ∧
      jsonDecode D mem (text.bytes ++ rest) (text.bytes ++ rest).length =
        some (.ok (v.mapStr (reread mem), text.bytes.length)) := by
  obtain ⟨text, hrun, htext⟩ := jsonEncode_text mem henc hv e
  refine ⟨text, hrun, ?_⟩
  have hval : Value (tokens D mem) (text.bytes ++ rest) (v.mapStr (reread mem)) rest := by
    rw [htext]
    exact text_read hv hfit hf 0 rest (.inr hc)
  have h := decodeWith_document (tokens_givenBut D mem) [] ⟨[], _, Space.nil, .inl rfl, hval⟩
  have hlen : ((text.bytes ++ rest).length : Int) - rest.length = text.bytes.length := by
    rw [List.length_append]
    omega
  rw [List.append_nil, List.nil_append, hlen] at h
  exact h

/-- Decoding has no result where one of the strings does not fit. -/
theorem jsonDecode_lost {v : Json R} (hv : v.Encodable) (hfit : ¬ v.Fitting)
    (hf : ∀ s ∈ v.strings, ∀ t ∈ v.strings, reread mem s = reread mem t → s = t) (rest : List UInt8) :
    jsonDecode D mem (encodeText D format v 0 ++ rest) (encodeText D format v 0 ++ rest).length = none := by
  have hopen : TextOpen D mem format v := text_open hv hfit hf
  have ho := hopen 0 rest
  generalize encodeText D format v 0 ++ rest = json at ho
  have hbom : stripBom json = json := if_neg (bom_not_open ho)
  have hlost : ipclJsonParseValue (tokens D mem) (json.length + 1) (.start json []) = none :=
    parseValue_stops Lost.rule (tokens_givenBut D mem)
    (fun {n i} hl hh => by
      obtain ⟨s, r, rfl, -⟩ := hl
      exact absurd hh (show ch '"' ≠ ch '[' by decide))
    (fun {i} hl _ => by
      obtain ⟨s, r, rfl, hs⟩ := hl
      exact parseString_text_lost mem hs r)
    _ ho .nil (Nat.lt_succ_self _) [] _ (JState.start_at json [])
  have hrun := decodeWith_run (tokens D mem) [] ho.head.1
  rw [hbom, if_neg ho.head.1, hlost, List.append_nil] at hrun
  exact hrun

end

/-! ### The round trip -/

/-- A value survives encoding and decoding, whatever follows its text. -/
def RoundTrips (D : Doubles R) (v : Json R) (format : Bool) (rest : List UInt8) : Prop :=
  ∀ mem e, ∃ text w, jsonEncode D mem v format e = some (text, e) ∧
    jsonDecode D mem (text.bytes ++ rest) (text.bytes ++ rest).length = some (.ok (w, text.bytes.length)) ∧ w.Same v

/-- Memory in which a control character follows every block. -/
def dirty : Stale := fun _ => ⟨[0x01], by decide⟩

theorem reread_dirty {s : CStr} (hs : ¬ Terminated s) : (reread dirty s).bytes = s.bytes ++ [0x01] := by
  have ht : terminatedBy true s.bytes = false := by
    rw [← Bool.not_eq_true, terminatedBy_iff]
    exact hs
  have h0 : ¬ (false = true ∨ (0 : UInt8) ∈ s.bytes) := by
    rintro (h | h)
    · cases h
    · exact s.nul_free h
  have hfree : (0 : UInt8) ∉ s.bytes ++ [0x01] := by
    rw [List.mem_append, not_or]
    exact ⟨s.nul_free, by decide⟩
  unfold reread heldStr
  rw [ht, if_neg h0]
  exact congrArg CStr.bytes (CStr.ofBytes_bytes ⟨_, hfree⟩)

theorem reread_dirty_length (s : CStr) :
    (reread dirty s).bytes.length = s.bytes.length + if Terminated s then 0 else 1 := by
  by_cases hs : Terminated s
  · rw [reread_terminated _ hs, if_pos hs, Nat.add_zero]
  · rw [reread_dirty hs, if_neg hs, List.length_append, List.length_singleton]

theorem reread_dirty_injective {s t : CStr} (h : reread dirty s = reread dirty t) : s = t := by
  have hnot {s t : CStr} (ht : ¬ Terminated t) (h : s.bytes = t.bytes ++ [0x01]) : ¬ Terminated s := fun hs =>
    hs 0x01 (by rw [h, List.getLast?_concat]) (by decide)
  have hb := congrArg CStr.bytes h
  by_cases hs : Terminated s
  · rw [reread_terminated _ hs] at hb
    by_cases ht : Terminated t
    · rw [reread_terminated _ ht] at hb
      exact CStr.ext hb
    · rw [reread_dirty ht] at hb
      exact absurd hs (hnot ht hb)
  · rw [reread_dirty hs] at hb
    by_cases ht : Terminated t
    · rw [reread_terminated _ ht] at hb
      exact absurd ht (hnot hs hb.symm)
    · rw [reread_dirty ht] at hb
      exact CStr.ext (List.append_cancel_right hb)

/-- Rereading is a permutation of the strings only where it changes none. -/
theorem terminated_of_perm {l : List CStr} (h : (l.map (reread dirty)).Perm l) : ∀ s ∈ l, Terminated s := by
  have hsum : ((l.map (reread dirty)).map fun s => s.bytes.length).sum = (l.map fun s => s.bytes.length).sum :=
    (h.map _).sum_nat
  have hcount (l : List CStr) : ((l.map (reread dirty)).map fun s => s.bytes.length).sum =
      (l.map fun s => s.bytes.length).sum + l.countP fun s => !decide (Terminated s) := by
    induction l with
    | nil => rfl
    | cons s l ih =>
      simp only [List.map_cons, List.sum_cons, ih, reread_dirty_length, List.countP_cons]
      by_cases hs : Terminated s <;> simp [hs] <;> omega
  have hzero : l.countP (fun s => !decide (Terminated s)) = 0 := by
    have := hcount l
    omega
  intro s hs
  simpa using List.countP_eq_zero.1 hzero s hs

theorem RoundTrips.same {D : Doubles R} {v : Json R} {format : Bool} {rest : List UInt8} (h : RoundTrips D v format rest)
    (hv : v.Encodable) (hc : v.Container) (henc : EncodeFits D format v) (hfit : v.Fitting) (mem : Stale)
    (hf : ∀ s ∈ v.strings, ∀ t ∈ v.strings, reread mem s = reread mem t → s = t) : (v.mapStr (reread mem)).Same v := by
  obtain ⟨text, w, hrun, hdec, hw⟩ := h mem .zero
  obtain ⟨text', hrun', hdec'⟩ := jsonDecode_jsonEncode D mem format hv hc henc hfit hf rest .zero
  rw [hrun] at hrun'
  injection hrun' with hrun'
  injection hrun' with htext
  subst htext
  rw [hdec] at hdec'
  injection hdec' with hdec'
  injection hdec' with hdec'
  injection hdec' with hw'
  rwa [hw'] at hw

theorem RoundTrips.fitting {D : Doubles R} {v : Json R} {format : Bool} {rest : List UInt8} (h : RoundTrips D v format rest)
    (hv : v.Encodable) : EncodeFits D format v ∧ v.Fitting := by
  obtain ⟨text, w, hrun, hdec, -⟩ := h dirty .zero
  have henc := EncodeFits.of_run hrun
  refine ⟨henc, not_not.1 fun hfit => ?_⟩
  obtain ⟨text', hrun', htext⟩ := jsonEncode_text dirty henc hv .zero
  rw [hrun] at hrun'
  injection hrun' with hrun'
  injection hrun' with htext'
  subst htext'
  rw [htext, jsonDecode_lost hv hfit fun s _ t _ => reread_dirty_injective] at hdec
  cases hdec

/-- A container survives encoding and decoding exactly when none of its strings ends in a `\u` escape, and its text and
its strings fit their buffers. -/
theorem jsonDecode_jsonEncode_iff (D : Doubles R) {v : Json R} (hv : v.Encodable) (hc : v.Container) (format : Bool)
    (rest : List UInt8) : RoundTrips D v format rest ↔
      (∀ s ∈ v.strings, Terminated s) ∧ EncodeFits D format v ∧ ∀ s ∈ v.strings, StringFits s := by
  constructor
  · intro h
    obtain ⟨henc, hfit⟩ := h.fitting hv
    have hperm := (h.same hv hc henc hfit dirty fun s _ t _ => reread_dirty_injective).strings_perm
    rw [Json.strings_mapStr] at hperm
    exact ⟨terminated_of_perm hperm, henc, hfit⟩
  · rintro ⟨hs, henc, hfit⟩ mem e
    have hid : ∀ s ∈ v.strings, reread mem s = s := fun s h => reread_terminated mem (hs s h)
    obtain ⟨text, hrun, hdec⟩ := jsonDecode_jsonEncode D mem format hv hc henc hfit
      (fun s h t h' heq => by rwa [hid s h, hid t h'] at heq) rest e
    rw [Json.mapStr_id hid] at hdec
    exact ⟨text, v, hrun, hdec, .refl v⟩

theorem jsonDecode_jsonEncode_iff_list : RoundTrips decimals (.arr [.str (.lit "a\n"), .int (-1)]) true (txt "\"") ↔
    (∀ s ∈ Json.strings (R := Int × Int) (.arr [.str (.lit "a\n"), .int (-1)]), Terminated s) ∧
      EncodeFits decimals true (.arr [.str (.lit "a\n"), .int (-1)]) ∧
        ∀ s ∈ Json.strings (R := Int × Int) (.arr [.str (.lit "a\n"), .int (-1)]), StringFits s := by
  refine jsonDecode_jsonEncode_iff decimals (.arr fun v hv => ?_) trivial true (txt "\"")
  rcases List.mem_cons.1 hv with rfl | hv
  · exact .str (by unfold Utf8Ok; decide)
  · rw [List.mem_singleton.1 hv]
    exact .int (by decide) (by decide)

/-- The string of one control character comes back with what stood behind its buffer. -/
theorem jsonEncode_loses : ¬ RoundTrips decimals (.arr [.str ⟨[0x01], by decide⟩]) false [] := by
  intro h
  have hv : Json.Encodable (R := Int × Int) (.arr [.str ⟨[0x01], by decide⟩]) := .arr fun v hv => by
    rw [List.mem_singleton.1 hv]
    exact .str (by unfold Utf8Ok; decide)
  have hone (s) (hs : s ∈ Json.strings (R := Int × Int) (.arr [.str ⟨[0x01], by decide⟩])) : s = ⟨[0x01], by decide⟩ :=
    List.mem_singleton.1 hs
  obtain ⟨henc, hfit⟩ := h.fitting hv
  have hsame := h.same hv trivial henc hfit (fun _ => .lit "x") fun s hs t ht _ => (hone s hs).trans (hone t ht).symm
  have hperm := hsame.strings_perm
  rw [Json.strings_mapStr] at hperm
  have hread : reread (fun _ => .lit "x") ⟨[0x01], by decide⟩ = ⟨[0x01], by decide⟩ :=
    hone _ (hperm.mem_iff.1 List.mem_cons_self)
  exact absurd hread (by decide)

end Pcl

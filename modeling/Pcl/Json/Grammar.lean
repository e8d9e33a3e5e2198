import Pcl.Json.Reads

/-!
# The grammar of JSON values

`Value T i v r`: the text `i` starts with a value, written as `v`, and goes on with `r`, for the string
and number tokens that the parsers `T` read. `OpenValue T L i` is a value with another one inside, or a key, from which
on `L` holds of the text: there it breaks off.
-/

namespace Pcl

variable {R : Type}

/-- The byte starts a number. -/
def startsNumber (c : UInt8) : Prop := c = ch '-' ∨ isdigit c = true

theorem startsNumber.ne {c : UInt8} (h : startsNumber c) : c ≠ ch '\x7b' ∧ c ≠ ch '[' ∧ c ≠ ch '"' ∧ c ≠ ch 't' ∧
    c ≠ ch 'f' ∧ c ≠ ch 'n' ∧ c ≠ ch ']' ∧ c ≠ ch '\x7d' ∧ c ≠ 0xEF ∧
    isspace c = false := by
  have hc : c = 0x2d ∨ (0x30 ≤ c ∧ c ≤ 0x39) := by
    rcases h with h | h
    · exact .inl h
    · exact .inr (isdigit_iff.1 h)
  have hs : isspace c = false := by
    rw [← Bool.not_eq_true, isspace_iff]
    grind
  refine ⟨?_, ?_, ?_, ?_, ?_, ?_, ?_, ?_, ?_, hs⟩
  · show c ≠ 0x7b
    grind
  · show c ≠ 0x5b
    grind
  · show c ≠ 0x22
    grind
  · show c ≠ 0x74
    grind
  · show c ≠ 0x66
    grind
  · show c ≠ 0x6e
    grind
  · show c ≠ 0x5d
    grind
  · show c ≠ 0x7d
    grind
  · grind

/-- The parser of a token reads a nonempty piece of the text. -/
def Token {α : Type} (p : JM α) (i : List UInt8) : Prop := ∃ a tok r, tok ≠ [] ∧ i = tok ++ r ∧ Reads p i a r

/-- What is assumed of given token parsers: they read a token or fail, a string at least where nothing stands behind
the text. -/
structure Tokens.Given (T : Tokens R) : Prop where
  string : ∀ i, i.headD 0 = ch '"' → Token T.string i ∨ FailsAlone T.string i
  string_else : ∀ c i, c ≠ ch '"' → Fails T.string (c :: i)
  number : ∀ i, startsNumber (i.headD 0) → Token T.number i ∨ Fails T.number i

/-- They read a token or fail, but for the strings of `B`, which are not read. -/
structure Tokens.GivenBut (T : Tokens R) (B : List UInt8 → Prop) : Prop where
  string : ∀ i, i.headD 0 = ch '"' → Token T.string i ∨ Fails T.string i ∨ B i
  unread : ∀ {i r : List UInt8} {k : CStr}, B i → ¬ Reads T.string i k r
  string_else : ∀ c i, c ≠ ch '"' → Fails T.string (c :: i)
  number : ∀ i, startsNumber (i.headD 0) → Token T.number i ∨ Fails T.number i

theorem Tokens.Given.but {T : Tokens R} (hT : T.Given) :
    T.GivenBut fun i => i.headD 0 = ch '"' ∧ FailsAlone T.string i where
  string i hi := (hT.string i hi).imp_right fun hf => .inr ⟨hi, hf⟩
  unread hb h := h.not_failsAlone hb.2
  string_else := hT.string_else
  number := hT.number

namespace Grammar

mutual

/-- A value at the start of a text. -/
inductive Value (T : Tokens R) : List UInt8 → Json R → List UInt8 → Prop
  | litNull (r : List UInt8) : Value T (txt "null" ++ r) .null r
  | litTrue (r : List UInt8) : Value T (txt "true" ++ r) (.bool true) r
  | litFalse (r : List UInt8) : Value T (txt "false" ++ r) (.bool false) r
  | string {i r : List UInt8} {k : CStr} (hq : i.headD 0 = ch '"') (h : Reads T.string i k r) : Value T i (.str k) r
  | number {i r : List UInt8} {v : Json R} (hn : startsNumber (i.headD 0)) (h : Reads T.number i v r) : Value T i v r
  | emptyArray {w : List UInt8} (hw : Space w) (r : List UInt8) : Value T (ch '[' :: (w ++ ch ']' :: r)) (.arr []) r
  | array {w i r : List UInt8} {l : List (Json R)} (hw : Space w) (h : Elements T i l r) :
      Value T (ch '[' :: (w ++ i)) (.arr l) r
  | emptyObject {w : List UInt8} (hw : Space w) (r : List UInt8) : Value T (ch '\x7b' :: (w ++ ch '\x7d' :: r)) (.obj []) r
  | object {w i r : List UInt8} {m : List (CStr × Json R)} (hw : Space w) (h : Members T i m r)
      (hk : OMap.Distinct Json.keyEq m) : Value T (ch '\x7b' :: (w ++ i)) (.obj m) r

/-- One or more values separated by commas, up to a closing bracket. -/
inductive Elements (T : Tokens R) : List UInt8 → List (Json R) → List UInt8 → Prop
  | last {i w r : List UInt8} {v : Json R} (h : Value T i v (w ++ ch ']' :: r)) (hw : Space w) : Elements T i [v] r
  | more {i w w' j r : List UInt8} {v : Json R} {l : List (Json R)} (h : Value T i v (w ++ ch ',' :: (w' ++ j)))
      (hw : Space w) (hw' : Space w') (hl : Elements T j l r) : Elements T i (v :: l) r

/-- One or more members separated by commas, up to a closing brace. -/
inductive Members (T : Tokens R) : List UInt8 → List (CStr × Json R) → List UInt8 → Prop
  | last {i w w' j w'' r : List UInt8} {k : CStr} {v : Json R} (hq : i.headD 0 = ch '"') (hk : Reads T.string i k (w ++ ch ':' :: (w' ++ j)))
      (hw : Space w) (hw' : Space w') (hv : Value T j v (w'' ++ ch '\x7d' :: r)) (hw'' : Space w'') :
      Members T i [(k, v)] r
  | more {i w w' j w'' w₃ i' r : List UInt8} {k : CStr} {v : Json R} {m : List (CStr × Json R)}
      (hq : i.headD 0 = ch '"') (hk : Reads T.string i k (w ++ ch ':' :: (w' ++ j))) (hw : Space w) (hw' : Space w')
      (hv : Value T j v (w'' ++ ch ',' :: (w₃ ++ i'))) (hw'' : Space w'') (hw₃ : Space w₃) (hm : Members T i' m r) :
      Members T i ((k, v) :: m) r

end

mutual

/-- A value that breaks off where `L` holds, at a bracket or a string. -/
inductive OpenValue (T : Tokens R) (L : List UInt8 → Prop) : List UInt8 → Prop
  | leaf {i : List UInt8} (hh : i.headD 0 = ch '[' ∨ i.headD 0 = ch '"') (h : L i) : OpenValue T L i
  | array {w i : List UInt8} (hw : Space w) (h : OpenElements T L i) : OpenValue T L (ch '[' :: (w ++ i))
  | object {w i : List UInt8} (hw : Space w) (h : OpenMembers T L [] i) : OpenValue T L (ch '\x7b' :: (w ++ i))

/-- Values separated by commas, the last of which breaks off. -/
inductive OpenElements (T : Tokens R) (L : List UInt8 → Prop) : List UInt8 → Prop
  | last {i : List UInt8} (h : OpenValue T L i) : OpenElements T L i
  | more {i w w' j : List UInt8} {v : Json R} (h : Value T i v (w ++ ch ',' :: (w' ++ j))) (hw : Space w)
      (hw' : Space w') (hl : OpenElements T L j) : OpenElements T L i

/-- Members with keys that differ from each other and from those of `m`; the last one's key or value breaks off. -/
inductive OpenMembers (T : Tokens R) (L : List UInt8 → Prop) : List (CStr × Json R) → List UInt8 → Prop
  | key {m : List (CStr × Json R)} {i : List UInt8} (hq : i.headD 0 = ch '"') (h : L i) : OpenMembers T L m i
  | last {m : List (CStr × Json R)} {i w w' j : List UInt8} {k : CStr} (hq : i.headD 0 = ch '"')
      (hk : Reads T.string i k (w ++ ch ':' :: (w' ++ j))) (hw : Space w) (hw' : Space w') (hv : OpenValue T L j) :
      OpenMembers T L m i
  | more {m : List (CStr × Json R)} {i w w' j w'' w₃ i' : List UInt8} {k : CStr} {v : Json R}
      (hq : i.headD 0 = ch '"') (hk : Reads T.string i k (w ++ ch ':' :: (w' ++ j))) (hw : Space w) (hw' : Space w')
      (hv : Value T j v (w'' ++ ch ',' :: (w₃ ++ i'))) (hw'' : Space w'') (hw₃ : Space w₃)
      (hd : OMap.Distinct Json.keyEq (m ++ [(k, v)])) (hm : OpenMembers T L (m ++ [(k, v)]) i') : OpenMembers T L m i

end

/-- The text breaks off behind a bracket and white space that ends in a carriage return. -/
def OpenBracket (i : List UInt8) : Prop := ∃ w, i = ch '[' :: w ∧ Space w ∧ w.getLast? = some (ch '\r')

/-- A document: an optional byte order mark, white space and a value. -/
def Document (T : Tokens R) (json : List UInt8) (v : Json R) (r : List UInt8) : Prop :=
  ∃ w i, Space w ∧ (json = w ++ i ∨ json = bom ++ (w ++ i)) ∧ Value T i v r

end Grammar
end Pcl

import Pcl.Json.Grammar

/-!
# The parser accepts exactly the grammar

By induction on derivations every value of the grammar is read, by induction on the fuel the parser
reads a value of the grammar or fails: the fuel of `pcl_json_decode` is always enough.
-/

namespace Pcl

open Grammar

variable {R : Type} {T : Tokens R} {B : List UInt8 → Prop}

/-! ### Rules for the pieces of the parser -/

/-- `ipcl_json_parse_value` behind the white space, by the first byte. -/
def valueBody (T : Tokens R) (n : Nat) (c : UInt8) : JM (Json R) :=
  if c = ch '\x7b' then ipclJsonParseObject T.string (ipclJsonParseValue T n) n
  else if c = ch '[' then ipclJsonParseArray (ipclJsonParseValue T n) n
  else if c = ch '"' then (do let str ← T.string; return .str str)
  else if c = ch 't' then parseLiteral (txt "rue") (.bool true)
  else if c = ch 'f' then parseLiteral (txt "alse") (.bool false)
  else if c = ch 'n' then parseLiteral (txt "ull") .null
  else if c = ch '-' ∨ isdigit c then T.number
  else JM.throw [txt "expected json value"]

section
variable {w i r : List UInt8} {v : Json R} (n : Nat) (hw : Space w) (hi : isspace (i.headD 0) = false) (hne : i ≠ [])
include hw hi hne

theorem Reads.parseValue (h : Reads (valueBody T n (i.headD 0)) i v r) :
    Reads (ipclJsonParseValue T (n + 1)) (w ++ i) v r :=
  .bind (.mark _) (.bind (.skipws hw hi hne) (.bind (.mark _) (.bind (.peek hne) h)))

theorem StopRule.parseValue {P : ∀ {α : Type}, JM α → List UInt8 → Prop} (hP : StopRule P)
    (h : P (valueBody T n (i.headD 0)) i) : P (ipclJsonParseValue T (n + 1)) (w ++ i) :=
  hP.bind_right (.mark _) (hP.bind_right (.skipws hw hi hne) (hP.bind_right (.mark _) (hP.bind_right (.peek hne) h)))

theorem Misses.parseValue (h : Misses (valueBody T n (i.headD 0)) i) :
    Misses (ipclJsonParseValue T (n + 1)) (w ++ i) :=
  .bind_right (.mark _) (.bind_right (.skipws hw hi hne) (.bind_right (.mark _) (.bind_right (.peek hne) h)))

end

/-- `p` fails at the end and behind it, and leaves the context there. -/
def MarksEnd (p : JM (Json R)) : Prop :=
  ∀ s : JState, s.left ≤ 0 → ∃ f s', p s = some (.fail f s') ∧ s'.ctx = s.rest ∧ s'.ctxLeft = s.left

theorem MarksEnd.parseValue (n : Nat) : MarksEnd (ipclJsonParseValue T (n + 1)) :=
  fun s hs => (StopsAtEnd.skipws.bind (f := fun _ => _)) { s with ctx := s.rest, ctxLeft := s.left } hs

theorem Reads.parseLiteral (c : UInt8) (tail : List UInt8) {r : List UInt8} (v : Json R) :
    Reads (parseLiteral tail v) (c :: tail ++ r) v r := by
  refine .get fun ext s hs => ?_
  have hlen : s.left = (tail.length + 1 + r.length : Nat) := by
    rw [hs.left_eq]
    simp
    omega
  refine .ite_not ?_ (.bind (.skip_append (c :: tail) rfl) (.pure _ _))
  rw [hs.rest_eq, hlen]
  simp only [List.cons_append, List.append_assoc, List.drop_succ_cons, List.drop_zero, List.take_left', ne_eq,
    not_true_eq_false, or_false]
  omega

theorem parseLiteral_cases (c : UInt8) (tail t : List UInt8) (v : Json R) :
    (∃ r, c :: t = c :: tail ++ r) ∨ Fails (parseLiteral tail v) (c :: t) := by
  by_cases ht : tail <+: t
  · obtain ⟨r, rfl⟩ := ht
    exact .inl ⟨r, rfl⟩
  · refine .inr (.get fun ext s hs => ?_)
    refine .ite ?_ (.throw _ _)
    rw [hs.rest_eq, hs.left_eq]
    by_contra hno
    rw [not_or, ne_eq, not_not] at hno
    obtain ⟨hlen, htake⟩ := hno
    have hle : tail.length ≤ t.length := by
      simp only [List.length_cons] at hlen
      omega
    refine ht (List.prefix_iff_eq_take.2 ?_)
    rw [← htake]
    simp [List.take_append_of_le_length hle]

/-! ### The first byte -/

theorem Grammar.Value.head {i r : List UInt8} {v : Json R} (h : Value T i v r) :
    i ≠ [] ∧ isspace (i.headD 0) = false ∧ i.headD 0 ≠ ch ']' ∧ i.headD 0 ≠ 0xEF := by
  have known : ∀ {c : UInt8} {i : List UInt8}, i.headD 0 = c → c ≠ 0 ∧ isspace c = false ∧ c ≠ ch ']' ∧
      c ≠ 0xEF → i ≠ [] ∧ isspace (i.headD 0) = false ∧ i.headD 0 ≠ ch ']' ∧ i.headD 0 ≠ 0xEF := by
    intro c i hi hc
    rw [hi]
    exact ⟨ne_nil_of_headD (hi ▸ hc.1), hc.2⟩
  cases h with
  | litNull r => exact known (c := ch 'n') rfl (by decide)
  | litTrue r => exact known (c := ch 't') rfl (by decide)
  | litFalse r => exact known (c := ch 'f') rfl (by decide)
  | string hq => exact known hq (by decide)
  | number hn =>
    obtain ⟨-, -, -, -, -, -, hb, -, hc, hs⟩ := hn.ne
    refine ⟨ne_nil_of_headD fun h0 => ?_, hs, hb, hc⟩
    rw [h0] at hn
    exact absurd hn (by unfold startsNumber; decide)
  | emptyArray | array => exact known (c := ch '[') rfl (by decide)
  | emptyObject | object => exact known (c := ch '\x7b') rfl (by decide)

/-! ### A value takes up some of the text -/

theorem Token.shrinks {α : Type} {p : JM α} {i r : List UInt8} {a : α} (ht : Token p i) (h : Reads p i a r) :
    r.length < i.length := by
  obtain ⟨a', tok, r', htok, rfl, h'⟩ := ht
  obtain ⟨-, rfl⟩ := h.unique h'
  have := List.length_pos_iff.2 htok
  simp
  omega

theorem Token.suffix {α : Type} {p : JM α} {i r : List UInt8} {a : α} (ht : Token p i) (h : Reads p i a r) :
    r <:+ i := by
  obtain ⟨a', tok, r', htok, rfl, h'⟩ := ht
  obtain ⟨-, rfl⟩ := h.unique h'
  exact List.suffix_append _ _

theorem Tokens.GivenBut.string_token (hT : T.GivenBut B) {i r : List UInt8} {k : CStr} (hq : i.headD 0 = ch '"')
    (h : Reads T.string i k r) : Token T.string i := by
  rcases hT.string i hq with ht | hf | hb
  · exact ht
  · exact absurd hf.alone h.not_failsAlone
  · exact absurd h (hT.unread hb)

theorem Tokens.GivenBut.number_token (hT : T.GivenBut B) {i r : List UInt8} {v : Json R} (hn : startsNumber (i.headD 0))
    (h : Reads T.number i v r) : Token T.number i := by
  rcases hT.number i hn with ht | hf
  · exact ht
  · exact absurd hf.alone h.not_failsAlone

mutual

theorem Grammar.Value.shrinks (hT : T.GivenBut B) {i r : List UInt8} {v : Json R} (h : Value T i v r) :
    r.length < i.length := by
  cases h with
  | litNull | litTrue | litFalse =>
    rw [List.length_append]
    exact Nat.lt_add_of_pos_left (by decide)
  | string hq hr => exact (hT.string_token hq hr).shrinks hr
  | number hn hr => exact (hT.number_token hn hr).shrinks hr
  | emptyArray | emptyObject => simp; omega
  | array hw hl =>
    have := Grammar.Elements.shrinks hT hl
    simp
    omega
  | object hw hm =>
    have := Grammar.Members.shrinks hT hm
    simp
    omega

theorem Grammar.Elements.shrinks (hT : T.GivenBut B) {i r : List UInt8} {l : List (Json R)} (h : Elements T i l r) :
    r.length < i.length := by
  cases h with
  | last hv hw =>
    have := Grammar.Value.shrinks hT hv
    simp at this
    omega
  | more hv hw hw' hl =>
    have := Grammar.Value.shrinks hT hv
    have := Grammar.Elements.shrinks hT hl
    simp at *
    omega

theorem Grammar.Members.shrinks (hT : T.GivenBut B) {i r : List UInt8} {m : List (CStr × Json R)}
    (h : Members T i m r) : r.length < i.length := by
  cases h with
  | last hq hk hw hw' hv hw'' =>
    have := Grammar.Value.shrinks hT hv
    have := (hT.string_token hq hk).shrinks hk
    simp at *
    omega
  | more hq hk hw hw' hv hw'' hw₃ hm =>
    have := Grammar.Value.shrinks hT hv
    have := (hT.string_token hq hk).shrinks hk
    have := Grammar.Members.shrinks hT hm
    simp at *
    omega

end



mutual

theorem Grammar.Value.suffix (hT : T.GivenBut B) {i r : List UInt8} {v : Json R} (h : Value T i v r) : r <:+ i := by
  cases h with
  | litNull | litTrue | litFalse => exact List.suffix_append _ _
  | string hq hr => exact (hT.string_token hq hr).suffix hr
  | number hn hr => exact (hT.number_token hn hr).suffix hr
  | emptyArray | emptyObject =>
    exact (List.suffix_cons _ _).trans ((List.suffix_append _ _).trans (List.suffix_cons _ _))
  | array hw hl => exact (Grammar.Elements.suffix hT hl).trans ((List.suffix_append _ _).trans (List.suffix_cons _ _))
  | object hw hm => exact (Grammar.Members.suffix hT hm).trans ((List.suffix_append _ _).trans (List.suffix_cons _ _))

theorem Grammar.Elements.suffix (hT : T.GivenBut B) {i r : List UInt8} {l : List (Json R)} (h : Elements T i l r) :
    r <:+ i := by
  cases h with
  | last hv hw =>
    exact (List.suffix_cons _ _).trans ((List.suffix_append _ _).trans (Grammar.Value.suffix hT hv))
  | more hv hw hw' hl =>
    exact (Grammar.Elements.suffix hT hl).trans ((List.suffix_append _ _).trans ((List.suffix_cons _ _).trans
      ((List.suffix_append _ _).trans (Grammar.Value.suffix hT hv))))

theorem Grammar.Members.suffix (hT : T.GivenBut B) {i r : List UInt8} {m : List (CStr × Json R)}
    (h : Members T i m r) : r <:+ i := by
  cases h with
  | last hq hk hw hw' hv hw'' =>
    exact (List.suffix_cons _ _).trans ((List.suffix_append _ _).trans ((Grammar.Value.suffix hT hv).trans
      ((List.suffix_append _ _).trans ((List.suffix_cons _ _).trans ((List.suffix_append _ _).trans
        ((hT.string_token hq hk).suffix hk))))))
  | more hq hk hw hw' hv hw'' hw₃ hm =>
    exact (Grammar.Members.suffix hT hm).trans ((List.suffix_append _ _).trans ((List.suffix_cons _ _).trans
      ((List.suffix_append _ _).trans ((Grammar.Value.suffix hT hv).trans ((List.suffix_append _ _).trans
        ((List.suffix_cons _ _).trans ((List.suffix_append _ _).trans ((hT.string_token hq hk).suffix hk))))))))

end

/-! ### Every value of the grammar is read -/

/-- How both loops go on behind a value: the closing byte ends them, a comma continues them. -/
def afterValue (close : UInt8) (fin : Json R) (next : JM (Json R)) : JM (Json R) := do
  ipclJsonSkipws
  if (← JM.peek) = close then
    JM.skip 1
    return fin
  else
    let c ← JM.peek
    JM.skip 1
    if c ≠ ch ',' then
      JM.throw [txt "missing comma after value"]
    else
      ipclJsonSkipws
      let s ← JM.get
      if s.left > 0 then next
      else JM.throw [txt "unexpected end of input"]

theorem Reads.afterValue_last {close : UInt8} {w r : List UInt8} (fin : Json R) (next : JM (Json R)) (hw : Space w)
    (hc : isspace close = false) : Reads (afterValue close fin next) (w ++ close :: r) fin r :=
  .bind (.skipws_cons hw hc) (.bind (.peek_cons _ _) (.ite rfl (.bind (.skip_one _ _) (.pure _ _))))

theorem Reads.afterValue_more {close : UInt8} {w w' i r : List UInt8} {v : Json R} {next : JM (Json R)}
    (fin : Json R) (hw : Space w) (hw' : Space w') (hi : isspace (i.headD 0) = false) (hne : i ≠ [])
    (hc : ch ',' ≠ close) (hp : Reads next i v r) :
    Reads (afterValue close fin next) (w ++ ch ',' :: (w' ++ i)) v r :=
  .bind (.skipws_cons hw rfl) (.bind (.peek_cons _ _) (.ite_not hc (.bind (.peek_cons _ _)
    (.bind (.skip_one _ _) (.ite_not (by decide) (.bind (.skipws hw' hi hne)
      (.get fun _ s hs => .ite (hs.left_pos hne) hp)))))))

theorem StopRule.afterValue_more {P : ∀ {α : Type}, JM α → List UInt8 → Prop} (hP : StopRule P) {close : UInt8}
    {w w' i : List UInt8} {next : JM (Json R)} (fin : Json R) (hw : Space w) (hw' : Space w')
    (hi : isspace (i.headD 0) = false) (hne : i ≠ []) (hc : ch ',' ≠ close) (hp : P next i) :
    P (afterValue close fin next) (w ++ ch ',' :: (w' ++ i)) :=
  hP.bind_right (.skipws_cons hw rfl) (hP.bind_right (.peek_cons _ _) (hP.ite_not hc (hP.bind_right (.peek_cons _ _)
    (hP.bind_right (.skip_one _ _) (hP.ite_not (by decide) (hP.bind_right (.skipws hw' hi hne)
      (hP.get fun _ s hs => hP.ite (hs.left_pos hne) hp)))))))

/-- What stands behind a value: the closing byte, a comma with more text, or an error. -/
theorem afterValue_cases (close : UInt8) (i : List UInt8) :
    (∃ w r, i = w ++ close :: r ∧ Space w) ∨
    (∃ w w' j, i = w ++ ch ',' :: (w' ++ j) ∧ Space w ∧ Space w' ∧ j ≠ [] ∧
      isspace (j.headD 0) = false) ∨
    ∀ (fin : Json R) next, Fails (afterValue close fin next) i := by
  rcases space_cases i with ⟨w, j, rfl, hw, hne, hhd⟩ | hw
  · have hskip := Reads.skipws hw hhd hne
    obtain ⟨c, t, rfl⟩ := List.exists_cons_of_ne_nil hne
    by_cases hc : c = close
    · subst hc
      exact .inl ⟨w, t, rfl, hw⟩
    · have hskip' {fin : Json R} {next : JM (Json R)} (hf : Fails (if c ≠ ch ',' then
          JM.throw [txt "missing comma after value"] else do
            ipclJsonSkipws
            let s ← JM.get
            if s.left > 0 then next else JM.throw [txt "unexpected end of input"]) t) :
          Fails (afterValue close fin next) (w ++ c :: t) :=
        .bind_right hskip (.bind_right (.peek_cons _ _) (.ite_not hc (.bind_right (.peek_cons _ _)
          (.bind_right (.skip_one _ _) hf))))
      by_cases hcomma : c = ch ','
      · subst hcomma
        rcases space_cases t with ⟨w', j, rfl, hw', hne, hhd'⟩ | hw'
        · exact .inr (.inl ⟨w, w', j, rfl, hw, hw', hne, hhd'⟩)
        · exact .inr (.inr fun fin next => hskip' (.ite_not (by decide) (.bind_left (.skipws hw'))))
      · exact .inr (.inr fun fin next => hskip' (.ite hcomma (.throw _ _)))
  · exact .inr (.inr fun fin next => .bind_left (.skipws hw))

theorem StopsAtEnd.afterValue (close : UInt8) (fin : Json R) (next : JM (Json R)) :
    StopsAtEnd (afterValue close fin next) := .bind .skipws

/-- How the loop over an object goes on behind a key. -/
def afterKey (next : JM (Json R)) : JM (Json R) := do
  ipclJsonSkipws
  let c ← JM.peek
  JM.skip 1
  if c ≠ ch ':' then
    JM.throw [txt "expected value ':' separator"]
  else next

theorem Reads.afterKey {w i r : List UInt8} {v : Json R} {next : JM (Json R)} (hw : Space w) (h : Reads next i v r) :
    Reads (afterKey next) (w ++ ch ':' :: i) v r :=
  .bind (.skipws_cons hw rfl) (.bind (.peek_cons _ _) (.bind (.skip_one _ _)
    (.ite_not (by decide) h)))

theorem StopRule.afterKey {P : ∀ {α : Type}, JM α → List UInt8 → Prop} (hP : StopRule P) {w i : List UInt8}
    {next : JM (Json R)} (hw : Space w) (h : P next i) : P (afterKey next) (w ++ ch ':' :: i) :=
  hP.bind_right (.skipws_cons hw rfl) (hP.bind_right (.peek_cons _ _) (hP.bind_right (.skip_one _ _)
    (hP.ite_not (by decide) h)))

theorem afterKey_cases (i : List UInt8) :
    (∃ w j, i = w ++ ch ':' :: j ∧ Space w) ∨ ∀ next : JM (Json R), Fails (afterKey next) i := by
  rcases space_cases i with ⟨w, j, rfl, hw, hne, hhd⟩ | hw
  · have hskip := Reads.skipws hw hhd hne
    obtain ⟨c, t, rfl⟩ := List.exists_cons_of_ne_nil hne
    by_cases hc : c = ch ':'
    · subst hc
      exact .inl ⟨w, t, rfl, hw⟩
    · exact .inr fun next => .bind_right hskip (.bind_right (.peek_cons _ _)
        (.bind_right (.skip_one _ _) (.ite hc (.throw _ _))))
  · exact .inr fun next => .bind_left (.skipws hw)

theorem StopsAtEnd.afterKey (next : JM (Json R)) : StopsAtEnd (afterKey next) := .bind .skipws

theorem Grammar.Elements.head {i r : List UInt8} {l : List (Json R)} (h : Elements T i l r) :
    i ≠ [] ∧ isspace (i.headD 0) = false ∧ i.headD 0 ≠ ch ']' := by
  cases h with
  | last hv => exact ⟨hv.head.1, hv.head.2.1, hv.head.2.2.1⟩
  | more hv => exact ⟨hv.head.1, hv.head.2.1, hv.head.2.2.1⟩

theorem Grammar.Members.head {i r : List UInt8} {m : List (CStr × Json R)} (h : Members T i m r) :
    i.headD 0 = ch '"' := by
  cases h with
  | last hq => exact hq
  | more hq => exact hq

/-- `value` reads every value of the grammar that ends before `n` bytes. -/
def ReadsValues (T : Tokens R) (value : JM (Json R)) (n : Nat) : Prop :=
  ∀ {w i r : List UInt8} {v : Json R}, Value T i v r → Space w → (w ++ i).length < n → Reads value (w ++ i) v r

theorem arrayLoop_reads (hT : T.GivenBut B) {value : JM (Json R)} {n : Nat} (hval : ReadsValues T value n) {k : Nat} :
    ∀ {i r : List UInt8} {l : List (Json R)}, Elements T i l r → i.length < n → i.length < k →
      ∀ acc, Reads (arrayLoop value k acc) i (.arr (acc ++ l)) r := by
  induction k with
  | zero =>
    intro i r l h hn hk
    omega
  | succ k ih =>
    intro i r l h hn hk acc
    cases h with
    | last hv hw =>
      exact .bind (hval hv .nil hn) (.afterValue_last _ _ hw rfl)
    | more hv hw hw' hl =>
      rename_i w w' j v l
      have hlen := hv.shrinks hT
      simp only [List.length_append, List.length_cons] at hlen
      have hrest := ih hl (by omega) (by omega) (acc ++ [v])
      rw [List.append_assoc, List.singleton_append] at hrest
      exact .bind (hval hv .nil hn) (.afterValue_more _ hw hw' hl.head.2.1 hl.head.1 (by decide) hrest)

theorem objectLoop_reads (hT : T.GivenBut B) {value : JM (Json R)} {n : Nat} (hval : ReadsValues T value n) {k : Nat} :
    ∀ {i r : List UInt8} {m : List (CStr × Json R)}, Members T i m r → i.length < n → i.length < k →
      ∀ acc, OMap.Distinct Json.keyEq (acc ++ m) →
        Reads (objectLoop T.string value k acc) i (.obj (acc ++ m)) r := by
  induction k with
  | zero =>
    intro i r m h hn hk
    omega
  | succ k ih =>
    intro i r m h hn hk acc hd
    cases h with
    | last hq hs hw hw' hv hw'' =>
      have hlen := (hT.string_token hq hs).shrinks hs
      simp only [List.length_append, List.length_cons] at hlen
      refine .bind hs (.afterKey hw (.bind (hval hv hw' (by rw [List.length_append]; omega)) ?_))
      rw [Json.objput_new hd]
      exact .afterValue_last _ _ hw'' rfl
    | more hq hs hw hw' hv hw'' hw₃ hm =>
      rename_i w w' j w'' w₃ i' key v m
      have hlen := (hT.string_token hq hs).shrinks hs
      have hlen' := hv.shrinks hT
      simp only [List.length_append, List.length_cons] at hlen hlen'
      have hq' : i'.headD 0 = ch '"' := hm.head
      have hne : i' ≠ [] := ne_nil_of_headD (by rw [hq']; decide)
      have hrest := ih hm (by omega) (by omega) (acc ++ [(key, v)])
        (by rwa [List.append_assoc, List.singleton_append])
      rw [List.append_assoc, List.singleton_append] at hrest
      refine .bind hs (.afterKey hw (.bind (hval hv hw' (by rw [List.length_append]; omega)) ?_))
      rw [Json.objput_new hd]
      exact .afterValue_more _ hw'' hw₃ (by rw [hq']; rfl) hne (by decide) hrest

theorem parseValue_reads (hT : T.GivenBut B) (n : Nat) : ReadsValues T (ipclJsonParseValue T n) n := by
  induction n with
  | zero =>
    intro w i r v h hw hn
    omega
  | succ n ih =>
    intro w i r v h hw hn
    simp only [List.length_append] at hn
    refine .parseValue n hw h.head.2.1 h.head.1 ?_
    cases h with
    | litNull r =>
      have hc : (txt "null" ++ r).headD 0 = ch 'n' := rfl
      rw [hc]
      exact .parseLiteral (ch 'n') (txt "ull") _
    | litTrue r =>
      have hc : (txt "true" ++ r).headD 0 = ch 't' := rfl
      rw [hc]
      exact .parseLiteral (ch 't') (txt "rue") _
    | litFalse r =>
      have hc : (txt "false" ++ r).headD 0 = ch 'f' := rfl
      rw [hc]
      exact .parseLiteral (ch 'f') (txt "alse") _
    | string hq hr =>
      rw [hq]
      exact .bind hr (.pure _ _)
    | number hs hr =>
      obtain ⟨h₁, h₂, h₃, h₄, h₅, h₆, -, -, -, -⟩ := hs.ne
      unfold valueBody
      rw [if_neg h₁, if_neg h₂, if_neg h₃, if_neg h₄, if_neg h₅, if_neg h₆]
      exact .ite hs hr
    | emptyArray hw₁ r =>
      exact .bind (.peek_cons _ _) (.bind (.skip_one _ _) (.bind (.ignore_skipws hw₁ rfl (List.cons_ne_nil _ _))
        (.bind (.mark _) (.bind (.peek_cons _ _) (.ite rfl (.bind (.skip_one _ _) (.pure _ _)))))))
    | array hw₁ hl =>
      rename_i w₁ i l
      have hlen : i.length < n := by simp at hn; omega
      exact .bind (.peek_cons _ _) (.bind (.skip_one _ _) (.bind (.ignore_skipws hw₁ hl.head.2.1 hl.head.1)
        (.bind (.mark _) (.bind (.peek hl.head.1) (.ite_not hl.head.2.2 (arrayLoop_reads hT ih hl hlen hlen []))))))
    | emptyObject hw₁ r =>
      exact .bind (.peek_cons _ _) (.bind (.skip_one _ _) (.bind (.skipws_cons hw₁ rfl)
        (.bind (.mark _) (.bind (.peek_cons _ _) (.ite rfl (.bind (.skip_one _ _) (.pure _ _)))))))
    | object hw₁ hm hk =>
      rename_i w₁ i m
      have hq : i.headD 0 = ch '"' := hm.head
      have hne : i ≠ [] := ne_nil_of_headD (by rw [hq]; decide)
      have hlen : i.length < n := by simp at hn; omega
      exact .bind (.peek_cons _ _) (.bind (.skip_one _ _) (.bind (.skipws hw₁ (by rw [hq]; rfl) hne) (.bind (.mark _)
        (.bind (.peek hne) (.ite_not (by rw [hq]; decide) (objectLoop_reads hT ih hm hlen hlen [] hk))))))

/-! ### The parser reads a value or misses -/

/-- Where a text breaks off: behind a bracket and a carriage return, or at a string of `B`. -/
abbrev Leaf (B : List UInt8 → Prop) (i : List UInt8) : Prop := OpenBracket i ∨ B i

/-- What `value` does on every text of less than `n` bytes: it reads some value, misses, or the text breaks off. -/
structure Total (T : Tokens R) (B : List UInt8 → Prop) (value : JM (Json R)) (n : Nat) : Prop where
  cases : ∀ {i : List UInt8}, i.length < n → (∃ w j v r, i = w ++ j ∧ Space w ∧ Value T j v r) ∨ Misses value i ∨
    ∃ w j, i = w ++ j ∧ Space w ∧ OpenValue T (Leaf B) j
  marks : 0 < n → MarksEnd value

theorem arrayLoop_total (hT : T.GivenBut B) {value : JM (Json R)} {n : Nat} (hval : ReadsValues T value n)
    (htot : Total T B value n) {k : Nat} : ∀ {i : List UInt8}, i.length < n → i.length < k →
      (∃ w j l r, i = w ++ j ∧ Space w ∧ Elements T j l r) ∨ (∀ acc, Fails (arrayLoop value k acc) i) ∨
        ∃ w j, i = w ++ j ∧ Space w ∧ OpenElements T (Leaf B) j := by
  induction k with
  | zero =>
    intro i hn hk
    omega
  | succ k ih =>
    intro i hn hk
    rcases htot.cases hn with ⟨w, j, v, r, rfl, hw, hv⟩ | hm | ⟨w, j, rfl, hw, ho⟩
    · have hread := hval hv hw hn
      have hlen := hv.shrinks hT
      rw [List.length_append] at hn hk
      rcases afterValue_cases (R := R) (ch ']') r with
        ⟨w₁, r, rfl, hw₁⟩ | ⟨w₁, w₂, j₁, rfl, hw₁, hw₂, hne, hhd⟩ | hf
      · exact .inl ⟨w, j, [v], r, rfl, hw, .last hv hw₁⟩
      · simp only [List.length_append, List.length_cons] at hlen
        rcases ih (i := j₁) (by omega) (by omega) with ⟨w₃, j₃, l, r, rfl, hw₃, hl⟩ | hf | ⟨w₃, j₃, rfl, hw₃, ho⟩
        · rw [← List.append_assoc w₂] at hv
          exact .inl ⟨w, j, v :: l, r, rfl, hw, .more hv hw₁ (hw₂.append hw₃) hl⟩
        · exact .inr (.inl fun acc => .bind_right hread
            ((FailsWhen.rule _ _).afterValue_more _ hw₁ hw₂ hhd hne (by decide) (hf _)))
        · rw [← List.append_assoc w₂] at hv
          exact .inr (.inr ⟨w, j, rfl, hw, .more hv hw₁ (hw₂.append hw₃) ho⟩)
      · exact .inr (.inl fun acc => .bind_right hread (hf _ _))
    · exact .inr (.inl fun acc => hm.bind_stops fun v => .afterValue _ _ _)
    · exact .inr (.inr ⟨w, j, rfl, hw, .last ho⟩)

theorem objectLoop_total (hT : T.GivenBut B) {value : JM (Json R)} {n : Nat} (hval : ReadsValues T value n)
    (htot : Total T B value n) {k : Nat} : ∀ {i : List UInt8} {acc : List (CStr × Json R)}, i ≠ [] → i.length < n →
      i.length < k → OMap.Distinct Json.keyEq acc → (∃ m r, Members T i m r ∧ OMap.Distinct Json.keyEq (acc ++ m)) ∨
        Fails (objectLoop T.string value k acc) i ∨ OpenMembers T (Leaf B) acc i := by
  induction k with
  | zero =>
    intro i acc hne hn hk
    omega
  | succ k ih =>
    intro i acc hne hn hk hd
    have hrule : StopRule (FailsWhen (fun _ => True) JState.CtxIn) := FailsWhen.rule _ _
    by_cases hq : i.headD 0 = ch '"'
    case neg =>
      obtain ⟨c, t, rfl⟩ := List.exists_cons_of_ne_nil hne
      exact .inr (.inl (.bind_left (hT.string_else c t hq)))
    rcases hT.string i hq with ⟨key, -, r, -, -, hkey⟩ | hf | hb
    · have hlen := (hT.string_token hq hkey).shrinks hkey
      rcases afterKey_cases (R := R) r with ⟨w, t, rfl, hw⟩ | hf
      · simp only [List.length_append, List.length_cons] at hlen
        rcases htot.cases (i := t) (by omega) with ⟨w', j, v, r, rfl, hw', hv⟩ | hm | ⟨w', j, rfl, hw', ho⟩
        · have hlen' := hv.shrinks hT
          rw [List.length_append] at hlen
          have hread := hval hv hw' (by rw [List.length_append]; omega)
          rcases Json.objput_cases key v hd with ⟨hnone, -⟩ | ⟨hsome, hd'⟩
          · refine .inr (.inl (.bind_right hkey (hrule.afterKey hw (.bind_right hread ?_))))
            rw [hnone]
            exact .fault _ _
          · rcases afterValue_cases (R := R) (ch '\x7d') r with
              ⟨w₁, r, rfl, hw₁⟩ | ⟨w₁, w₂, j₁, rfl, hw₁, hw₂, hne₁, hhd⟩ | hf
            · exact .inl ⟨[(key, v)], r, .last hq hkey hw hw' hv hw₁, hd'⟩
            · simp only [List.length_append, List.length_cons] at hlen'
              rcases ih (i := j₁) hne₁ (by omega) (by omega) hd' with ⟨m, r, hm, hdm⟩ | hf | ho
              · rw [List.append_assoc, List.singleton_append] at hdm
                exact .inl ⟨(key, v) :: m, r, .more hq hkey hw hw' hv hw₁ hw₂ hm, hdm⟩
              · refine .inr (.inl (.bind_right hkey (hrule.afterKey hw (.bind_right hread ?_))))
                rw [hsome]
                exact hrule.afterValue_more _ hw₁ hw₂ hhd hne₁ (by decide) hf
              · exact .inr (.inr (.more hq hkey hw hw' hv hw₁ hw₂ hd' ho))
            · refine .inr (.inl (.bind_right hkey (hrule.afterKey hw (.bind_right hread ?_))))
              rw [hsome]
              exact hf _ _
        · refine .inr (.inl (.bind_right hkey (hrule.afterKey hw (hm.bind_stops fun v => ?_))))
          cases Json.objput acc key v with
          | none => exact .fault _
          | some m => exact .afterValue _ _ _
        · exact .inr (.inr (.last hq hkey hw hw' ho))
      · exact .inr (.inl (.bind_right hkey (hf _)))
    · exact .inr (.inl (.bind_left hf))
    · exact .inr (.inr (.key hq (.inr hb)))

/-- The text breaks off inside an empty array. -/
def CutOff (i : List UInt8) : Prop := ∃ w w', i = w ++ ch '[' :: w' ∧ Space w ∧ Space w'

/-- In an array that breaks off the parser looks for the closing bracket at the end, or behind the line feed that
stands there. -/
theorem parseArray_run (value : JM (Json R)) (n : Nat) {t ext : List UInt8} (ht : Space t) {s : JState}
    (hs : s.At (ch '[' :: t) ext) : ∃ s₁ : JState, s₁.ctx = s₁.rest ∧ s₁.ctxLeft = s₁.left ∧
      (CrLf t ext ∧ s₁.left = -1 ∧ s₁.rest = ext.drop 1 ∨ ¬ CrLf t ext ∧ s₁.left = 0 ∧ s₁.rest = ext) ∧
      ipclJsonParseArray value n s =
        if s₁.rest.headD 0 = ch ']' then some (.ok (.arr []) { s₁ with rest := s₁.rest.drop 1, left := s₁.left - 1 })
        else arrayLoop value n [] s₁ := by
  obtain ⟨s₂, h₂, hs₂⟩ := Reads.skip_one _ _ ext s hs
  obtain ⟨e, s₃, h₃, -, hend⟩ := skipws_space hs₂ ht
  have hignore : JM.ignore ipclJsonSkipws s₂ = some (.ok () s₃) := by
    unfold JM.ignore
    rw [h₃]
  have hpeek : JM.peek s = some (.ok (ch '[') s) := by
    unfold JM.peek
    rw [hs.rest_eq]
    rfl
  refine ⟨{ s₃ with ctx := s₃.rest, ctxLeft := s₃.left }, rfl, rfl, hend, ?_⟩
  unfold ipclJsonParseArray
  rw [JM.bind_run, hpeek, JM.andThen_ok, JM.bind_run, h₂, JM.andThen_ok, if_neg (by decide), JM.bind_run, hignore,
    JM.andThen_ok]
  show (if s₃.rest.headD 0 = ch ']' then _ else arrayLoop value n [] : JM (Json R)) _ = _
  by_cases hc : s₃.rest.headD 0 = ch ']'
  · rw [if_pos hc, if_pos hc]
    rfl
  · rw [if_neg hc, if_neg hc]

section
variable {value : JM (Json R)} (hv : MarksEnd value) {n : Nat} {t : List UInt8} (ht : Space t)
include hv ht

/-- Where no bracket stands behind an array that breaks off, the parser fails there. -/
theorem parseArray_stop {ext : List UInt8} {s : JState} (hs : s.At (ch '[' :: t) ext)
    (hno : ¬ CrLf t ext → ext.headD 0 ≠ ch ']') (hno' : CrLf t ext → (ext.drop 1).headD 0 ≠ ch ']') :
    ∃ f s', ipclJsonParseArray value (n + 1) s = some (.fail f s') ∧
      (CrLf t ext ∧ s'.ctxLeft = -1 ∧ s'.ctx = ext.drop 1 ∨ ¬ CrLf t ext ∧ s'.ctxLeft = 0) := by
  obtain ⟨s₁, -, -, hend, hrun⟩ := parseArray_run value (n + 1) ht hs
  have hc : s₁.rest.headD 0 ≠ ch ']' := by
    rcases hend with ⟨h, -, hrest⟩ | ⟨h, -, hrest⟩
    · rw [hrest]
      exact hno' h
    · rw [hrest]
      exact hno h
  have hleft : s₁.left ≤ 0 := by
    rcases hend with ⟨-, h, -⟩ | ⟨-, h, -⟩
    · omega
    · omega
  obtain ⟨f, s₂, h₂, hctx, hctxLeft⟩ := hv s₁ hleft
  refine ⟨f, s₂, ?_, ?_⟩
  · rw [hrun, if_neg hc, arrayLoop, JM.bind_run, h₂, JM.andThen_fail]
  · rw [hctx, hctxLeft]
    rcases hend with ⟨h, hl, hrest⟩ | ⟨h, hl, -⟩
    · exact .inl ⟨h, hl, hrest⟩
    · exact .inr ⟨h, hl⟩

theorem parseArray_misses (hcr : t.getLast? ≠ some (ch '\r')) :
    Misses (ipclJsonParseArray value (n + 1)) (ch '[' :: t) := by
  intro ext s hs
  have hno : ¬ CrLf t ext := fun h => hcr h.1
  by_cases hc : ext.headD 0 = ch ']'
  · obtain ⟨s₁, hctx, hctxLeft, hend, hrun⟩ := parseArray_run value (n + 1) ht hs
    rcases hend with ⟨h, -⟩ | ⟨-, hleft, hrest⟩
    · exact absurd h hno
    · rw [if_pos (by rwa [hrest])] at hrun
      refine .inr ⟨ne_nil_of_headD (by rw [hc]; decide), _, _, hrun, ?_, ?_, ?_⟩
      · show s₁.left - 1 < 0
        omega
      · show 0 ≤ s₁.ctxLeft
        omega
      · show s₁.ctxLeft ≤ s₁.ctx.length
        omega
  · obtain ⟨f, s', hrun, ⟨h, -⟩ | ⟨-, hleft⟩⟩ := parseArray_stop (n := n) hv ht hs (fun _ => hc) fun h => absurd h hno
    · exact absurd h hno
    · exact .inl ⟨f, s', hrun, by omega, by omega⟩

theorem parseArray_alone : FailsAlone (ipclJsonParseArray value (n + 1)) (ch '[' :: t) := by
  rintro ext s hs rfl
  have hno : ¬ CrLf t [] := fun h => absurd h.2 (by decide)
  obtain ⟨f, s', hrun, ⟨h, -⟩ | ⟨-, hleft⟩⟩ := parseArray_stop (n := n) hv ht hs (fun _ => by decide) fun h => absurd h hno
  · exact absurd h hno
  · exact ⟨f, s', hrun, by omega, by omega⟩

end

theorem parseArray_total (hT : T.GivenBut B) {n : Nat} (hval : ReadsValues T (ipclJsonParseValue T n) n)
    (htot : Total T B (ipclJsonParseValue T n) n) {t : List UInt8} (hn : t.length < n) :
    (∃ v r, Value T (ch '[' :: t) v r) ∨ Fails (ipclJsonParseArray (ipclJsonParseValue T n) n) (ch '[' :: t) ∨
      OpenValue T (Leaf B) (ch '[' :: t) ∨ Space t := by
  rcases space_cases t with ⟨w, j, rfl, hw, hne, hhd⟩ | hw
  · have hlen : j.length < n := by
      rw [List.length_append] at hn
      omega
    by_cases hc : j.headD 0 = ch ']'
    · obtain ⟨c, r, rfl⟩ := List.exists_cons_of_ne_nil hne
      have hcc : c = ch ']' := hc
      subst hcc
      exact .inl ⟨_, _, .emptyArray hw r⟩
    · rcases arrayLoop_total hT hval htot hlen hlen with ⟨w', j', l, r, rfl, hw', hl⟩ | hf | ⟨w', j', rfl, hw', ho⟩
      · rw [← List.append_assoc]
        exact .inl ⟨_, _, .array (hw.append hw') hl⟩
      · exact .inr (.inl (.bind_right (.peek_cons _ _) (.bind_right (.skip_one _ _) (.ite_not (by decide)
          (.bind_right (.ignore_skipws hw hhd hne) (.bind_right (.mark _) (.bind_right (.peek hne)
            (.ite_not hc (hf _)))))))))
      · refine .inr (.inr (.inl ?_))
        rw [← List.append_assoc]
        exact .array (hw.append hw') ho
  · exact .inr (.inr (.inr hw))

theorem parseObject_total (hT : T.GivenBut B) {n : Nat} (hval : ReadsValues T (ipclJsonParseValue T n) n)
    (htot : Total T B (ipclJsonParseValue T n) n) {t : List UInt8} (hn : t.length < n) :
    (∃ v r, Value T (ch '\x7b' :: t) v r) ∨
      Fails (ipclJsonParseObject T.string (ipclJsonParseValue T n) n) (ch '\x7b' :: t) ∨
      OpenValue T (Leaf B) (ch '\x7b' :: t) := by
  have hopen {p : JM (Json R)} (hf : Fails p t) : Fails (do
      let c ← JM.peek
      JM.skip 1
      if c ≠ ch '\x7b' then JM.throw [txt "expected opening object '\x7b'"] else p) (ch '\x7b' :: t) :=
    .bind_right (.peek_cons _ _) (.bind_right (.skip_one _ _) (.ite_not (by decide) hf))
  rcases space_cases t with ⟨w, j, rfl, hw, hne, hhd⟩ | hw
  · by_cases hc : j.headD 0 = ch '\x7d'
    · obtain ⟨c, r, rfl⟩ := List.exists_cons_of_ne_nil hne
      have hcc : c = ch '\x7d' := hc
      subst hcc
      exact .inl ⟨_, _, .emptyObject hw r⟩
    · have hlen : j.length < n := by
        rw [List.length_append] at hn
        omega
      have hnil : OMap.Distinct Json.keyEq ([] : List (CStr × Json R)) := List.Pairwise.nil
      rcases objectLoop_total hT hval htot hne hlen hlen hnil with ⟨m, r, hm, hd⟩ | hf | ho
      · exact .inl ⟨_, _, .object hw hm hd⟩
      · exact .inr (.inl (hopen (.bind_right (.skipws hw hhd hne) (.bind_right (.mark _) (.bind_right (.peek hne)
          (.ite_not hc hf))))))
      · exact .inr (.inr (.object hw ho))
  · exact .inr (.inl (hopen (.bind_left (.skipws hw))))

theorem parseValue_cases (hT : T.GivenBut B) {n : Nat} (htot : Total T B (ipclJsonParseValue T n) n) {i : List UInt8}
    (hn : i.length < n + 1) : (∃ w j v r, i = w ++ j ∧ Space w ∧ Value T j v r) ∨
      Fails (ipclJsonParseValue T (n + 1)) i ∨ CutOff i ∧ Misses (ipclJsonParseValue T (n + 1)) i ∨
      ∃ w j, i = w ++ j ∧ Space w ∧ OpenValue T (Leaf B) j := by
  rcases space_cases i with ⟨w, j, rfl, hw, hne, hhd⟩ | hw
  · rw [or_iff_not_imp_left]
    intro hno
    have hnone {v : Json R} {r : List UInt8} (hv : Value T j v r) : False := hno ⟨w, j, v, r, rfl, hw, hv⟩
    have hfail (hf : Fails (valueBody T n (j.headD 0)) j) : Fails (ipclJsonParseValue T (n + 1)) (w ++ j) :=
      StopRule.parseValue n hw hhd hne (FailsWhen.rule _ _) hf
    obtain ⟨c, t, rfl⟩ := List.exists_cons_of_ne_nil hne
    have hlen : t.length < n := by simp at hn; omega
    by_cases h₁ : c = ch '\x7b'
    · subst h₁
      rcases parseObject_total hT (parseValue_reads hT n) htot hlen with ⟨v, r, hv⟩ | hf | ho
      · exact (hnone hv).elim
      · exact .inl (hfail hf)
      · exact .inr (.inr ⟨w, _, rfl, hw, ho⟩)
    by_cases h₂ : c = ch '['
    · subst h₂
      rcases parseArray_total hT (parseValue_reads hT n) htot hlen with ⟨v, r, hv⟩ | hf | ho | ht
      · exact (hnone hv).elim
      · exact .inl (hfail hf)
      · exact .inr (.inr ⟨w, _, rfl, hw, ho⟩)
      · obtain ⟨n, rfl⟩ : ∃ n', n = n' + 1 := ⟨n - 1, by omega⟩
        by_cases hcr : t.getLast? = some (ch '\r')
        · exact .inr (.inr ⟨w, _, rfl, hw, .leaf (.inl rfl) (.inl ⟨t, rfl, ht, hcr⟩)⟩)
        · exact .inr (.inl ⟨⟨w, t, rfl, hw, ht⟩, .parseValue _ hw hhd hne (parseArray_misses (.parseValue n) ht hcr)⟩)
    by_cases h₃ : c = ch '"'
    · subst h₃
      rcases hT.string (ch '"' :: t) rfl with ⟨k, -, r, -, -, hk⟩ | hf | hb
      · exact (hnone (.string rfl hk)).elim
      · exact .inl (hfail (.bind_left hf))
      · exact .inr (.inr ⟨w, _, rfl, hw, .leaf (.inr rfl) (.inr hb)⟩)
    have hbody (hf : Fails (if c = ch 't' then parseLiteral (txt "rue") (.bool true)
        else if c = ch 'f' then parseLiteral (txt "alse") (.bool false)
        else if c = ch 'n' then parseLiteral (txt "ull") .null
        else if c = ch '-' ∨ isdigit c then T.number
        else JM.throw [txt "expected json value"]) (c :: t)) : Fails (ipclJsonParseValue T (n + 1)) (w ++ c :: t) :=
      hfail (.ite_not h₁ (.ite_not h₂ (.ite_not h₃ hf)))
    by_cases h₄ : c = ch 't'
    · subst h₄
      rcases parseLiteral_cases (ch 't') (txt "rue") t (.bool true : Json R) with ⟨r, hr⟩ | hf
      · rw [hr] at hnone
        exact (hnone (.litTrue r)).elim
      · exact .inl (hbody hf)
    by_cases h₅ : c = ch 'f'
    · subst h₅
      rcases parseLiteral_cases (ch 'f') (txt "alse") t (.bool false : Json R) with ⟨r, hr⟩ | hf
      · rw [hr] at hnone
        exact (hnone (.litFalse r)).elim
      · exact .inl (hbody hf)
    by_cases h₆ : c = ch 'n'
    · subst h₆
      rcases parseLiteral_cases (ch 'n') (txt "ull") t (.null : Json R) with ⟨r, hr⟩ | hf
      · rw [hr] at hnone
        exact (hnone (.litNull r)).elim
      · exact .inl (hbody hf)
    by_cases h₇ : c = ch '-' ∨ isdigit c = true
    · rcases hT.number (c :: t) h₇ with ⟨v, -, r, -, -, hv⟩ | hf
      · exact (hnone (.number h₇ hv)).elim
      · exact .inl (hbody (.ite_not h₄ (.ite_not h₅ (.ite_not h₆ (.ite h₇ hf)))))
    · exact .inl (hbody (.ite_not h₄ (.ite_not h₅ (.ite_not h₆ (.ite_not h₇ (.throw _ _))))))
  · exact .inr (.inl (.bind_right (.mark _) (.bind_left (.skipws hw))))

theorem parseValue_total (hT : T.GivenBut B) (n : Nat) : Total T B (ipclJsonParseValue T n) n := by
  induction n with
  | zero => exact ⟨fun hn => absurd hn (Nat.not_lt_zero _), fun h0 => absurd h0 (Nat.lt_irrefl 0)⟩
  | succ n ih =>
    refine ⟨fun hn => ?_, fun _ => .parseValue n⟩
    rcases parseValue_cases hT ih hn with h | hf | ⟨-, hm⟩ | ho
    · exact .inl h
    · exact .inr (.inl hf.misses)
    · exact .inr (.inl hm)
    · exact .inr (.inr ho)

end Pcl

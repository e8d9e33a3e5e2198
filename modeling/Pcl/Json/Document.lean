import Pcl.Json.Open
import Pcl.Json.StringToken
import Pcl.Json.NumberToken

/-!
# Decoding accepts exactly the documents

`pcl_json_decode` over given token parsers: it always ends, it returns the value of the document at the
start of its input, and it fails where there is none.
-/

namespace Pcl

open Grammar

variable {R : Type} {T : Tokens R} {B : List UInt8 → Prop}

/-- The text behind an optional byte order mark. -/
def stripBom (json : List UInt8) : List UInt8 := if bom <+: json then json.drop 3 else json

theorem stripBom_suffix (json : List UInt8) : stripBom json <:+ json := by
  unfold stripBom
  split
  · exact List.drop_suffix 3 json
  · exact List.suffix_refl json

/-- Neither white space nor a value starts with a byte order mark. -/
theorem bom_not_start {w i r : List UInt8} {v : Json R} (hw : Space w) (hv : Value T i v r) : ¬ bom <+: w ++ i := by
  rintro ⟨t, ht⟩
  have hhd : (w ++ i).headD 0 = 0xEF := by
    rw [← ht]
    rfl
  cases w with
  | nil => exact hv.head.2.2.2 hhd
  | cons b w =>
    have hb : b = 0xEF := hhd
    have := hw b List.mem_cons_self
    rw [hb] at this
    exact absurd this (by decide)

theorem bom_not_open {L : List UInt8 → Prop} {i : List UInt8} (h : OpenValue T L i) : ¬ bom <+: i := by
  rintro ⟨t, rfl⟩
  have hne : (0xEF : UInt8) ≠ ch '[' ∧ (0xEF : UInt8) ≠ ch '"' := by decide
  cases h with
  | leaf hh => exact hh.elim hne.1 hne.2

theorem document_iff {json r : List UInt8} {v : Json R} :
    Document T json v r ↔ ∃ w i, stripBom json = w ++ i ∧ Space w ∧ Value T i v r := by
  unfold Document stripBom
  constructor
  · rintro ⟨w, i, hw, rfl | rfl, hv⟩
    · exact ⟨w, i, if_neg (bom_not_start hw hv), hw, hv⟩
    · exact ⟨w, i, if_pos (List.prefix_append _ _), hw, hv⟩
  · rintro ⟨w, i, hs, hw, hv⟩
    by_cases h : bom <+: json
    · obtain ⟨t, rfl⟩ := h
      rw [if_pos (List.prefix_append _ _)] at hs
      exact ⟨w, i, hw, .inr (by rw [← hs]; rfl), hv⟩
    · rw [if_neg h] at hs
      exact ⟨w, i, hw, .inl hs, hv⟩

/-- The empty input. -/
def emptyFault : Fault := ⟨eInval, 0, some (.lit "empty json string")⟩

/-- Decoding the first `json.length` bytes of `json ++ ext`. -/
theorem decodeWith_run (T : Tokens R) {json : List UInt8} (ext : List UInt8) (hne : json ≠ []) :
    decodeWith T (json ++ ext) json.length =
      if stripBom json = [] then some (.error (emptyFault, none))
      else
        match ipclJsonParseValue T ((stripBom json).length + 1) (.start (stripBom json) ext) with
        | none => none
        | some (.ok val s) => some (.ok (val, json.length - s.left))
        | some (.fail f s) => (contextMsg s).map fun msg => .error (f, some msg) := by
  have hlen : json.length ≠ 0 := fun h0 => hne (List.eq_nil_of_length_eq_zero h0)
  unfold decodeWith
  simp only [hlen, ↓reduceIte]
  by_cases hb : bom <+: json
  · obtain ⟨t, rfl⟩ := hb
    have hstrip : stripBom (bom ++ t) = t := if_pos (List.prefix_append _ _)
    have hcond : (bom ++ t).length ≥ 3 ∧ (bom ++ t ++ ext).take 3 = bom := ⟨by simp [bom], rfl⟩
    rw [hstrip, if_pos hcond]
    have hl : (bom ++ t).length - 3 = t.length := by simp [bom]
    simp only [hl]
    by_cases ht : t = []
    · rw [if_pos (by rw [ht]; rfl), if_pos ht]
      rfl
    · rw [if_neg (fun h0 => ht (List.eq_nil_of_length_eq_zero h0)), if_neg ht]
      rfl
  · have hstrip : stripBom json = json := if_neg hb
    have hcond : ¬ (json.length ≥ 3 ∧ (json ++ ext).take 3 = bom) := by
      rintro ⟨hge, htake⟩
      refine hb (List.prefix_iff_eq_take.2 ?_)
      rw [← htake, List.take_append_of_le_length hge]
      simp [List.length_take, hge]
    rw [hstrip, if_neg hcond]
    simp only [Nat.sub_zero, hlen, hne, ↓reduceIte]
    rfl

/-- A document is decoded, whatever stands behind the end. -/
theorem decodeWith_document (hT : T.GivenBut B) {json r : List UInt8} {v : Json R} (ext : List UInt8)
    (h : Document T json v r) : decodeWith T (json ++ ext) json.length = some (.ok (v, json.length - r.length)) := by
  obtain ⟨w, i, hs, hw, hv⟩ := document_iff.1 h
  have hwi : w ++ i ≠ [] := List.append_ne_nil_of_right_ne_nil w hv.head.1
  have hne : json ≠ [] := by
    rintro rfl
    exact hwi hs.symm
  rw [decodeWith_run T ext hne, if_neg (by rwa [hs])]
  rw [hs]
  obtain ⟨s', hrun, hs'⟩ := parseValue_reads hT _ hv hw (Nat.lt_succ_self _) ext _ (JState.start_at _ _)
  simp only [hrun, hs'.left_eq]

theorem JState.CtxIn.message {s : JState} (hs : s.CtxIn) : ∃ msg, contextMsg s = some msg := by
  have hnonneg := hs.nonneg
  have hle := hs.le_length
  unfold contextMsg
  rw [if_neg (show ¬ s.ctxLeft < 0 by omega)]
  refine ⟨_, if_neg ?_⟩
  rw [List.length_append, List.length_singleton]
  omega

/-- Where there is no document decoding fails, or the text breaks off and decoding may run over its end, or show
what is behind it. -/
theorem decodeWith_cases (hT : T.GivenBut B) {json : List UInt8} (hne : json ≠ [])
    (hno : ∀ v r, ¬ Document T json v r) :
    (∀ ext, ∃ e, decodeWith T (json ++ ext) json.length = some (.error e)) ∨
    (CutOff (stripBom json) ∧ ∀ ext, (∃ e, decodeWith T (json ++ ext) json.length = some (.error e)) ∨
      ext ≠ [] ∧ ∃ v n, decodeWith T (json ++ ext) json.length = some (.ok (v, n)) ∧ (json.length : Int) < n) ∨
    ∃ w i, stripBom json = w ++ i ∧ Space w ∧ OpenValue T (Leaf B) i := by
  by_cases hempty : stripBom json = []
  · refine .inl fun ext => ⟨(emptyFault, none), ?_⟩
    rw [decodeWith_run T ext hne, if_pos hempty]
  have hfail : ∀ {ext f s'}, ipclJsonParseValue T ((stripBom json).length + 1) (.start (stripBom json) ext) =
      some (.fail f s') → s'.CtxIn → ∃ e, decodeWith T (json ++ ext) json.length = some (.error e) := by
    intro ext f s' h hctx
    obtain ⟨msg, hmsg⟩ := hctx.message
    refine ⟨(f, some msg), ?_⟩
    rw [decodeWith_run T ext hne, if_neg hempty, h]
    show (contextMsg s').map _ = _
    rw [hmsg, Option.map_some]
  rcases parseValue_cases hT (parseValue_total hT _) (Nat.lt_succ_self _) with
    ⟨w, j, v, r, hs, hw, hv⟩ | hf | ⟨hb, hm⟩ | ho
  · exact absurd (document_iff.2 ⟨w, j, hs, hw, hv⟩) (hno v r)
  · refine .inl fun ext => ?_
    obtain ⟨f, s', h, hctx⟩ := hf ext _ (JState.start_at _ _) trivial
    exact hfail h hctx
  · refine .inr (.inl ⟨hb, fun ext => ?_⟩)
    rcases hm ext _ (JState.start_at _ _) with ⟨f, s', h, hctx⟩ | ⟨hext, v, s', h, hleft, -⟩
    · exact .inl (hfail h hctx)
    · refine .inr ⟨hext, v, json.length - s'.left, ?_, by omega⟩
      rw [decodeWith_run T ext hne, if_neg hempty, h]
  · exact .inr (.inr ho)

/-- A value that breaks off fails where nothing stands behind it. -/
theorem OpenValue.error (hT : T.Given) {json w i : List UInt8} (hs : stripBom json = w ++ i) (hw : Space w)
    (ho : OpenValue T (Leaf fun j => j.headD 0 = ch '"' ∧ FailsAlone T.string j) i) :
    ∃ e, decodeWith T json json.length = some (.error e) := by
  have hne : stripBom json ≠ [] := by
    rw [hs]
    exact List.append_ne_nil_of_right_ne_nil w ho.head.1
  have hjson : json ≠ [] := by
    rintro rfl
    exact hne rfl
  have hstop := parseValue_stops (P := FailsAlone) (FailsWhen.rule _ _) hT.but
    (fun {n i} hb hh => by
      rcases hb with ⟨t, rfl, ht, -⟩ | ⟨hq, -⟩
      · exact parseArray_alone (.parseValue n) ht
      · rw [hh] at hq
        exact absurd hq (by decide))
    (fun {i} hb hq => by
      rcases hb with ⟨t, rfl, -⟩ | ⟨-, hf⟩
      · exact absurd hq (show ch '[' ≠ ch '"' by decide)
      · exact hf)
    _ ho hw (Nat.lt_succ_self _)
  obtain ⟨f, s', h, hctx⟩ := hstop [] (.start (w ++ i) []) (JState.start_at _ _) rfl
  obtain ⟨msg, hmsg⟩ := hctx.message
  have hrun := decodeWith_run T [] hjson
  rw [List.append_nil, if_neg hne, hs, h] at hrun
  simp only [hmsg, Option.map_some] at hrun
  exact ⟨_, hrun⟩

theorem Grammar.Document.suffix (hT : T.GivenBut B) {json r : List UInt8} {v : Json R} (h : Document T json v r) : r <:+ json := by
  obtain ⟨w, i, hs, hw, hv⟩ := document_iff.1 h
  have hi : i <:+ stripBom json := by
    rw [hs]
    exact List.suffix_append w i
  exact (hv.suffix hT).trans (hi.trans (stripBom_suffix json))

theorem Grammar.Document.unique (hT : T.GivenBut B) {json r r' : List UInt8} {v v' : Json R} (h : Document T json v r)
    (h' : Document T json v' r') : v = v' ∧ r = r' := by
  have hrun := decodeWith_document hT [] h
  rw [decodeWith_document hT [] h'] at hrun
  injection hrun with hrun
  injection hrun with hrun
  injection hrun with hv hn
  have hlen : r.length = r'.length := by omega
  have hr := List.suffix_of_suffix_length_le (h.suffix hT) (h'.suffix hT) hlen.le
  exact ⟨hv.symm, hr.eq_of_length hlen⟩

/-- Decoding ends. It returns a value and the offset behind it exactly for the documents of the grammar,
and fails on every other input. -/
theorem decodeWith_iff_document (hT : T.Given) (json : List UInt8) :
    ∃ res, decodeWith T json json.length = some res ∧
      (∀ v n, res = .ok (v, n) ↔ ∃ text r, json = text ++ r ∧ Document T json v r ∧ n = text.length) ∧
      ((∃ e, res = .error e) ↔ ∀ v r, ¬ Document T json v r) := by
  by_cases hdoc : ∃ v r, Document T json v r
  · obtain ⟨v, r, h⟩ := hdoc
    have hrun := decodeWith_document hT.but [] h
    rw [List.append_nil] at hrun
    refine ⟨_, hrun, fun v' n => ⟨?_, ?_⟩, ⟨?_, ?_⟩⟩
    · intro heq
      injection heq with heq
      injection heq with hv hn
      obtain ⟨text, htext⟩ := h.suffix hT.but
      refine ⟨text, r, htext.symm, hv ▸ h, ?_⟩
      rw [← hn, ← htext, List.length_append]
      omega
    · rintro ⟨text, r', hjson, h', rfl⟩
      obtain ⟨rfl, rfl⟩ := h.unique hT.but h'
      have hlen : (json.length : Int) - r.length = text.length := by
        rw [hjson, List.length_append]
        omega
      rw [hlen]
    · rintro ⟨e, he⟩
      cases he
    · intro hno
      exact absurd h (hno v r)
  · have hno : ∀ v r, ¬ Document T json v r := fun v r h => hdoc ⟨v, r, h⟩
    have herror : ∃ e, decodeWith T json json.length = some (.error e) := by
      by_cases hne : json = []
      · subst hne
        exact ⟨_, rfl⟩
      · rcases decodeWith_cases hT.but hne hno with hf | ⟨-, hm⟩ | ⟨w, i, hs, hw, ho⟩
        · simpa using hf []
        · rcases hm [] with hf | ⟨hext, -⟩
          · simpa using hf
          · exact absurd rfl hext
        · exact OpenValue.error hT hs hw ho
    obtain ⟨e, he⟩ := herror
    refine ⟨_, he, fun v n => ⟨?_, ?_⟩, ⟨fun _ => hno, fun _ => ⟨e, rfl⟩⟩⟩
    · intro heq
      cases heq
    · rintro ⟨text, r, -, h, -⟩
      exact absurd h (hno v r)

/-! ### The parsers of the library -/

/-- A string that has no result everywhere: it breaks off, or its puts do not fit. -/
def BrokenString (i : List UInt8) : Prop := ∃ j, i = ch '"' :: j ∧ (OpenBody j ∨ ¬ BodyFits j)

theorem BrokenString.lost {i : List UInt8} (h : BrokenString i) (mem : Stale) :
    ∃ ext, LostBefore ext (ipclJsonParseString mem) i := by
  obtain ⟨j, rfl, ho | hfit⟩ := h
  · exact ho.lost.imp fun ext hext => (LostBefore.rule ext).bind_left hext
  · exact ⟨[], parseString_lost mem hfit []⟩

theorem quote_cons {i : List UInt8} (hi : i.headD 0 = ch '"') : ∃ j, i = ch '"' :: j := by
  obtain ⟨c, j, rfl⟩ := List.exists_cons_of_ne_nil (ne_nil_of_headD (i := i) (by rw [hi]; decide))
  have hc : c = ch '"' := hi
  exact ⟨j, by rw [hc]⟩

theorem tokens_givenBut (D : Doubles R) (mem : Stale) : (tokens D mem).GivenBut BrokenString where
  string i hi := by
    obtain ⟨j, rfl⟩ := quote_cons hi
    by_cases hfit : BodyFits j
    · rcases parseString_cases mem hfit with ⟨bs, t, r, h, -, hread⟩ | hf | ho
      · obtain ⟨tok, htok, hj⟩ := h.token
        exact .inl ⟨_, tok, r, htok, hj, hread⟩
      · exact .inr (.inl hf)
      · exact .inr (.inr ⟨j, rfl, .inl ho⟩)
    · exact .inr (.inr ⟨j, rfl, .inr hfit⟩)
  unread hb h := by
    obtain ⟨ext, hext⟩ := hb.lost mem
    exact hext.not_reads h
  string_else _ i hc := parseString_else mem hc i
  number _ hi := parseNumber_token D hi

/-- The parser that fails where `p` has no result. -/
def JM.orFail {α : Type} (p : JM α) : JM α := fun s => (p s).or (some (.fail ⟨0, 0, none⟩ s))

theorem JM.orFail_some {α : Type} {p : JM α} {s : JState} {res : PRes α} (h : p s = some res) :
    JM.orFail p s = some res := by
  unfold JM.orFail
  rw [h, Option.some_or]

theorem BrokenString.failsAlone {i : List UInt8} (h : BrokenString i) (mem : Stale) :
    FailsAlone (JM.orFail (ipclJsonParseString mem)) i := by
  rintro ext s hs rfl
  obtain ⟨j, rfl, hj⟩ := h
  have hnone (hrun : ipclJsonParseString mem s = none) :
      ∃ f s', JM.orFail (ipclJsonParseString mem) s = some (.fail f s') ∧ s'.CtxIn := by
    refine ⟨⟨0, 0, none⟩, s, ?_, hs.ctx_in⟩
    unfold JM.orFail
    rw [hrun, Option.none_or]
  by_cases hfit : BodyFits j
  · rcases parseString_over mem (hj.resolve_right (not_not.2 hfit)) hfit hs with hrun | ⟨f, s', hrun⟩ | ⟨hext, -⟩
    · exact hnone hrun
    · exact ⟨f, s', JM.orFail_some hrun, parseString_ctx mem hs hrun⟩
    · exact absurd rfl hext
  · exact hnone (parseString_lost mem hfit [] s hs)

/-- The parsers of the library, with a failure for a string without a result. -/
def totalTokens (D : Doubles R) (mem : Stale) : Tokens R :=
  { tokens D mem with string := (tokens D mem).string.orFail }

theorem totalTokens_given (D : Doubles R) (mem : Stale) : (totalTokens D mem).Given where
  string i hi := by
    rcases (tokens_givenBut D mem).string i hi with ⟨k, tok, r, htok, hj, hread⟩ | hf | hb
    · refine .inl ⟨k, tok, r, htok, hj, fun ext s hs => ?_⟩
      obtain ⟨s', hrun, hs'⟩ := hread ext s hs
      exact ⟨s', JM.orFail_some hrun, hs'⟩
    · refine .inr fun ext s hs _ => ?_
      obtain ⟨f, s', hrun, hctx⟩ := hf ext s hs trivial
      exact ⟨f, s', JM.orFail_some hrun, hctx⟩
    · exact .inr (hb.failsAlone mem)
  string_else c i hc ext s hs he := by
    obtain ⟨f, s', hrun, hctx⟩ := parseString_else mem hc i ext s hs he
    exact ⟨f, s', JM.orFail_some hrun, hctx⟩
  number _ hi := parseNumber_token D hi

/-- Decimal numbers, as an integer and a power of ten. -/
def decimals : Doubles (Int × Int) where
  ofDecimal neg m e := ((if neg then -m else m, e), false)
  isZero r := r.1 == 0
  kind _ := .valid
  format r := txt (toString r.1 ++ "e" ++ toString r.2)

theorem decodeWith_iff_document_list : ∃ res, decodeWith (totalTokens decimals fun _ => .lit "") (txt "[null]") 6 = some res ∧
    (∀ v n, res = .ok (v, n) ↔ ∃ text r, txt "[null]" = text ++ r ∧
      Document (totalTokens decimals fun _ => .lit "") (txt "[null]") v r ∧ n = text.length) ∧
    ((∃ e, res = .error e) ↔ ∀ v r, ¬ Document (totalTokens decimals fun _ => .lit "") (txt "[null]") v r) :=
  decodeWith_iff_document (totalTokens_given decimals _) (txt "[null]")

end Pcl

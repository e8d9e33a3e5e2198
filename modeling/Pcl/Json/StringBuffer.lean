import Pcl.Json.Pieces

/-!
# The buffer of a string

What `ipcl_json_parse_string` returns is the block of its buffer. It is meant to hold the text of a string
literal and a NUL.
-/

namespace Pcl

variable {i r bs : List UInt8} {t : Bool} {ext : List UInt8} {s : JState}

/-- The parser has a result. -/
def HasResult (s : JState) : Prop := ∃ res, ipclJsonParseStringData s = some res

/-- The parser returns a block. -/
def ReturnsBlock (s : JState) : Prop := ∃ data s', ipclJsonParseStringData s = some (.ok data s')

theorem returnsBlock_iff (mem : Stale) : ReturnsBlock s ↔ ∃ k s', ipclJsonParseString mem s = some (.ok k s') := by
  unfold ipclJsonParseString
  rw [JM.bind_run]
  constructor
  · rintro ⟨data, s', h⟩
    rw [h]
    exact ⟨_, s', rfl⟩
  · rintro ⟨k, s', h⟩
    cases hdata : ipclJsonParseStringData s with
    | none =>
      rw [hdata] at h
      cases h
    | some res =>
      cases res with
      | ok data s₁ => exact ⟨data, s₁, hdata⟩
      | fail f s₁ =>
        rw [hdata] at h
        cases h

theorem hasResult_of_run {mem : Stale} {res : PRes CStr} (h : ipclJsonParseString mem s = some res) : HasResult s := by
  unfold ipclJsonParseString at h
  rw [JM.bind_run] at h
  cases hdata : ipclJsonParseStringData s with
  | none =>
    rw [hdata] at h
    cases h
  | some res => exact ⟨res, hdata⟩

/-- The block of a token: its text, and a NUL behind it unless the last character was a `\u` escape. -/
theorem parseStringData_reads (h : Chars i bs true t (ch '"' :: r)) (hfit : BodyFits i) (hok : Utf8Ok bs) (hs : s.At (ch '"' :: i) ext) :
    ∃ data k s', ipclJsonParseStringData s = some (.ok data s') ∧
      data = bs.map some ++ ((if t then [some 0] else []) ++ List.replicate k none) := by
  obtain ⟨s₁, hs₁, hrun⟩ := parseStringData_open hs
  obtain ⟨b', n', s', hb', -, hs', hn', hloop⟩ := stringLoop_chars h stringBuf_holds hfit hs₁
    (n := (i ++ ext).length + 1) (by rw [List.length_append]; omega)
  rw [List.nil_append] at hb'
  obtain ⟨n', rfl⟩ : ∃ m, n' = m + 1 := ⟨n' - 1, by rw [List.length_append, List.length_cons] at hn'; omega⟩
  obtain ⟨k, hk⟩ := hb'.data_eq
  refine ⟨b'.data, k, s'.next, ?_, hk⟩
  rw [hrun, hloop, stringLoop_ends n' b' (.inr hs'.head), JM.andThen_ok, closeData_ok hb' hok hs'.head]

/-- The parser reads what follows an opening quote as the standard has it: it has a result, it returns a block where
there is a body and its closing quote, and the block holds the text and a NUL. -/
def ReadsBodies (i : List UInt8) : Prop :=
  ∀ ext s, JState.At s (ch '"' :: i) ext → HasResult s ∧
    (ReturnsBlock s ↔ ∃ bs r, StringBody i bs (ch '"' :: r)) ∧
      ∀ data s' bs r, ipclJsonParseStringData s = some (.ok data s') → StringBody i bs (ch '"' :: r) →
        data.take (bs.length + 1) = (bs ++ [0]).map some

/-- The text has a code point that the check of UTF-8 does not accept, one above `3FFFF`. -/
def TooHigh (bs : List UInt8) : Prop := ∃ b ∈ bs, Rejected b

/-- What follows an opening quote keeps clear of what the parser does otherwise than the standard. -/
structure PlainBody (i : List UInt8) : Prop where
  /-- A text in quotes is made of standard pieces. -/
  strict : ∀ {ps bs r}, pieces i = (ps, ch '"' :: r) → Means ps bs → Utf8.Text bs → ¬ TooHigh bs → ∀ p ∈ ps, p.Std
  /-- It does not end in a `\u` escape. -/
  ending : ∀ {ps bs r}, pieces i = (ps, ch '"' :: r) → Means ps bs → Utf8.Text bs → ¬ TooHigh bs → ¬ EndsInUnit ps
  /-- A text with a code point above `3FFFF` has a piece that is not standard. -/
  low : ∀ {ps bs r}, pieces i = (ps, ch '"' :: r) → Means ps bs → Utf8.Text bs → TooHigh bs → ∃ p ∈ ps, ¬ p.Std
  /-- Pieces with a meaning do not break off, neither in front of a character nor inside a short escape. -/
  whole : ∀ {ps bs r}, pieces i = (ps, r) → Means ps bs → r ≠ [] ∧ r ≠ [ch '\\']
  /-- What is put into the buffer fits an `int`. -/
  fits : BodyFits i

/-- The same, by what the parser reads. -/
structure ReadsPlainly (i : List UInt8) : Prop where
  strict : ∀ {bs r t}, Chars i bs true t (ch '"' :: r) → Utf8Ok bs → StrictChars i bs true t (ch '"' :: r)
  ending : ∀ {bs r t}, Chars i bs true t (ch '"' :: r) → Utf8Ok bs → t = true
  low : ∀ {bs r}, StringBody i bs (ch '"' :: r) → ∀ b ∈ bs, ¬ Rejected b
  whole : ¬ OpenBody i
  fits : BodyFits i

theorem utf8Ok_iff_text : Utf8Ok bs ↔ Utf8.Text bs ∧ ¬ TooHigh bs := by
  rw [utf8Ok_iff]
  unfold TooHigh
  simp

theorem pieces_quote (r : List UInt8) : pieces (ch '"' :: r) = ([], ch '"' :: r) := by
  rw [pieces.eq_def]
  simp

theorem PlainBody.readsPlainly (h : PlainBody i) : ReadsPlainly i := by
  refine ⟨fun {bs r t} hc hok => ?_, fun {bs r t} hc hok => ?_, fun {bs r} hb b hmem hrej => ?_, ?_, h.fits⟩
  · obtain ⟨ps, hi, hps, rfl⟩ := hc.means (pieces_quote r)
    obtain ⟨htext, hlow⟩ := utf8Ok_iff_text.1 hok
    exact hps.strict (h.strict hi hps htext hlow) hi
  · obtain ⟨ps, hi, hps, rfl⟩ := hc.means (pieces_quote r)
    obtain ⟨htext, hlow⟩ := utf8Ok_iff_text.1 hok
    have hend := h.ending hi hps htext hlow
    cases hter : terminated true ps with
    | true => rfl
    | false =>
      rcases terminated_eq.1 hter with hunit | ⟨-, h⟩
      · exact absurd hunit hend
      · cases h
  · obtain ⟨t, hstrict⟩ := hb.strict true
    obtain ⟨ps, hi, hstd⟩ := hstrict.std (pieces_quote r)
    obtain ⟨ps', hi', hps, -⟩ := hstrict.chars.means (pieces_quote r)
    have heq : ps' = ps := (Prod.mk.inj (hi'.symm.trans hi)).1
    subst heq
    obtain ⟨p, hp, hno⟩ := h.low hi hps hb.text ⟨b, hmem, hrej⟩
    exact hno (hstd p hp)
  · rintro ⟨bs, t, r, hc, hr⟩
    have hstop : pieces r = ([], r) := by
      rcases hr with rfl | rfl
      · rfl
      · rfl
    obtain ⟨ps, hi, hps, -⟩ := hc.means hstop
    obtain ⟨hne, hesc⟩ := h.whole hi hps
    exact hr.elim hne hesc

theorem ReadsPlainly.plainBody (h : ReadsPlainly i) : PlainBody i := by
  refine ⟨fun {ps bs r} hi hps htext hlow => ?_, fun {ps bs r} hi hps htext hlow hend => ?_,
    fun {ps bs r} hi hps htext hhigh => ?_, fun {ps bs r} hi hps => ⟨fun hr => ?_, fun hr => ?_⟩, h.fits⟩
  · obtain ⟨ps', hi', hstd⟩ := (h.strict (hps.chars hi) (utf8Ok_iff_text.2 ⟨htext, hlow⟩)).std (pieces_quote r)
    rw [hi] at hi'
    rwa [(Prod.mk.inj hi').1]
  · have hter := h.ending (hps.chars hi) (utf8Ok_iff_text.2 ⟨htext, hlow⟩)
    rw [terminated_eq.2 (.inl hend)] at hter
    cases hter
  · by_contra hno
    have hstd : ∀ p ∈ ps, p.Std := fun p hp => by_contra fun h => hno ⟨p, hp, h⟩
    obtain ⟨b, hmem, hrej⟩ := hhigh
    exact h.low ((hps.strict hstd (t := true) hi).body htext) b hmem hrej
  · exact h.whole ⟨bs, _, r, hps.chars hi, .inl hr⟩
  · exact h.whole ⟨bs, _, r, hps.chars hi, .inr hr⟩

theorem ReadsBodies.fits (hread : ReadsBodies i) : BodyFits i := by
  by_contra hfit
  obtain ⟨res, hres⟩ := (hread [] _ (JState.start_at _ [])).1
  rw [parseStringData_lost hfit [] _ (JState.start_at _ [])] at hres
  cases hres

theorem ReadsBodies.whole (hread : ReadsBodies i) : ¬ OpenBody i := by
  intro ho
  obtain ⟨ext, hext⟩ := ho.lost
  obtain ⟨res, hres⟩ := (hread ext _ (JState.start_at _ ext)).1
  rw [hext _ (JState.start_at _ ext)] at hres
  cases hres

/-- The block of a body that ends in a `\u` escape has no NUL behind the text. -/
theorem ReadsBodies.ending (hread : ReadsBodies i) (h : Chars i bs true t (ch '"' :: r)) (hok : Utf8Ok bs)
    (hb : StringBody i bs (ch '"' :: r)) : t = true := by
  have hs := JState.start_at (ch '"' :: i) []
  obtain ⟨data, k, s', hrun, hdata⟩ := parseStringData_reads h hread.fits hok hs
  have htake := (hread [] _ hs).2.2 data s' bs r hrun hb
  rw [hdata, List.map_append, ← List.length_map (f := some), List.take_length_add_append] at htake
  have hnul := List.append_cancel_left htake
  cases t with
  | true => rfl
  | false =>
    cases k with
    | zero => cases hnul
    | succ k => cases hnul

theorem readsBodies_iff_readsPlainly (i : List UInt8) : ReadsBodies i ↔ ReadsPlainly i := by
  constructor
  · intro hread
    have hgo := (hread [] _ (JState.start_at (ch '"' :: i) [])).2.1
    -- what is accepted is a body, and it is the one the characters are from
    have hbody {bs r t} (h : Chars i bs true t (ch '"' :: r)) (hok : Utf8Ok bs) :
        StrictChars i bs true t (ch '"' :: r) ∧ t = true := by
      obtain ⟨data, k, s', hrun, hdata⟩ := parseStringData_reads h hread.fits hok (JState.start_at _ [])
      obtain ⟨bs', r', hb⟩ := hgo.1 ⟨data, s', hrun⟩
      obtain ⟨t', hstrict⟩ := hb.strict true
      obtain ⟨rfl, rfl, hr⟩ := h.unique (.quote r) hstrict.chars (.quote r')
      exact ⟨hr ▸ hstrict, hread.ending h hok (hr ▸ hb)⟩
    refine ⟨fun h hok => (hbody h hok).1, fun h hok => (hbody h hok).2, fun {bs r} hb c hc hrej => ?_,
      hread.whole, hread.fits⟩
    · obtain ⟨t, hstrict⟩ := hb.strict true
      have hno : ¬ Utf8Ok bs := fun hok => (utf8Ok_iff.1 hok).2 c hc hrej
      obtain ⟨k, s', hrun⟩ := (returnsBlock_iff fun _ => .lit "").1 (hgo.2 ⟨bs, r, hb⟩)
      obtain ⟨f, s'', hfail, -⟩ := parseString_fails (fun _ => .lit "") hstrict.chars hread.fits (.quote r)
        ⟨List.cons_ne_nil _ _, fun h => absurd (List.cons.inj h).1 (by decide)⟩ (fun _ => hno) [] _
        (JState.start_at _ []) trivial
      rw [hrun] at hfail
      cases hfail
  · intro hplain ext s hs
    have hreads {bs r} (hb : StringBody i bs (ch '"' :: r)) :
        ∃ data k s', ipclJsonParseStringData s = some (.ok data s') ∧ data = bs.map some ++ some 0 :: List.replicate k none := by
      obtain ⟨t, hstrict⟩ := hb.strict true
      have hok : Utf8Ok bs := utf8Ok_iff.2 ⟨hb.text, hplain.low hb⟩
      obtain ⟨data, k, s', hrun, hdata⟩ := parseStringData_reads hstrict.chars hplain.fits hok hs
      rw [hplain.ending hstrict.chars hok] at hdata
      exact ⟨data, k, s', hrun, hdata⟩
    have hcases := parseString_cases (fun _ => .lit "") hplain.fits
    refine ⟨?_, ⟨fun hret => ?_, ?_⟩, ?_⟩
    · rcases hcases with ⟨bs, t, r, -, -, hread⟩ | hfail | ho
      · obtain ⟨s', hrun, -⟩ := hread ext s hs
        exact hasResult_of_run hrun
      · obtain ⟨f, s', hrun, -⟩ := hfail ext s hs trivial
        exact hasResult_of_run hrun
      · exact absurd ho hplain.whole
    · obtain ⟨k, s', hrun⟩ := (returnsBlock_iff fun _ => .lit "").1 hret
      rcases hcases with ⟨bs, t, r, h, hok, -⟩ | hfail | ho
      · exact ⟨bs, r, (hplain.strict h hok).body hok.text.1⟩
      · obtain ⟨f, s'', hf, -⟩ := hfail ext s hs trivial
        rw [hrun] at hf
        cases hf
      · exact absurd ho hplain.whole
    · rintro ⟨bs, r, hb⟩
      obtain ⟨data, k, s', hrun, -⟩ := hreads hb
      exact ⟨data, s', hrun⟩
    · intro data s' bs r hrun hb
      obtain ⟨data', k, s'', hrun', hdata⟩ := hreads hb
      rw [hrun] at hrun'
      cases hrun'
      rw [hdata, ← List.length_map (f := some), List.take_length_add_append, List.map_append]
      rfl

/-- Exactly the plain bodies are read as the standard has them. -/
theorem parseString_readsBodies_iff (i : List UInt8) : ReadsBodies i ↔ PlainBody i :=
  (readsBodies_iff_readsPlainly i).trans ⟨ReadsPlainly.plainBody, PlainBody.readsPlainly⟩

/-- A last `\u` escape leaves the block without a NUL, and a tab is accepted. -/
theorem parseString_unterminated :
    ¬ ReadsBodies (txt "\\u0041\"") ∧ ¬ ReadsBodies (txt "\t\"") := by
  constructor
  · intro h
    have hdigits : (txt "0041").all (fun c => decide (digitVal c < 16)) = true := by decide
    have hn : Hex4 (txt "0041") := ⟨rfl, fun c hc => of_decide_eq_true (List.all_eq_true.1 hdigits c hc)⟩
    have hnum : numeral 16 (txt "0041") = 0x41 := rfl
    have hb : StringBody (txt "\\u0041\"") (txt "A") (ch '"' :: []) :=
      StringBody.unit hn (by rw [hnum]; decide) (.nil _)
    have hstrict : StrictChars (txt "\\u0041\"") (txt "A") true false (ch '"' :: []) :=
      StrictChars.unit hn (by rw [hnum]; exact fun h => absurd h.1 (by decide)) (.nil _ _)
    exact absurd (h.ending hstrict.chars (by decide) hb) (by decide)
  · intro h
    have hc : Chars (txt "\t\"") [0x09] true true (ch '"' :: []) :=
      .plain (by decide) (by decide) (by decide) (.nil _ _)
    obtain ⟨data, k, s', hrun, -⟩ := parseStringData_reads hc h.fits (by decide) (JState.start_at _ [])
    obtain ⟨bs, r, hb⟩ := (h [] _ (JState.start_at _ [])).2.1.1 ⟨data, s', hrun⟩
    obtain ⟨t, hstrict⟩ := hb.strict true
    generalize hi : txt "\t\"" = i, hj : ch '"' :: r = j at hstrict
    cases hstrict with
    | nil r t =>
      rw [← hi] at hj
      exact absurd (List.cons.inj hj).1 (by decide)
    | plain hc h =>
      rw [← (List.cons.inj hi).1] at hc
      exact absurd hc.1 (by decide)
    | escape hx h => exact absurd (List.cons.inj hi).1 (by decide)
    | unit hn hs h => exact absurd (List.cons.inj hi).1 (by decide)
    | pair hhi hlo h₁ h₂ h => exact absurd (List.cons.inj hi).1 (by decide)

end Pcl

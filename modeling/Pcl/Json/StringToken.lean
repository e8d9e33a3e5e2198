import Pcl.Json.Grammar
import Pcl.Buf.Fit

/-!
# What a string token reads

`Chars i bs t t' r`: from `i`, plain bytes and escapes that stand for the bytes `bs` are read and `r` is
left; if the buffer was terminated as `t` says it is as `t'` says afterwards. `bodyPuts i` are the puts into the buffer
on the way. A string token is such a text between two quotes; it is a string if it is accepted as UTF-8, and if its
buffer is terminated. Where its puts do not fit an `int` there is no result.
-/

namespace Pcl

variable {i j r num bs bytes : List UInt8} {b : Buf UInt8} {t t' : Bool}

/-! ### Unicode escapes -/

/-- The number of four hexadecimal digits. -/
def hexUnit (num : List UInt8) : Option UInt32 :=
  match strtoi num 16 with
  | .error _ => none
  | .ok (n, rest) => if rest.headD 0 ≠ 0 then none else some (UInt32.ofNat (n % 2 ^ 32).toNat)

/-- The code point of a surrogate pair, from behind its first unit, and the rest of the text. -/
def pairPoint (first : UInt32) (j : List UInt8) : Option (UInt32 × List UInt8) :=
  if j.length < 6 ∨ j.headD 0 ≠ ch '\\' ∨ (j.drop 1).headD 0 ≠ ch 'u' then none
  else
    match hexUnit ((j.drop 2).take 4) with
    | none => none
    | some second =>
      if second < 0xdc00 ∨ second > 0xdfff then none
      else some ((0x10000 : UInt32) + ((first &&& 0x03ff) <<< 10) + (second &&& 0x03ff), (j.drop 2).drop 4)

/-- The code point of an escape, from behind its `u`, and the rest of the text. -/
def codePoint (i : List UInt8) : Option (UInt32 × List UInt8) :=
  if i.length < 4 then none
  else
    match hexUnit (i.take 4) with
    | none => none
    | some first => if first ≥ 0xd800 ∧ first ≤ 0xdbff then pairPoint first (i.drop 4) else some (first, i.drop 4)

/-- The bytes of an escape, from behind its `u`, and the rest of the text. -/
def unicodeEscape (i : List UInt8) : Option (List UInt8 × List UInt8) :=
  match codePoint i with
  | none => none
  | some (code, r) =>
    match utf8Encode code with
    | .error _ => none
    | .ok bytes => some (bytes, r)

theorem utf8Encode_length {code : UInt32} (h : utf8Encode code = .ok bytes) : bytes ≠ [] ∧ bytes.length ≤ 4 := by
  unfold utf8Encode at h
  by_cases h₁ : code ≤ 0x7F
  · rw [if_pos h₁] at h
    cases h
    simp
  by_cases h₂ : code ≤ 0x07FF
  · rw [if_neg h₁, if_pos h₂] at h
    cases h
    simp
  by_cases h₃ : code ≤ 0xFFFF
  · rw [if_neg h₁, if_neg h₂, if_pos h₃] at h
    cases h
    simp
  by_cases h₄ : code ≤ 0x10FFFF
  · rw [if_neg h₁, if_neg h₂, if_neg h₃, if_pos h₄] at h
    cases h
    simp
  · rw [if_neg h₁, if_neg h₂, if_neg h₃, if_neg h₄] at h
    cases h

theorem hex2num_reads {u : UInt32} (hlen : num.length = 4) (hu : hexUnit num = some u) :
    Reads hex2num (num ++ r) u r := by
  intro ext s hs
  have htake : s.rest.take 4 = num := by
    rw [hs.rest_eq, ← hlen, List.append_assoc, List.take_left]
  have hdrop : s.rest.drop 4 = r ++ ext := by
    rw [hs.rest_eq, ← hlen, List.append_assoc, List.drop_left]
  have hleft : s.left - 4 = r.length := by
    rw [hs.left_eq, List.length_append, hlen]
    omega
  unfold hexUnit at hu
  unfold hex2num
  simp only [htake]
  cases hn : strtoi num 16 with
  | error f => simp [hn] at hu
  | ok p =>
    obtain ⟨n, rest⟩ := p
    by_cases hrest : rest.headD 0 = 0
    · simp only [hn, hrest, ne_eq, not_true_eq_false, ↓reduceIte, Option.some.injEq] at hu ⊢
      rw [hu]
      exact ⟨_, rfl, hdrop, hleft, hs.ctx_in.nonneg, hs.ctx_in.le_length⟩
    · simp only [hn, ne_eq, hrest, not_false_eq_true, ↓reduceIte, reduceCtorEq] at hu

theorem hex2num_fails (hlen : num.length = 4) (hu : hexUnit num = none) (r : List UInt8) :
    Fails hex2num (num ++ r) := by
  intro ext s hs _
  have htake : s.rest.take 4 = num := by
    rw [hs.rest_eq, ← hlen, List.append_assoc, List.take_left]
  unfold hexUnit at hu
  unfold hex2num
  simp only [htake]
  cases hn : strtoi num 16 with
  | error f => exact ⟨f, s, rfl, hs.ctx_in⟩
  | ok p =>
    obtain ⟨n, rest⟩ := p
    by_cases hrest : rest.headD 0 = 0
    · simp only [hn, hrest, ne_eq, not_true_eq_false, ↓reduceIte, reduceCtorEq] at hu
    · simp only [ne_eq, hrest, not_false_eq_true, ↓reduceIte]
      exact ⟨_, _, rfl, hs.ctx_in⟩

/-- The put of a code point: it asks for room for any. -/
def codePut (code : UInt32) : Put :=
  match utf8Encode code with
  | .error _ => ⟨4, 0⟩
  | .ok bytes => ⟨4, bytes.length⟩

theorem codePut_ok {code : UInt32} (hc : utf8Encode code = .ok bytes) : codePut code = ⟨4, bytes.length⟩ := by
  unfold codePut
  rw [hc]

theorem growInts_inInt (hpos : b.pos ≤ b.size) : (∀ x ∈ growInts b 4, InInt x) ↔ b.size < 2 ^ 31 := by
  unfold growInts InInt intMin intMax
  simp only [List.forall_mem_append, List.forall_mem_cons]
  constructor
  · rintro ⟨⟨hsize, -⟩, -⟩
    omega
  · intro hsize
    refine ⟨⟨by omega, by omega, List.forall_mem_nil _⟩, ?_⟩
    split
    · rw [List.forall_mem_singleton]
      omega
    · exact List.forall_mem_nil _

theorem putCode_reads {code : UInt32} (hb : b.Holds bs t) (hc : utf8Encode code = .ok bytes)
    (hfit : b.fill.Takes (codePut code)) :
    ∃ b', b'.Holds (bs ++ bytes) false ∧ b'.fill = b.fill.add (codePut code) ∧ ∀ i, Reads (putCode b code) i b' i := by
  rw [codePut_ok hc] at hfit ⊢
  obtain ⟨hsize, hsum, -⟩ := hfit
  obtain ⟨hne, hlen⟩ := utf8Encode_length hc
  obtain ⟨hg, hroom, hmode⟩ := hb.grow 4
  obtain ⟨k, hst, hk⟩ := hg.store hne (by omega)
  have hpos := hg.pos_eq
  have hlen' := hg.len_eq
  have hb₀ := hb.pos_eq
  have hlt := hb.lt_size
  have hsum' : bs.length + bytes.length < 2 ^ 31 := hb₀ ▸ hsum
  refine ⟨{ bufGrow b 4 with
    data := (bs ++ bytes).map some ++ List.replicate k none
    pos := (bufGrow b 4).pos + bytes.length
    len := (bufGrow b 4).len + bytes.length }, ⟨?_, ?_, ?_, ?_, k, rfl⟩, ?_, fun i => ?_⟩
  · rw [hpos, List.length_append]
  · rw [hlen', List.length_append]
  · show _ = (bufGrow b 4).size
    simp only [List.length_append, List.length_map, List.length_replicate]
    omega
  · show _ < (bufGrow b 4).size
    rw [List.length_append]
    omega
  · show Fill.mk ((bufGrow b 4).pos + bytes.length) (bufGrow b 4).size = _
    rw [hpos, bufGrow_size, ← hb₀]
    rfl
  · unfold putCode
    rw [if_pos ((growInts_inInt (by omega)).2 hsize)]
    simp only [hc, hst]
    rw [if_pos]
    · exact .pure _ _
    · rw [hpos, hlen']
      unfold InInt intMin intMax
      omega

theorem putCode_fails {code : UInt32} {f : Fault} (hb : b.Holds bs t) (hc : utf8Encode code = .error f)
    (hfit : b.fill.Takes (codePut code)) (i : List UInt8) : Fails (putCode b code) i := by
  have hpos := hb.pos_eq
  have hlt := hb.lt_size
  unfold putCode
  rw [if_pos ((growInts_inInt (by omega)).2 hfit.1), hc]
  exact .fault f i

theorem putCode_lost (hb : b.Holds bs t) {code : UInt32} (hfit : ¬ b.fill.Takes (codePut code)) (i : List UInt8) :
    Lost (putCode b code) i := by
  intro ext s hs
  have hpos := hb.pos_eq
  have hlt := hb.lt_size
  have hgpos := (hb.grow 4).1.pos_eq
  have hints := growInts_inInt (b := b) (by omega)
  have four_lt : 4 < 2 ^ 31 := by decide
  unfold putCode
  by_cases hgrow : ∀ x ∈ growInts b 4, InInt x
  · rw [if_pos hgrow]
    have hsize := hints.1 hgrow
    unfold codePut at hfit
    cases hc : utf8Encode code with
    | error f =>
      rw [hc] at hfit
      refine absurd ⟨hsize, ?_, four_lt⟩ hfit
      show b.pos + 0 < 2 ^ 31
      omega
    | ok bytes =>
      simp only
      cases storeAt (bufGrow b 4).data (bufGrow b 4).pos bytes with
      | none => rfl
      | some data =>
        simp only
        rw [if_neg]
        · rfl
        · rintro ⟨⟨-, hsum⟩, -⟩
          rw [hc] at hfit
          refine hfit ⟨hsize, ?_, four_lt⟩
          show b.pos + bytes.length < 2 ^ 31
          unfold intMax at hsum
          rw [hgpos, ← hpos] at hsum
          omega
  · rw [if_neg hgrow]
    rfl

/-- `p` goes on to put the code point that was found, and stops where that does, or fails if there was none. -/
def PutsPoint (p : Buf UInt8 → JM (Buf UInt8)) (i : List UInt8) : Option (UInt32 × List UInt8) → Prop
  | none => ∀ b, Fails (p b) i
  | some (code, r) => r <:+ i ∧ ∀ b, (∀ b', Reads (putCode b code) r b' r → Reads (p b) i b' r) ∧
      ∀ {P : ∀ {α : Type}, JM α → List UInt8 → Prop}, StopRule P → P (putCode b code) r → P (p b) i

theorem secondUnit_puts (first : UInt32) (rest j : List UInt8) :
    PutsPoint (fun b => secondUnit b first rest) j (pairPoint first j) := by
  unfold pairPoint
  by_cases h6 : j.length < 6
  · rw [if_pos (.inl h6)]
    refine fun b => .get fun ext s hs => .ite ?_ (.throw _ _)
    rw [hs.left_eq]
    omega
  obtain ⟨c, d, k, rfl⟩ : ∃ c d k, j = c :: d :: k := by
    match j with
    | [] | [_] => simp at h6
    | c :: d :: k => exact ⟨c, d, k, rfl⟩
  have hk : ¬ k.length < 4 := by
    simp only [List.length_cons] at h6
    omega
  have hleft {ext s} (hs : JState.At s (c :: d :: k) ext) : ¬ s.left < 6 := by
    rw [hs.left_eq]
    omega
  have hhead {ext s} (hs : JState.At s (c :: d :: k) ext) : s.rest.headD 0 = c ∧ (s.rest.drop 1).headD 0 = d := by
    rw [hs.rest_eq]
    exact ⟨rfl, rfl⟩
  by_cases hcd : c ≠ ch '\\' ∨ d ≠ ch 'u'
  · rw [if_pos (.inr hcd)]
    refine fun b => .get fun ext s hs => .ite_not (hleft hs) (.ite ?_ (.throw _ _))
    rw [(hhead hs).1, (hhead hs).2]
    exact hcd
  have hgo : ¬ ((c :: d :: k).length < 6 ∨ (c :: d :: k).headD 0 ≠ ch '\\' ∨
      ((c :: d :: k).drop 1).headD 0 ≠ ch 'u') := not_or.2 ⟨h6, hcd⟩
  rw [if_neg hgo]
  have hnot {ext s} (hs : JState.At s (c :: d :: k) ext) :
      ¬ (s.rest.headD 0 ≠ ch '\\' ∨ (s.rest.drop 1).headD 0 ≠ ch 'u') := by
    rw [(hhead hs).1, (hhead hs).2]
    exact hcd
  have hskip : Reads (JM.skip 2) (c :: d :: k) () k := .skip_append [c, d] rfl
  have hlen : (k.take 4).length = 4 := by
    rw [List.length_take]
    omega
  have hkk : k.take 4 ++ k.drop 4 = k := List.take_append_drop 4 k
  simp only [List.drop_succ_cons, List.drop_zero]
  cases hu : hexUnit (k.take 4) with
  | none =>
    refine fun b => .get fun ext s hs => .ite_not (hleft hs) (.ite_not (hnot hs) (.bind_right hskip (.bind_left ?_)))
    have h := hex2num_fails hlen hu (k.drop 4)
    rwa [hkk] at h
  | some second =>
    have hsecond : Reads hex2num k second (k.drop 4) := by
      have h := hex2num_reads (r := k.drop 4) hlen hu
      rwa [hkk] at h
    by_cases hsur : second < 0xdc00 ∨ second > 0xdfff
    · simp only [hsur, ↓reduceIte]
      exact fun b => .get fun ext s hs => .ite_not (hleft hs) (.ite_not (hnot hs) (.bind_right hskip
        (.bind_right hsecond (.ite hsur (.throw _ _)))))
    · simp only [hsur, ↓reduceIte]
      refine ⟨(List.drop_suffix 4 k).trans (List.suffix_append [c, d] k), fun b => ⟨fun b' h => ?_, fun hP h => ?_⟩⟩
      · exact .get fun ext s hs => .ite_not (hleft hs) (.ite_not (hnot hs) (.bind hskip
          (.bind hsecond (.ite_not hsur h))))
      · exact hP.get fun ext s hs => hP.ite_not (hleft hs) (hP.ite_not (hnot hs) (hP.bind_right hskip
          (hP.bind_right hsecond (hP.ite_not hsur h))))

theorem utf16ToUtf8_puts (i : List UInt8) : PutsPoint utf16ToUtf8 i (codePoint i) := by
  unfold codePoint
  by_cases h4 : i.length < 4
  · rw [if_pos h4]
    refine fun b => .get fun ext s hs => .ite ?_ (.throw _ _)
    rw [hs.left_eq]
    omega
  rw [if_neg h4]
  have hleft {ext s} (hs : JState.At s i ext) : ¬ s.left < 4 := by
    rw [hs.left_eq]
    omega
  have hlen : (i.take 4).length = 4 := by
    rw [List.length_take]
    omega
  have hi : i.take 4 ++ i.drop 4 = i := List.take_append_drop 4 i
  cases hu : hexUnit (i.take 4) with
  | none =>
    refine fun b => .get fun ext s hs => .ite_not (hleft hs) (.bind_left ?_)
    have h := hex2num_fails hlen hu (i.drop 4)
    rwa [hi] at h
  | some first =>
    have hfirst : Reads hex2num i first (i.drop 4) := by
      have h := hex2num_reads (r := i.drop 4) hlen hu
      rwa [hi] at h
    by_cases hsur : first ≥ 0xd800 ∧ first ≤ 0xdbff
    · simp only [hsur, and_self, ↓reduceIte]
      have hpair := fun rest => secondUnit_puts first rest (i.drop 4)
      cases hp : pairPoint first (i.drop 4) with
      | none =>
        rw [hp] at hpair
        exact fun b => .get fun ext s hs => .ite_not (hleft hs) (.bind_right hfirst (.ite hsur (hpair s.rest b)))
      | some p =>
        obtain ⟨code, r⟩ := p
        rw [hp] at hpair
        refine ⟨(hpair []).1.trans (List.drop_suffix 4 i), fun b => ⟨fun b' h => ?_, fun hP h => ?_⟩⟩
        · exact .get fun ext s hs => .ite_not (hleft hs) (.bind hfirst (.ite hsur (((hpair s.rest).2 b).1 b' h)))
        · exact hP.get fun ext s hs => hP.ite_not (hleft hs) (hP.bind_right hfirst
            (hP.ite hsur (((hpair s.rest).2 b).2 hP h)))
    · simp only [hsur, ↓reduceIte]
      refine ⟨List.drop_suffix 4 i, fun b => ⟨fun b' h => ?_, fun hP h => ?_⟩⟩
      · exact .get fun ext s hs => .ite_not (hleft hs) (.bind hfirst (.ite_not hsur h))
      · exact hP.get fun ext s hs => hP.ite_not (hleft hs) (hP.bind_right hfirst (hP.ite_not hsur h))

theorem unicodeEscape_eq (hi : unicodeEscape i = some (bytes, r)) :
    ∃ code, codePoint i = some (code, r) ∧ utf8Encode code = .ok bytes := by
  unfold unicodeEscape at hi
  cases hc : codePoint i with
  | none => simp only [hc, reduceCtorEq] at hi
  | some p =>
    obtain ⟨code, j⟩ := p
    cases he : utf8Encode code with
    | error f => simp only [hc, he, reduceCtorEq] at hi
    | ok bytes' =>
      simp only [hc, he, Option.some.injEq, Prod.mk.injEq] at hi
      obtain ⟨rfl, rfl⟩ := hi
      exact ⟨code, rfl, he⟩

theorem codePoint_suffix {code : UInt32} (hi : codePoint i = some (code, r)) : r <:+ i := by
  have hputs := utf16ToUtf8_puts i
  rw [hi] at hputs
  exact hputs.1

theorem unicodeEscape_suffix (hi : unicodeEscape i = some (bytes, r)) : r <:+ i := by
  obtain ⟨code, hc, -⟩ := unicodeEscape_eq hi
  exact codePoint_suffix hc

/-- The put of an escape, from behind its `u`. -/
def unitPuts (i : List UInt8) : List Put :=
  match codePoint i with
  | none => []
  | some (code, _) => [codePut code]

theorem unitPuts_ok (hi : unicodeEscape i = some (bytes, r)) : unitPuts i = [⟨4, bytes.length⟩] := by
  obtain ⟨code, hc, he⟩ := unicodeEscape_eq hi
  unfold unitPuts
  rw [hc]
  simp only
  rw [codePut_ok he]

/-- An escape appends its bytes and leaves the buffer without a NUL. -/
theorem utf16ToUtf8_reads (hb : b.Holds bs t) (hi : unicodeEscape i = some (bytes, r)) (hfit : b.fill.Takes ⟨4, bytes.length⟩) :
    ∃ b', b'.Holds (bs ++ bytes) false ∧ b'.fill = b.fill.add ⟨4, bytes.length⟩ ∧ Reads (utf16ToUtf8 b) i b' r := by
  obtain ⟨code, hc, he⟩ := unicodeEscape_eq hi
  have hputs := utf16ToUtf8_puts i
  rw [hc] at hputs
  rw [← codePut_ok he] at hfit ⊢
  obtain ⟨b', hb', hfill, hput⟩ := putCode_reads hb he hfit
  exact ⟨b', hb', hfill, (hputs.2 b).1 b' (hput _)⟩

theorem utf16ToUtf8_fails (hb : b.Holds bs t) (hi : unicodeEscape i = none) (hfit : b.fill.Fits (unitPuts i)) :
    Fails (utf16ToUtf8 b) i := by
  have hputs := utf16ToUtf8_puts i
  unfold unicodeEscape at hi
  unfold unitPuts at hfit
  cases hc : codePoint i with
  | none =>
    rw [hc] at hputs
    exact hputs b
  | some p =>
    obtain ⟨code, j⟩ := p
    rw [hc] at hputs hfit
    cases he : utf8Encode code with
    | error f => exact (hputs.2 b).2 (FailsWhen.rule _ _) (putCode_fails hb he (Fill.fits_singleton.1 hfit) j)
    | ok bytes' => simp only [hc, he, reduceCtorEq] at hi

theorem utf16ToUtf8_lost (hb : b.Holds bs t) (hfit : ¬ b.fill.Fits (unitPuts i)) : Lost (utf16ToUtf8 b) i := by
  have hputs := utf16ToUtf8_puts i
  unfold unitPuts at hfit
  cases hc : codePoint i with
  | none =>
    rw [hc] at hfit
    exact absurd trivial hfit
  | some p =>
    rw [hc] at hputs hfit
    exact (hputs.2 b).2 Lost.rule (putCode_lost hb (fun htakes => hfit (Fill.fits_singleton.2 htakes)) _)

theorem utf16ToUtf8_end (b : Buf UInt8) {s : JState} (hs : s.left < 4) :
    ∃ f s', utf16ToUtf8 b s = some (.fail f s') := by
  have hget : JM.get s = some (.ok s s) := rfl
  unfold utf16ToUtf8
  rw [JM.bind_run, hget, JM.andThen_ok, if_pos hs]
  exact ⟨_, _, rfl⟩

/-! ### The text between the quotes -/

/-- From `i` the loop reads `bs` and leaves `r`. -/
inductive Chars : List UInt8 → List UInt8 → Bool → Bool → List UInt8 → Prop
  | nil (r : List UInt8) (t : Bool) : Chars r [] t t r
  | plain {c : UInt8} {i bs r : List UInt8} {t t' : Bool} (h0 : c ≠ 0) (hq : c ≠ ch '"') (hb : c ≠ ch '\\')
      (h : Chars i bs true t' r) : Chars (c :: i) (c :: bs) t t' r
  | escape {c x : UInt8} {i bs r : List UInt8} {t t' : Bool} (hx : unescape c = some x) (h : Chars i bs true t' r) :
      Chars (ch '\\' :: c :: i) (x :: bs) t t' r
  | unicode {i j bytes bs r : List UInt8} {t t' : Bool} (hu : unicodeEscape i = some (bytes, j))
      (h : Chars j bs false t' r) : Chars (ch '\\' :: ch 'u' :: i) (bytes ++ bs) t t' r

/-- The puts of the loop from the bytes on, up to where it stops. -/
def bodyPuts : List UInt8 → List Put
  | [] => []
  | c :: i =>
    if c = 0 ∨ c = ch '"' then []
    else if c ≠ ch '\\' then .block 1 :: bodyPuts i
    else
      match i with
      | [] => []
      | c :: i =>
        if c = ch 'u' then
          match _hu : unicodeEscape i with
          | none => unitPuts i
          | some (bytes, r) => ⟨4, bytes.length⟩ :: bodyPuts r
        else
          match unescape c with
          | none => []
          | some _ => .block 1 :: bodyPuts i
termination_by i => i.length
decreasing_by
  · simp
  · have hlen := (unicodeEscape_suffix _hu).length_le
    simp only [List.length_cons]
    omega
  · simp only [List.length_cons]
    omega

theorem bodyPuts_plain {c : UInt8} (h0 : c ≠ 0) (hq : c ≠ ch '"') (hb : c ≠ ch '\\') (i : List UInt8) :
    bodyPuts (c :: i) = .block 1 :: bodyPuts i := by
  rw [bodyPuts.eq_def]
  simp only [h0, hq, hb, or_self, ↓reduceIte, ne_eq, not_false_eq_true]

theorem bodyPuts_unit (i : List UInt8) : bodyPuts (ch '\\' :: ch 'u' :: i) =
    match unicodeEscape i with
    | none => unitPuts i
    | some (bytes, r) => ⟨4, bytes.length⟩ :: bodyPuts r := by
  rw [bodyPuts.eq_def]
  simp only [show ¬ (ch '\\' = 0 ∨ ch '\\' = ch '"') by decide, ↓reduceIte, ne_eq, not_true_eq_false]
  split <;> simp_all

theorem bodyPuts_unicode (hi : unicodeEscape i = some (bytes, r)) :
    bodyPuts (ch '\\' :: ch 'u' :: i) = ⟨4, bytes.length⟩ :: bodyPuts r := by
  rw [bodyPuts_unit, hi]

theorem bodyPuts_backslash {c : UInt8} (hu : c ≠ ch 'u') (i : List UInt8) : bodyPuts (ch '\\' :: c :: i) =
    match unescape c with
    | none => []
    | some _ => .block 1 :: bodyPuts i := by
  rw [bodyPuts.eq_def]
  simp only [show ¬ (ch '\\' = 0 ∨ ch '\\' = ch '"') by decide, hu, ↓reduceIte, ne_eq, not_true_eq_false]

/-- A put takes its byte, and leaves the buffer terminated, or has no result. -/
theorem putChar_cases (hb : b.Holds bs t) (c : UInt8) :
    (b.fill.Takes (.block 1) ∧ ∃ b', b'.Holds (bs ++ [c]) true ∧ b'.fill = b.fill.add (.block 1) ∧
      ∀ s, putChar b c s = some (.ok b' s)) ∨ (¬ b.fill.Takes (.block 1) ∧ ∀ s, putChar b c s = none) := by
  rcases bufPutchar_appends hb c .zero with ⟨hfits, b', hrun, hb', -, hfill⟩ | ⟨hno, hrun⟩
  · refine .inl ⟨Fill.fits_singleton.1 hfits, b', hb', hfill, fun s => ?_⟩
    unfold putChar JM.lift
    rw [hrun]
  · refine .inr ⟨fun htakes => hno (Fill.fits_singleton.2 htakes), fun s => ?_⟩
    unfold putChar JM.lift
    rw [hrun]

theorem unescape_ne_u {c x : UInt8} (h : unescape c = some x) : c ≠ ch 'u' := by
  rintro rfl
  have hnone : unescape (ch 'u') = none := by decide
  rw [hnone] at h
  cases h

/-- The state behind the next byte. -/
def JState.next (s : JState) : JState := { s with rest := s.rest.drop 1, left := s.left - 1 }

theorem peek_run {c : UInt8} {s : JState} (hs : s.rest.headD 0 = c) : JM.peek s = some (.ok c s) := by
  unfold JM.peek
  rw [hs]

theorem unescape_ne_nul {c x : UInt8} (h : unescape c = some x) : c ≠ 0 ∧ x ≠ 0 := by
  refine ⟨?_, ?_⟩
  · rintro rfl
    have hnone : unescape 0 = none := by decide
    rw [hnone] at h
    cases h
  · rintro rfl
    unfold unescape at h
    by_cases h₁ : c = ch '\\' ∨ c = ch '/' ∨ c = ch '"'
    · rw [if_pos h₁] at h
      have hc : c = 0 := by simpa using h
      rw [hc] at h₁
      exact absurd h₁ (by decide)
    · rw [if_neg h₁] at h
      revert h
      repeat' split
      all_goals decide

theorem stringLoop_ends (n : Nat) (b : Buf UInt8) {s : JState} (hs : s.rest.headD 0 = 0 ∨ s.rest.headD 0 = ch '"') :
    stringLoop (n + 1) b s = some (.ok b s) := by
  rw [stringLoop, JM.bind_run, peek_run rfl, JM.andThen_ok, if_pos hs, JM.pure_run]

theorem stringLoop_plain {c : UInt8} (h0 : c ≠ 0) (hq : c ≠ ch '"') (hbs : c ≠ ch '\\') (hb : b.Holds bs t) (n : Nat) :
    (b.fill.Takes (.block 1) ∧ ∃ b', b'.Holds (bs ++ [c]) true ∧ b'.fill = b.fill.add (.block 1) ∧
      ∀ s : JState, s.rest.headD 0 = c → stringLoop (n + 1) b s = stringLoop n b' s.next) ∨
    (¬ b.fill.Takes (.block 1) ∧ ∀ s : JState, s.rest.headD 0 = c → stringLoop (n + 1) b s = none) := by
  have hrun (s : JState) (hs : s.rest.headD 0 = c) : stringLoop (n + 1) b s =
      JM.andThen (putChar b c s) fun b => JM.skip 1 >>= fun _ => stringLoop n b := by
    rw [stringLoop, JM.bind_run, peek_run hs, JM.andThen_ok, if_neg (not_or.2 ⟨h0, hq⟩), if_pos hbs]
    rfl
  rcases putChar_cases hb c with ⟨htakes, b', hb', hfill, hput⟩ | ⟨hno, hput⟩
  · refine .inl ⟨htakes, b', hb', hfill, fun s hs => ?_⟩
    rw [hrun s hs, hput, JM.andThen_ok]
    rfl
  · refine .inr ⟨hno, fun s hs => ?_⟩
    rw [hrun s hs, hput, JM.andThen_none]

/-- The loop behind a backslash. -/
def stringEscape (n : Nat) (b : Buf UInt8) : JM (Buf UInt8) := do
  let c ← JM.peek
  if c = ch 'u' then
    JM.skip 1
    let b ← utf16ToUtf8 b
    stringLoop n b
  else
    match unescape c with
    | some x =>
      let b ← putChar b x
      JM.skip 1
      stringLoop n b
    | none => JM.throw [txt "invalid escape sequence within string \\", [c]]

theorem stringLoop_backslash (n : Nat) (b : Buf UInt8) {s : JState} (hs : s.rest.headD 0 = ch '\\') :
    stringLoop (n + 1) b s = stringEscape n b s.next := by
  rw [stringLoop, JM.bind_run, peek_run hs, JM.andThen_ok, if_neg (by decide), if_neg (by decide)]
  rfl

theorem stringEscape_letter {c x : UInt8} (hx : unescape c = some x) (hb : b.Holds bs t) (n : Nat) :
    (b.fill.Takes (.block 1) ∧ ∃ b', b'.Holds (bs ++ [x]) true ∧ b'.fill = b.fill.add (.block 1) ∧
      ∀ s : JState, s.rest.headD 0 = c → stringEscape n b s = stringLoop n b' s.next) ∨
    (¬ b.fill.Takes (.block 1) ∧ ∀ s : JState, s.rest.headD 0 = c → stringEscape n b s = none) := by
  have hrun (s : JState) (hs : s.rest.headD 0 = c) : stringEscape n b s =
      JM.andThen (putChar b x s) fun b => JM.skip 1 >>= fun _ => stringLoop n b := by
    unfold stringEscape
    rw [JM.bind_run, peek_run hs, JM.andThen_ok, if_neg (unescape_ne_u hx)]
    simp only [hx]
    rfl
  rcases putChar_cases hb x with ⟨htakes, b', hb', hfill, hput⟩ | ⟨hno, hput⟩
  · refine .inl ⟨htakes, b', hb', hfill, fun s hs => ?_⟩
    rw [hrun s hs, hput, JM.andThen_ok]
    rfl
  · refine .inr ⟨hno, fun s hs => ?_⟩
    rw [hrun s hs, hput, JM.andThen_none]

theorem stringEscape_bad {c : UInt8} (hu : c ≠ ch 'u') (hx : unescape c = none) (n : Nat) (b : Buf UInt8) {s : JState}
    (hs : s.rest.headD 0 = c) : ∃ f s', stringEscape n b s = some (.fail f s') := by
  unfold stringEscape
  rw [JM.bind_run, peek_run hs, JM.andThen_ok, if_neg hu]
  simp only [hx]
  exact ⟨_, _, rfl⟩

theorem stringEscape_u (n : Nat) (b : Buf UInt8) {s : JState} (hs : s.rest.headD 0 = ch 'u') :
    stringEscape n b s = JM.andThen (utf16ToUtf8 b s.next) (stringLoop n) := by
  unfold stringEscape
  rw [JM.bind_run, peek_run hs, JM.andThen_ok, if_pos rfl]
  rfl

theorem JState.At.tail {c : UInt8} {ext : List UInt8} {s : JState} (hs : s.At (c :: i) ext) : s.next.At i ext := by
  refine ⟨?_, ?_, hs.ctx_in.nonneg, hs.ctx_in.le_length⟩
  · show s.rest.drop 1 = i ++ ext
    rw [hs.rest_eq]
    rfl
  · show s.left - 1 = i.length
    rw [hs.left_eq, List.length_cons]
    omega

theorem JState.At.head {c : UInt8} {ext : List UInt8} {s : JState} (hs : s.At (c :: i) ext) :
    s.rest.headD 0 = c := by
  rw [hs.rest_eq]
  rfl

/-- The loop reads characters whose puts fit. -/
theorem stringLoop_chars (h : Chars i bs t t' r) : ∀ {bs₀ : List UInt8} {b : Buf UInt8} {n : Nat} {ext : List UInt8}
    {s : JState}, b.Holds bs₀ t → b.fill.Fits (bodyPuts i) → s.At i ext → i.length < n → ∃ b' n' s',
      b'.Holds (bs₀ ++ bs) t' ∧ b'.fill.Fits (bodyPuts r) ∧ s'.At r ext ∧ n + r.length ≤ i.length + n' ∧
        stringLoop n b s = stringLoop n' b' s' := by
  induction h with
  | nil r t =>
    intro bs₀ b n ext s hb hfit hs hn
    exact ⟨b, n, s, by rwa [List.append_nil], hfit, hs, by omega, rfl⟩
  | @plain c i bs r t t' h0 hq hbs h ih =>
    intro bs₀ b n ext s hb hfit hs hn
    obtain ⟨n, rfl⟩ : ∃ n', n = n' + 1 := ⟨n - 1, by omega⟩
    rw [bodyPuts_plain h0 hq hbs] at hfit
    rcases stringLoop_plain h0 hq hbs hb n with ⟨-, b₁, hb₁, hfill, hrun⟩ | ⟨hno, -⟩
    · rw [List.length_cons] at hn
      obtain ⟨b', n', s', hb', hfit', hs', hn', hrun'⟩ := ih hb₁ (hfill ▸ hfit.2) hs.tail (Nat.lt_of_succ_lt_succ hn)
      rw [List.append_assoc] at hb'
      refine ⟨b', n', s', hb', hfit', hs', ?_, (hrun s hs.head).trans hrun'⟩
      rw [List.length_cons]
      omega
    · exact absurd hfit.1 hno
  | @escape c x i bs r t t' hx h ih =>
    intro bs₀ b n ext s hb hfit hs hn
    obtain ⟨n, rfl⟩ : ∃ n', n = n' + 1 := ⟨n - 1, by omega⟩
    rw [bodyPuts_backslash (unescape_ne_u hx), hx] at hfit
    rcases stringEscape_letter hx hb n with ⟨-, b₁, hb₁, hfill, hrun⟩ | ⟨hno, -⟩
    · simp only [List.length_cons] at hn ⊢
      obtain ⟨b', n', s', hb', hfit', hs', hn', hrun'⟩ := ih hb₁ (hfill ▸ hfit.2) hs.tail.tail (n := n) (by omega)
      rw [List.append_assoc] at hb'
      refine ⟨b', n', s', hb', hfit', hs', by omega, ?_⟩
      rw [stringLoop_backslash n b hs.head, hrun _ hs.tail.head, hrun']
    · exact absurd hfit.1 hno
  | @unicode i j bytes bs r t t' hu h ih =>
    intro bs₀ b n ext s hb hfit hs hn
    obtain ⟨n, rfl⟩ : ∃ n', n = n' + 1 := ⟨n - 1, by omega⟩
    rw [bodyPuts_unicode hu] at hfit
    obtain ⟨b₁, hb₁, hfill, hread⟩ := utf16ToUtf8_reads hb hu hfit.1
    obtain ⟨s₁, hrun₁, hs₁⟩ := hread ext _ hs.tail.tail
    have hlen := (unicodeEscape_suffix hu).length_le
    simp only [List.length_cons] at hn ⊢
    obtain ⟨b', n', s', hb', hfit', hs', hn', hrun'⟩ := ih hb₁ (hfill ▸ hfit.2) hs₁ (n := n) (by omega)
    rw [List.append_assoc] at hb'
    refine ⟨b', n', s', hb', hfit', hs', by omega, ?_⟩
    rw [stringLoop_backslash n b hs.head, stringEscape_u n b hs.tail.head, hrun₁, JM.andThen_ok, hrun']

/-- Where the characters end: at the closing quote, at a NUL or a bad escape, or at the end of the text. -/
inductive Stop : List UInt8 → Prop
  | quote (r : List UInt8) : Stop (ch '"' :: r)
  | nul (r : List UInt8) : Stop (0 :: r)
  | escape {c : UInt8} (r : List UInt8) (hu : c ≠ ch 'u') (hc : unescape c = none) : Stop (ch '\\' :: c :: r)
  | unicode {i : List UInt8} (hu : unicodeEscape i = none) : Stop (ch '\\' :: ch 'u' :: i)
  | over : Stop []
  | backslash : Stop [ch '\\']

/-- Every text is read up to a stop. -/
theorem chars_stop (i : List UInt8) (t : Bool) : ∃ bs t' r, Chars i bs t t' r ∧ Stop r := by
  induction hn : i.length using Nat.strong_induction_on generalizing i t with
  | _ n ih =>
    subst hn
    match i with
    | [] => exact ⟨[], t, [], .nil [] t, .over⟩
    | c :: i =>
      by_cases h0 : c = 0
      · exact ⟨[], t, c :: i, .nil _ t, h0 ▸ .nul i⟩
      by_cases hq : c = ch '"'
      · exact ⟨[], t, c :: i, .nil _ t, hq ▸ .quote i⟩
      by_cases hb : c ≠ ch '\\'
      · obtain ⟨bs, t', r, h, hr⟩ := ih i.length (by simp) i true rfl
        exact ⟨c :: bs, t', r, .plain h0 hq hb h, hr⟩
      rw [ne_eq, not_not] at hb
      subst hb
      match i with
      | [] => exact ⟨[], t, _, .nil _ t, .backslash⟩
      | c :: i =>
        by_cases hu : c = ch 'u'
        · subst hu
          cases he : unicodeEscape i with
          | none => exact ⟨[], t, _, .nil _ t, .unicode he⟩
          | some p =>
            obtain ⟨bytes, j⟩ := p
            have hlen := (unicodeEscape_suffix he).length_le
            obtain ⟨bs, t', r, h, hr⟩ := ih j.length (by simp; omega) j false rfl
            exact ⟨bytes ++ bs, t', r, .unicode he h, hr⟩
        · cases hx : unescape c with
          | none => exact ⟨[], t, _, .nil _ t, .escape i hu hx⟩
          | some x =>
            obtain ⟨bs, t', r, h, hr⟩ := ih i.length (by simp only [List.length_cons]; omega) i true rfl
            exact ⟨x :: bs, t', r, .escape hx h, hr⟩

/-- At a stop only an escape that stands for no character comes to a put. -/
theorem Stop.puts (hr : Stop r) : bodyPuts r = [] ∨ ∃ i, r = ch '\\' :: ch 'u' :: i ∧ bodyPuts r = unitPuts i := by
  match hr with
  | .over => exact .inl (by rw [bodyPuts])
  | .quote r | .nul r | .backslash =>
    refine .inl ?_
    rw [bodyPuts.eq_def]
    simp
  | .escape r hu hc =>
    refine .inl ?_
    rw [bodyPuts_backslash hu, hc]
  | .unicode (i := i) hu =>
    refine .inr ⟨i, rfl, ?_⟩
    rw [bodyPuts_unit, hu]

/-- The loop has no result where the puts do not fit. -/
theorem stringLoop_lost (h : Chars i bs t t' r) (hr : Stop r) : ∀ {bs₀ : List UInt8} {b : Buf UInt8} {n : Nat}
    {ext : List UInt8} {s : JState}, b.Holds bs₀ t → ¬ b.fill.Fits (bodyPuts i) → s.At i ext → i.length < n →
      stringLoop n b s = none := by
  induction h with
  | nil r t =>
    intro bs₀ b n ext s hb hfit hs hn
    obtain ⟨n, rfl⟩ : ∃ n', n = n' + 1 := ⟨n - 1, by omega⟩
    rcases hr.puts with hnil | ⟨i, rfl, hunit⟩
    · rw [hnil] at hfit
      exact absurd trivial hfit
    · rw [hunit] at hfit
      rw [stringLoop_backslash n b hs.head, stringEscape_u n b hs.tail.head,
        utf16ToUtf8_lost hb hfit ext _ hs.tail.tail, JM.andThen_none]
  | @plain c i bs r t t' h0 hq hbs h ih =>
    intro bs₀ b n ext s hb hfit hs hn
    obtain ⟨n, rfl⟩ : ∃ n', n = n' + 1 := ⟨n - 1, by omega⟩
    rw [bodyPuts_plain h0 hq hbs] at hfit
    rcases stringLoop_plain h0 hq hbs hb n with ⟨htakes, b₁, hb₁, hfill, hrun⟩ | ⟨-, hrun⟩
    · rw [hrun s hs.head]
      rw [List.length_cons] at hn
      exact ih hr hb₁ (fun hfit' => hfit ⟨htakes, hfill ▸ hfit'⟩) hs.tail (Nat.lt_of_succ_lt_succ hn)
    · exact hrun s hs.head
  | @escape c x i bs r t t' hx h ih =>
    intro bs₀ b n ext s hb hfit hs hn
    obtain ⟨n, rfl⟩ : ∃ n', n = n' + 1 := ⟨n - 1, by omega⟩
    rw [bodyPuts_backslash (unescape_ne_u hx), hx] at hfit
    rw [stringLoop_backslash n b hs.head]
    rcases stringEscape_letter hx hb n with ⟨htakes, b₁, hb₁, hfill, hrun⟩ | ⟨-, hrun⟩
    · rw [hrun _ hs.tail.head]
      simp only [List.length_cons] at hn
      exact ih hr hb₁ (fun hfit' => hfit ⟨htakes, hfill ▸ hfit'⟩) hs.tail.tail (by omega)
    · exact hrun _ hs.tail.head
  | @unicode i j bytes bs r t t' hu h ih =>
    intro bs₀ b n ext s hb hfit hs hn
    obtain ⟨n, rfl⟩ : ∃ n', n = n' + 1 := ⟨n - 1, by omega⟩
    rw [stringLoop_backslash n b hs.head, stringEscape_u n b hs.tail.head]
    rw [bodyPuts_unicode hu, Fill.fits_cons] at hfit
    by_cases htakes : b.fill.Takes ⟨4, bytes.length⟩
    · obtain ⟨b₁, hb₁, hfill, hread⟩ := utf16ToUtf8_reads hb hu htakes
      obtain ⟨s₁, hrun₁, hs₁⟩ := hread ext _ hs.tail.tail
      have hlen := (unicodeEscape_suffix hu).length_le
      simp only [List.length_cons] at hn
      rw [hrun₁, JM.andThen_ok]
      exact ih hr hb₁ (fun hfit' => hfit ⟨htakes, hfill ▸ hfit'⟩) hs₁ (by omega)
    · have hunit : ¬ b.fill.Fits (unitPuts i) := by
        rw [unitPuts_ok hu, Fill.fits_singleton]
        exact htakes
      rw [utf16ToUtf8_lost hb hunit ext _ hs.tail.tail, JM.andThen_none]

theorem Chars.suffix (h : Chars i bs t t' r) : r <:+ i := by
  induction h with
  | nil r t => exact List.suffix_refl r
  | plain h0 hq hb h ih => exact ih.trans (List.suffix_cons _ _)
  | escape hx h ih => exact ih.trans (List.suffix_append [_, _] _)
  | unicode hu h ih => exact ih.trans ((unicodeEscape_suffix hu).trans (List.suffix_append [_, _] _))

/-! ### The token -/

/-- The string of a buffer that holds `bs`. -/
def heldStr (mem : Stale) (bs : List UInt8) (terminated : Bool) : CStr :=
  if terminated ∨ 0 ∈ bs then .ofBytes bs else .ofBytes (bs ++ (mem bs).bytes)

theorem ofBytes_nul (bs : List UInt8) : CStr.ofBytes (bs ++ [0]) = .ofBytes bs := by
  refine CStr.ext ?_
  show (bs ++ [0]).takeWhile (· != 0) = bs.takeWhile (· != 0)
  induction bs with
  | nil => rfl
  | cons c bs ih =>
    by_cases hc : c = 0
    · simp [hc]
    · simp [hc, ih]

theorem takeWhile_written (written : List UInt8) (k : Nat) :
    ((written.map some ++ List.replicate k none).takeWhile Option.isSome).filterMap id = written := by
  induction written with
  | nil => cases k with
    | zero => rfl
    | succ k => rfl
  | cons c written ih => exact congrArg (c :: ·) ih

theorem blockStr_held (mem : Stale) (hb : b.Holds bs t) : blockStr mem b.data = heldStr mem bs t := by
  obtain ⟨k, hk⟩ := hb.data_eq
  unfold blockStr
  cases t with
  | true =>
    have hwritten : b.data = (bs ++ [0]).map some ++ List.replicate k none := by
      rw [hk]
      simp
    simp only [hwritten, takeWhile_written]
    rw [if_pos (List.mem_append_right bs List.mem_cons_self), ofBytes_nul]
    exact (if_pos (.inl rfl)).symm
  | false =>
    have hwritten : b.data = bs.map some ++ List.replicate k none := hk
    simp only [hwritten, takeWhile_written, heldStr, Bool.false_eq_true, false_or]

/-- How a caller goes on behind the loop of `ipcl_json_parse_string`. -/
def closeString (mem : Stale) (b : Buf UInt8) : JM CStr := do
  let data ← closeData b
  return blockStr mem data

theorem closeData_ok (hb : b.Holds bs t) (hok : Utf8Ok bs) {s : JState} (hs : s.rest.headD 0 = ch '"') :
    closeData b s = some (.ok b.data s.next) := by
  unfold Utf8Ok at hok
  unfold closeData
  rw [JM.bind_run, peek_run hs, JM.andThen_ok, if_neg (by simp)]
  simp only [hb.text, hok]
  rfl

theorem closeString_ok (mem : Stale) (hb : b.Holds bs t) (hok : Utf8Ok bs) {s : JState}
    (hs : s.rest.headD 0 = ch '"') : closeString mem b s =
      some (.ok (heldStr mem bs t) s.next) := by
  unfold closeString
  rw [JM.bind_run, closeData_ok hb hok hs, JM.andThen_ok, blockStr_held mem hb]
  rfl

theorem closeString_fails (mem : Stale) (hb : b.Holds bs t) {s : JState}
    (hno : s.rest.headD 0 = ch '"' → ¬ Utf8Ok bs) : ∃ f s', closeString mem b s = some (.fail f s') := by
  have hfail : ∃ f s', closeData b s = some (.fail f s') := by
    unfold closeData
    rw [JM.bind_run, peek_run rfl, JM.andThen_ok]
    by_cases hs : s.rest.headD 0 = ch '"'
    · have hbad := hno hs
      unfold Utf8Ok at hbad
      obtain ⟨⟨line, msg⟩, hscan⟩ := Option.ne_none_iff_exists'.1 hbad
      rw [if_neg (by simpa using hs)]
      simp only [hb.text, hscan]
      exact ⟨_, _, rfl⟩
    · rw [if_pos hs]
      exact ⟨_, _, rfl⟩
  obtain ⟨f, s', hfail⟩ := hfail
  refine ⟨f, s', ?_⟩
  unfold closeString
  rw [JM.bind_run, hfail, JM.andThen_fail]

/-- The parser opens the token, runs the loop, and closes the token. -/
theorem parseStringData_open {ext : List UInt8} {s : JState} (hs : s.At (ch '"' :: i) ext) :
    ∃ s₁, s₁.At i ext ∧ ipclJsonParseStringData s =
      JM.andThen (stringLoop ((i ++ ext).length + 1) (bufInit 32 .text) s₁) closeData := by
  obtain ⟨s₂, h₂, hs₂⟩ := Reads.mark _ ext s hs
  obtain ⟨s₁, h₁, hs₁⟩ := Reads.skip_one _ _ ext s₂ hs₂
  refine ⟨s₁, hs₁, ?_⟩
  unfold ipclJsonParseStringData
  rw [JM.bind_run, peek_run hs.head, JM.andThen_ok, if_neg (by simp), JM.bind_run, h₂, JM.andThen_ok, JM.bind_run, h₁,
    JM.andThen_ok, ← hs₁.rest_eq]
  rfl

theorem parseString_open (mem : Stale) {ext : List UInt8} {s : JState} (hs : s.At (ch '"' :: i) ext) :
    ∃ s₁, s₁.At i ext ∧ ipclJsonParseString mem s =
      JM.andThen (stringLoop ((i ++ ext).length + 1) (bufInit 32 .text) s₁) (closeString mem) := by
  obtain ⟨s₁, hs₁, hrun⟩ := parseStringData_open hs
  refine ⟨s₁, hs₁, ?_⟩
  unfold ipclJsonParseString
  rw [JM.bind_run, hrun]
  cases stringLoop ((i ++ ext).length + 1) (bufInit 32 .text) s₁ with
  | none => rfl
  | some res =>
    cases res with
    | ok b s' => rfl
    | fail f s' => rfl

/-! ### The context of an error -/

theorem KeepsCtx.hex2num : KeepsCtx hex2num := by
  intro s res h
  unfold Pcl.hex2num at h
  simp only at h
  split at h
  · cases h
    exact ⟨rfl, rfl⟩
  · split at h
    · cases h
      exact ⟨rfl, rfl⟩
    · cases h
      exact ⟨rfl, rfl⟩

theorem KeepsCtx.putCode (b : Buf UInt8) (code : UInt32) : KeepsCtx (putCode b code) := by
  unfold Pcl.putCode
  refine ite ?_ undef
  dsimp only
  split
  · exact fault _
  · split
    · exact undef
    · exact ite (pure _) undef

theorem KeepsCtx.utf16ToUtf8 (b : Buf UInt8) : KeepsCtx (utf16ToUtf8 b) := by
  have hsecond (first : UInt32) (rest : List UInt8) : KeepsCtx (secondUnit b first rest) :=
    get fun s' => ite (throw _) (ite (throw _) (bind (skip 2) fun _ => bind hex2num fun second => ite (throw _) (putCode b _)))
  exact get fun s => ite (throw _) (bind hex2num fun first => ite (hsecond first s.rest) (putCode b first))

theorem KeepsCtx.putChar (b : Buf UInt8) (c : UInt8) : KeepsCtx (putChar b c) := lift _

theorem KeepsCtx.stringLoop (n : Nat) : ∀ b, KeepsCtx (stringLoop n b) := by
  induction n with
  | zero => exact fun b => undef
  | succ n ih =>
    intro b
    refine bind peek fun c => ite (pure _) (ite ?_ ?_)
    · exact bind (putChar b c) fun b => bind (skip 1) fun _ => ih b
    · refine bind (skip 1) fun _ => bind peek fun c => ite ?_ ?_
      · exact bind (skip 1) fun _ => bind (utf16ToUtf8 b) ih
      · split
        · exact bind (putChar b _) fun b => bind (skip 1) fun _ => ih b
        · exact throw _

theorem KeepsCtx.closeString (mem : Stale) (b : Buf UInt8) : KeepsCtx (closeString mem b) := by
  refine bind (bind peek fun c => ite (throw _) (bind (skip 1) fun _ => ?_)) fun data => pure _
  split
  · exact undef
  · split
    · exact fault _
    · exact pure _

/-- The context of a string is its opening quote. -/
theorem parseString_ctx (mem : Stale) {ext : List UInt8} {s : JState} (hs : s.At (ch '"' :: i) ext) {res : PRes CStr}
    (h : ipclJsonParseString mem s = some res) : res.state.CtxIn := by
  obtain ⟨s₁, hs₁, hrun⟩ := parseString_open mem hs
  rw [hrun] at h
  exact (KeepsCtx.bind (.stringLoop _ _) (.closeString mem)).ctx_in h hs₁.ctx_in

/-- The puts of the text behind an opening quote fit. -/
def BodyFits (i : List UInt8) : Prop := Fill.Fits ⟨0, 32⟩ (bodyPuts i)

/-- The buffer of a string before its first character. -/
theorem stringBuf_holds : (bufInit 32 .text : Buf UInt8).Holds [] true := .init (by decide) .text

/-- A token whose puts do not fit has no result. -/
theorem parseStringData_lost (hfit : ¬ BodyFits i) : Lost ipclJsonParseStringData (ch '"' :: i) := by
  intro ext s hs
  obtain ⟨s₁, hs₁, hrun⟩ := parseStringData_open hs
  obtain ⟨bs, t', r, h, hr⟩ := chars_stop i true
  have hlost := stringLoop_lost h hr stringBuf_holds hfit hs₁ (n := (i ++ ext).length + 1)
    (by rw [List.length_append]; omega)
  rw [hrun, hlost, JM.andThen_none]

theorem parseString_lost (mem : Stale) (hfit : ¬ BodyFits i) : Lost (ipclJsonParseString mem) (ch '"' :: i) :=
  Lost.rule.bind_left (parseStringData_lost hfit)

/-- The loop runs over the characters and stands at their stop. -/
theorem parseString_chars (mem : Stale) (h : Chars i bs true t r) (hfit : BodyFits i) {ext : List UInt8} {s : JState}
    (hs : s.At (ch '"' :: i) ext) : ∃ b n s', b.Holds bs t ∧ b.fill.Fits (bodyPuts r) ∧ s'.At r ext ∧
      r.length + ext.length ≤ n ∧ ipclJsonParseString mem s = JM.andThen (stringLoop (n + 1) b s') (closeString mem) := by
  obtain ⟨s₁, hs₁, hrun⟩ := parseString_open mem hs
  obtain ⟨b', n', s', hb', hfit', hs', hn', hloop⟩ := stringLoop_chars h stringBuf_holds hfit hs₁
    (n := (i ++ ext).length + 1) (by rw [List.length_append]; omega)
  rw [List.nil_append] at hb'
  rw [List.length_append] at hn'
  obtain ⟨n', rfl⟩ : ∃ m, n' = m + 1 := ⟨n' - 1, by omega⟩
  exact ⟨b', n', s', hb', hfit', hs', by omega, by rw [hrun, hloop]⟩

theorem parseString_reads (mem : Stale) (h : Chars i bs true t (ch '"' :: r)) (hfit : BodyFits i) (hok : Utf8Ok bs) :
    Reads (ipclJsonParseString mem) (ch '"' :: i) (heldStr mem bs t) r := by
  intro ext s hs
  obtain ⟨b', n', s', hb', -, hs', -, hrun⟩ := parseString_chars mem h hfit hs
  refine ⟨_, ?_, hs'.tail⟩
  rw [hrun, stringLoop_ends n' b' (.inr hs'.head), JM.andThen_ok, closeString_ok mem hb' hok hs'.head]

/-- What the loop does at a stop inside the text. -/
theorem stringLoop_stop {n : Nat} {ext : List UInt8} {s : JState} (hb : b.Holds bs t) (hr : Stop r)
    (hfit : b.fill.Fits (bodyPuts r)) (hs : s.At r ext) (hover : r ≠ [] ∧ r ≠ [ch '\\']) :
    stringLoop (n + 1) b s = some (.ok b s) ∨ ∃ f s', stringLoop (n + 1) b s = some (.fail f s') := by
  match hr with
  | .quote r => exact .inl (stringLoop_ends n b (.inr hs.head))
  | .nul r => exact .inl (stringLoop_ends n b (.inl hs.head))
  | .escape r hu hc =>
    rw [stringLoop_backslash n b hs.head]
    exact .inr (stringEscape_bad hu hc n b hs.tail.head)
  | .unicode hu =>
    rw [bodyPuts_unit, hu] at hfit
    obtain ⟨f, s', hf, -⟩ := utf16ToUtf8_fails hb hu hfit ext _ hs.tail.tail trivial
    rw [stringLoop_backslash n b hs.head, stringEscape_u n b hs.tail.head, hf]
    exact .inr ⟨f, s', rfl⟩
  | .over => exact absurd rfl hover.1
  | .backslash => exact absurd rfl hover.2

/-- Characters that stop before a closing quote are no token, and neither is an ill-formed text. -/
theorem parseString_fails (mem : Stale) (h : Chars i bs true t r) (hfit : BodyFits i) (hr : Stop r)
    (hover : r ≠ [] ∧ r ≠ [ch '\\']) (hno : r.headD 0 = ch '"' → ¬ Utf8Ok bs) :
    Fails (ipclJsonParseString mem) (ch '"' :: i) := by
  intro ext s hs _
  obtain ⟨b', n', s', hb', hfit', hs', -, hrun⟩ := parseString_chars mem h hfit hs
  have hfail : ∃ f s'', ipclJsonParseString mem s = some (.fail f s'') := by
    rw [hrun]
    rcases stringLoop_stop (n := n') hb' hr hfit' hs' hover with hok | ⟨f, s'', hf⟩
    · rw [hok, JM.andThen_ok]
      refine closeString_fails mem hb' fun hq => hno ?_
      obtain ⟨c, r, rfl⟩ := List.exists_cons_of_ne_nil hover.1
      rwa [hs'.head] at hq
    · rw [hf]
      exact ⟨f, s'', rfl⟩
  obtain ⟨f, s'', hf⟩ := hfail
  exact ⟨f, s'', hf, parseString_ctx mem hs hf⟩

/-! ### Running over the end -/

/-- From the end on, the loop has no result, fails, or goes on to where it ends. -/
theorem stringLoop_over (n : Nat) : ∀ {bs : List UInt8} {b : Buf UInt8} {t : Bool} {s : JState}, b.Holds bs t →
    s.left ≤ 0 → s.rest.length < n → stringLoop n b s = none ∨ (∃ f s', stringLoop n b s = some (.fail f s')) ∨
      ∃ b' bs' t' s', stringLoop n b s = some (.ok b' s') ∧ b'.Holds bs' t' ∧ s'.left ≤ s.left := by
  induction n with
  | zero =>
    intro bs b t s hb hs hn
    omega
  | succ n ih =>
    intro bs b t s hb hs hn
    by_cases hend : s.rest.headD 0 = 0 ∨ s.rest.headD 0 = ch '"'
    · exact .inr (.inr ⟨b, bs, t, s, stringLoop_ends n b hend, hb, Int.le_refl _⟩)
    obtain ⟨h0, hq⟩ := not_or.1 hend
    obtain ⟨c, rest, hrest⟩ := List.exists_cons_of_ne_nil (ne_nil_of_headD h0)
    have hnext : s.next.rest = rest := by
      show s.rest.drop 1 = rest
      rw [hrest]
      rfl
    have hleft : s.next.left = s.left - 1 := rfl
    rw [hrest, List.length_cons] at hn
    by_cases hbs : s.rest.headD 0 = ch '\\'
    · rw [stringLoop_backslash n b hbs]
      by_cases hu : s.next.rest.headD 0 = ch 'u'
      · -- too close to the end for digits
        obtain ⟨f, s', hf⟩ := utf16ToUtf8_end b (s := s.next.next) (by show s.left - 1 - 1 < 4; omega)
        rw [stringEscape_u n b hu, hf]
        exact .inr (.inl ⟨f, s', rfl⟩)
      · cases hx : unescape (s.next.rest.headD 0) with
        | none => exact .inr (.inl (stringEscape_bad hu hx n b rfl))
        | some x =>
          have hleft' : s.next.next.left = s.left - 1 - 1 := rfl
          have hlen : s.next.next.rest.length ≤ rest.length := by
            show (s.next.rest.drop 1).length ≤ rest.length
            rw [hnext, List.length_drop]
            omega
          rcases stringEscape_letter hx hb n with ⟨-, b₁, hb₁, -, hrun⟩ | ⟨-, hrun⟩
          · rw [hrun _ rfl]
            rcases ih hb₁ (s := s.next.next) (by omega) (by omega) with hnone | hf | ⟨b', bs', t', s', hok, hb', hle⟩
            · exact .inl hnone
            · exact .inr (.inl hf)
            · exact .inr (.inr ⟨b', bs', t', s', hok, hb', by omega⟩)
          · exact .inl (hrun _ rfl)
    · rcases stringLoop_plain h0 hq hbs hb n with ⟨-, b₁, hb₁, -, hrun⟩ | ⟨-, hrun⟩
      · rw [hrun s rfl]
        rcases ih hb₁ (s := s.next) (by omega) (by rw [hnext]; omega) with hnone | hf | ⟨b', bs', t', s', hok, hb', hle⟩
        · exact .inl hnone
        · exact .inr (.inl hf)
        · exact .inr (.inr ⟨b', bs', t', s', hok, hb', by omega⟩)
      · exact .inl (hrun s rfl)

/-- Behind the end the loop and the closing have no result or fail, or the token is closed there. -/
theorem close_over (mem : Stale) {n : Nat} {s : JState} (hb : b.Holds bs t) (hs : s.left ≤ 0)
    (hn : s.rest.length < n) : JM.andThen (stringLoop n b s) (closeString mem) = none ∨
    (∃ f s', JM.andThen (stringLoop n b s) (closeString mem) = some (.fail f s')) ∨
      s.rest ≠ [] ∧ ∃ k s', JM.andThen (stringLoop n b s) (closeString mem) = some (.ok k s') ∧ s'.left < 0 := by
  rcases stringLoop_over n hb hs hn with hnone | ⟨f, s', hf⟩ | ⟨b', bs', t', s', hrun, hb', hle⟩
  · exact .inl (by rw [hnone, JM.andThen_none])
  · exact .inr (.inl ⟨f, s', by rw [hf, JM.andThen_fail]⟩)
  rw [hrun, JM.andThen_ok]
  by_cases hclose : s'.rest.headD 0 = ch '"' ∧ Utf8Ok bs'
  · refine .inr (.inr ⟨?_, _, s'.next, closeString_ok mem hb' hclose.2 hclose.1, ?_⟩)
    · intro hnil
      obtain ⟨n, rfl⟩ : ∃ m, n = m + 1 := ⟨n - 1, by omega⟩
      rw [stringLoop_ends n b (.inl (by rw [hnil]; rfl))] at hrun
      cases hrun
      rw [hnil] at hclose
      exact absurd hclose.1 (by decide)
    · show s'.left - 1 < 0
      omega
  · exact .inr (.inl (closeString_fails mem hb' fun hq hok => hclose ⟨hq, hok⟩))

/-- The text behind an opening quote breaks off in front of a character, or inside a short escape. -/
def OpenBody (i : List UInt8) : Prop := ∃ bs t r, Chars i bs true t r ∧ (r = [] ∨ r = [ch '\\'])

/-- A token that breaks off has no result, fails or is closed behind the end. -/
theorem parseString_over (mem : Stale) (ho : OpenBody i) (hfit : BodyFits i) {ext : List UInt8} {s : JState}
    (hs : s.At (ch '"' :: i) ext) : ipclJsonParseString mem s = none ∨
      (∃ f s', ipclJsonParseString mem s = some (.fail f s')) ∨
      ext ≠ [] ∧ ∃ k s', ipclJsonParseString mem s = some (.ok k s') ∧ s'.left < 0 := by
  obtain ⟨bs, t, r, h, hr⟩ := ho
  obtain ⟨b', n, s', hb', -, hs', hn, hrun⟩ := parseString_chars mem h hfit hs
  rw [hrun]
  rcases hr with rfl | rfl
  · have hrest : s'.rest = ext := hs'.rest_eq
    have hleft : s'.left ≤ 0 := Int.le_of_eq hs'.left_eq
    rw [List.length_nil] at hn
    have hclose := close_over mem hb' hleft (n := n + 1) (by rw [hrest]; omega)
    rwa [hrest] at hclose
  · rw [List.length_singleton] at hn
    have hrest : s'.next.rest = ext := hs'.tail.rest_eq
    have hleft : s'.next.left = 0 := hs'.tail.left_eq
    rw [stringLoop_backslash n b' hs'.head]
    by_cases hu : s'.next.rest.headD 0 = ch 'u'
    · obtain ⟨f, s₂, hf⟩ := utf16ToUtf8_end b' (s := s'.next.next) (by show s'.next.left - 1 < 4; omega)
      rw [stringEscape_u n b' hu, hf]
      exact .inr (.inl ⟨f, s₂, rfl⟩)
    cases hx : unescape (s'.next.rest.headD 0) with
    | none =>
      obtain ⟨f, s₂, hf⟩ := stringEscape_bad hu hx n b' rfl
      rw [hf]
      exact .inr (.inl ⟨f, s₂, rfl⟩)
    | some x =>
      have hc0 := (unescape_ne_nul hx).1
      rw [hrest] at hc0
      rcases stringEscape_letter hx hb' n with ⟨-, b₁, hb₁, -, hletter⟩ | ⟨-, hletter⟩
      · rw [hletter _ rfl]
        have hnext : s'.next.next.rest.length ≤ ext.length := by
          show (s'.next.rest.drop 1).length ≤ ext.length
          rw [hrest, List.length_drop]
          omega
        rcases close_over mem hb₁ (n := n) (s := s'.next.next) (by show s'.next.left - 1 ≤ 0; omega) (by omega) with
          hnone | hf | ⟨-, hk⟩
        · exact .inl hnone
        · exact .inr (.inl hf)
        · exact .inr (.inr ⟨ne_nil_of_headD hc0, hk⟩)
      · rw [hletter _ rfl]
        exact .inl rfl

theorem total_replicate (n : Nat) : Put.total (List.replicate n (.block 1)) = n := by
  unfold Put.total
  rw [List.map_replicate, List.sum_replicate]
  exact Nat.mul_one n

/-- No buffer takes 2 ^ 31 characters. -/
theorem replicate_unfit (f : Fill) {n : Nat} (hn : 2 ^ 31 ≤ n) : ¬ f.Fits (List.replicate n (.block 1)) := by
  intro hfit
  have htotal := total_replicate n
  rcases hfit.total_lt with hnil | hlt
  · rw [hnil] at htotal
    have h0 : 0 = n := htotal
    omega
  · omega

/-- The loop has no result on letters that do not fit, wherever the end is. -/
theorem stringLoop_letters {k : Nat} : ∀ {bs : List UInt8} {b : Buf UInt8} {t : Bool} {s : JState} {n : Nat}, b.Holds bs t →
    s.rest = List.replicate k (ch 'a') → k < n → ¬ b.fill.Fits (List.replicate k (.block 1)) → stringLoop n b s = none := by
  induction k with
  | zero => exact fun _ _ _ hfit => absurd trivial hfit
  | succ k ih =>
    intro bs b t s n hb hs hn hfit
    obtain ⟨n, rfl⟩ : ∃ n', n = n' + 1 := ⟨n - 1, by omega⟩
    have hhead : s.rest.headD 0 = ch 'a' := by
      rw [hs]
      rfl
    have hnext : s.next.rest = List.replicate k (ch 'a') := by
      show s.rest.drop 1 = _
      rw [hs]
      rfl
    rw [List.replicate_succ, Fill.fits_cons] at hfit
    rcases stringLoop_plain (c := ch 'a') (by decide) (by decide) (by decide) hb n with ⟨htakes, b₁, hb₁, hfill, hrun⟩ | ⟨-, hrun⟩
    · rw [hrun s hhead]
      exact ih hb₁ hnext (by omega) fun hfit' => hfit ⟨htakes, hfill ▸ hfit'⟩
    · exact hrun s hhead

/-- A token that breaks off has no result where enough letters stand behind the end, or behind an `n` there. -/
theorem OpenBody.letters (ho : OpenBody i) (hfit : BodyFits i) {k : Nat} (hk : 2 ^ 31 ≤ k) :
    LostBefore (List.replicate k (ch 'a')) ipclJsonParseStringData (ch '"' :: i) ∨
      LostBefore (ch 'n' :: List.replicate k (ch 'a')) ipclJsonParseStringData (ch '"' :: i) := by
  obtain ⟨bs, t, r, h, hr⟩ := ho
  -- up to the end the loop reads the characters of `i`
  have hend : ∀ {ext s}, JState.At s (ch '"' :: i) ext → ∃ b' n' s', b'.Holds bs t ∧ JState.At s' r ext ∧
      r.length + ext.length < n' ∧ ipclJsonParseStringData s = JM.andThen (stringLoop n' b' s') closeData := by
    intro ext s hs
    obtain ⟨s₁, hs₁, hrun⟩ := parseStringData_open hs
    obtain ⟨b', n', s', hb', -, hs', hn', hloop⟩ := stringLoop_chars h stringBuf_holds hfit hs₁
      (n := (i ++ ext).length + 1) (by rw [List.length_append]; omega)
    rw [List.length_append] at hn'
    exact ⟨b', n', s', hb', hs', by omega, by rw [hrun, hloop]⟩
  rcases hr with rfl | rfl
  · refine .inl fun s hs => ?_
    obtain ⟨b', n', s', hb', hs', hn', hrun⟩ := hend hs
    rw [List.length_nil, List.length_replicate] at hn'
    rw [hrun, stringLoop_letters hb' hs'.rest_eq (by omega) (replicate_unfit _ hk), JM.andThen_none]
  · refine .inr fun s hs => ?_
    obtain ⟨b', n', s', hb', hs', hn', hrun⟩ := hend hs
    obtain ⟨n, rfl⟩ : ∃ m, n' = m + 1 := ⟨n' - 1, by omega⟩
    have hrest : s'.next.rest = ch 'n' :: List.replicate k (ch 'a') := hs'.tail.rest_eq
    have hletter : s'.next.rest.headD 0 = ch 'n' := by
      rw [hrest]
      rfl
    rw [List.length_singleton, List.length_cons, List.length_replicate] at hn'
    rw [hrun, stringLoop_backslash n b' hs'.head]
    rcases stringEscape_letter (c := ch 'n') (x := 0x0a) (by decide) hb' n with ⟨-, b₁, hb₁, -, hnext⟩ | ⟨-, hnext⟩
    · have hrest' : s'.next.next.rest = List.replicate k (ch 'a') := by
        show s'.next.rest.drop 1 = _
        rw [hrest]
        rfl
      rw [hnext _ hletter, stringLoop_letters hb₁ hrest' (by omega) (replicate_unfit _ hk), JM.andThen_none]
    · rw [hnext _ hletter, JM.andThen_none]

/-- A token that breaks off has no result with something behind the end. -/
theorem OpenBody.lost (ho : OpenBody i) : ∃ ext, LostBefore ext ipclJsonParseStringData (ch '"' :: i) := by
  by_cases hfit : BodyFits i
  · rcases ho.letters hfit (Nat.le_refl (2 ^ 31)) with h | h
    · exact ⟨_, h⟩
    · exact ⟨_, h⟩
  · exact ⟨[], fun s hs => parseStringData_lost hfit [] s hs⟩

/-- Every text behind an opening quote is a token, no token, or breaks off, where its puts fit. -/
theorem parseString_cases (mem : Stale) (hfit : BodyFits i) :
    (∃ bs t r, Chars i bs true t (ch '"' :: r) ∧ Utf8Ok bs ∧
      Reads (ipclJsonParseString mem) (ch '"' :: i) (heldStr mem bs t) r) ∨
    Fails (ipclJsonParseString mem) (ch '"' :: i) ∨ OpenBody i := by
  obtain ⟨bs, t, r, h, hr⟩ := chars_stop i true
  by_cases hover : r = [] ∨ r = [ch '\\']
  · exact .inr (.inr ⟨bs, t, r, h, hover⟩)
  · rw [not_or] at hover
    by_cases hok : r.headD 0 = ch '"' ∧ Utf8Ok bs
    · obtain ⟨c, r, rfl⟩ := List.exists_cons_of_ne_nil hover.1
      obtain ⟨hq, hok⟩ := hok
      have hc : c = ch '"' := hq
      subst hc
      exact .inl ⟨bs, t, r, h, hok, parseString_reads mem h hfit hok⟩
    · exact .inr (.inl (parseString_fails mem h hfit hr hover fun hq hok' => hok ⟨hq, hok'⟩))

theorem parseString_else (mem : Stale) {c : UInt8} (hc : c ≠ ch '"') (i : List UInt8) :
    Fails (ipclJsonParseString mem) (c :: i) :=
  .bind_left (.bind_right (.peek_cons _ _) (.ite hc (.throw _ _)))

/-- What is read takes up the quotes at least. -/
theorem Chars.token (h : Chars i bs t t' (ch '"' :: r)) : ∃ tok, tok ≠ [] ∧ ch '"' :: i = tok ++ r := by
  obtain ⟨pre, hpre⟩ := h.suffix
  refine ⟨ch '"' :: (pre ++ [ch '"']), List.cons_ne_nil _ _, ?_⟩
  rw [← hpre]
  simp

end Pcl

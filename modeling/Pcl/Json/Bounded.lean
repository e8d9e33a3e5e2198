import Pcl.Json.Document

/-!
# What decoding sees behind `len`

Two inputs that agree on their first `len` bytes are decoded alike, unless these bytes break off inside an
empty array or inside a string: there the parser goes on behind the end. A bracket there closes the array. A string is
read up to a quote or a NUL, and 2 ^ 31 letters behind the end do not fit its buffer. Where the bytes break off behind a
bracket and a carriage return, the parser steps over a line feed behind the end, and the message of its error is taken
from there on, even where no memory is left.
-/

namespace Pcl

open Grammar

variable {R : Type} {D : Doubles R} {mem : Stale} {i j ext : List UInt8} {s : JState}

/-- Both fail, or both succeed with the same value and end. -/
def SameOutcome : Option (Except (Fault × Option CStr) (Json R × Int)) →
    Option (Except (Fault × Option CStr) (Json R × Int)) → Prop
  | some (.ok p), some (.ok q) => p = q
  | some (.error _), some (.error _) => True
  | _, _ => False

/-- Decoding of the bytes `json` does not depend on what stands behind them, nor does it end there. -/
def LengthBounded (D : Doubles R) (mem : Stale) (json : List UInt8) : Prop :=
  ∀ ext ext', SameOutcome (jsonDecode D mem (json ++ ext) json.length) (jsonDecode D mem (json ++ ext') json.length) ∧
    ∀ v n, jsonDecode D mem (json ++ ext) json.length = some (.ok (v, n)) → n ≤ json.length

/-- The text breaks off at any depth: behind the opening bracket of an array and a carriage return, or in a string, or it has
a string that does not fit its buffer. -/
def OpenText (T : Tokens R) (i : List UInt8) : Prop := ∃ w j, i = w ++ j ∧ Space w ∧ OpenValue T (Leaf BrokenString) j

/-! ### Running over the end -/

theorem parseValue_run {T : Tokens R} {w : List UInt8} (n : Nat) (hs : s.At (w ++ i) ext) (hw : Space w)
    (hi : isspace (i.headD 0) = false) (hne : i ≠ []) :
    ∃ s', s'.At i ext ∧ ipclJsonParseValue T (n + 1) s = valueBody T n (i.headD 0) s' := by
  obtain ⟨s₁, h₁, hs₁⟩ := Reads.mark (w ++ i) ext s hs
  obtain ⟨s₂, h₂, hs₂⟩ := skipws_found hs₁ hw hi hne
  obtain ⟨s₃, h₃, hs₃⟩ := Reads.mark i ext s₂ hs₂
  obtain ⟨s₄, h₄, hs₄⟩ := Reads.peek hne ext s₃ hs₃
  refine ⟨s₄, hs₄, ?_⟩
  rw [ipclJsonParseValue, JM.bind_run, h₁, JM.andThen_ok, JM.bind_run, h₂, JM.andThen_ok, JM.bind_run, h₃, JM.andThen_ok,
    JM.bind_run, h₄, JM.andThen_ok]
  rfl

/-- An array that breaks off behind its bracket is closed by a bracket behind the end. -/
theorem parseArray_closes (value : JM (Json R)) {w : List UInt8} (n : Nat) (hw : Space w)
    (hs : s.At (ch '[' :: w) [ch ']']) :
    ∃ s', ipclJsonParseArray value n s = some (.ok (.arr []) s') ∧ s'.left < 0 := by
  obtain ⟨s₁, -, -, ⟨h, -⟩ | ⟨-, hleft, hrest⟩, hrun⟩ := parseArray_run value n hw hs
  · exact absurd h.2 (by decide)
  · rw [if_pos (by rw [hrest]; rfl)] at hrun
    refine ⟨_, hrun, ?_⟩
    show s₁.left - 1 < 0
    omega

/-- A line feed behind the end of an array that breaks off behind a carriage return is stepped over. -/
theorem parseArray_strays {value : JM (Json R)} (hv : MarksEnd value) {n : Nat} {t : List UInt8} (ht : Space t)
    (hcr : t.getLast? = some (ch '\r')) :
    FailsWhen (· = [ch '\n']) (fun s => s.ctx = [] ∧ s.ctxLeft < 0) (ipclJsonParseArray value (n + 1)) (ch '[' :: t) := by
  rintro ext s hs rfl
  have hyes : CrLf t [ch '\n'] := ⟨hcr, rfl⟩
  obtain ⟨f, s', hrun, ⟨-, hleft, hctx⟩ | ⟨h, -⟩⟩ := parseArray_stop (n := n) hv ht hs (fun h => absurd hyes h)
    fun _ => by decide
  · exact ⟨f, s', hrun, hctx, by omega⟩
  · exact absurd hyes h

/-- Where the text breaks off behind a carriage return, a line feed leaves the message without memory to read. -/
theorem Grammar.OpenValue.strays (hj : OpenBracket j) (h : OpenValue (tokens D mem) (· = j) i) {w : List UInt8} {n : Nat}
    (hw : Space w) (hn : (w ++ i).length < n) :
    FailsWhen (· = [ch '\n']) (fun s => s.ctx = [] ∧ s.ctxLeft < 0) (ipclJsonParseValue (tokens D mem) n) (w ++ i) := by
  obtain ⟨t, rfl, ht, hcr⟩ := hj
  refine parseValue_stops (FailsWhen.rule _ _) (tokens_givenBut D mem) ?_ ?_ n h hw hn
  · rintro n _ rfl -
    exact parseArray_strays (.parseValue n) ht hcr
  · rintro _ rfl hq
    exact absurd hq (show ch '[' ≠ ch '"' by decide)

/-- Where the text breaks off in a string, or has one that does not fit, there is no result in front of some bytes. -/
theorem Grammar.OpenValue.lost (hj : BrokenString j) (h : OpenValue (tokens D mem) (· = j) i) {w : List UInt8} {n : Nat}
    (hw : Space w) (hn : (w ++ i).length < n) : ∃ ext, LostBefore ext (ipclJsonParseValue (tokens D mem) n) (w ++ i) := by
  obtain ⟨ext, hext⟩ := hj.lost mem
  refine ⟨ext, parseValue_stops (LostBefore.rule ext) (tokens_givenBut D mem) ?_ ?_ n h hw hn⟩
  · rintro n _ rfl hb
    obtain ⟨t, rfl, -⟩ := hj
    exact absurd hb (show ch '"' ≠ ch '[' by decide)
  · rintro _ rfl -
    exact hext

/-- Behind such a text there are bytes with which decoding has no result. -/
theorem OpenText.undefined (h : OpenText (tokens D mem) (stripBom i)) :
    ∃ ext, jsonDecode D mem (i ++ ext) i.length = none := by
  obtain ⟨w, v, hs, hw, h⟩ := h
  have hne : stripBom i ≠ [] := by
    rw [hs]
    exact List.append_ne_nil_of_right_ne_nil w h.head.1
  have hi : i ≠ [] := by
    rintro rfl
    exact hne rfl
  have hlen : (w ++ v).length < (stripBom i).length + 1 := by
    rw [hs]
    exact Nat.lt_succ_self _
  unfold jsonDecode
  obtain ⟨j, hj | hj, h⟩ := h.place
  · obtain ⟨f, s', hrun, hctx, hleft⟩ := h.strays hj hw hlen _ (.start (stripBom i) [ch '\n'])
      (hs ▸ JState.start_at _ _) rfl
    have hmsg : contextMsg s' = none := by
      unfold contextMsg
      rw [hctx, if_pos hleft]
      rfl
    refine ⟨[ch '\n'], ?_⟩
    rw [decodeWith_run _ _ hi, if_neg hne, hrun]
    show (contextMsg s').map _ = _
    rw [hmsg, Option.map_none]
  · obtain ⟨ext, hext⟩ := h.lost hj hw hlen
    have hrun := hext (.start (stripBom i) ext) (hs ▸ JState.start_at _ _)
    refine ⟨ext, ?_⟩
    rw [decodeWith_run _ _ hi, if_neg hne, hrun]

/-- Where the text is cut off, a bracket behind it is decoded. -/
theorem CutOff.decodes (h : CutOff (stripBom i)) (D : Doubles R) (mem : Stale) :
    ∃ v n, jsonDecode D mem (i ++ [ch ']']) i.length = some (.ok (v, n)) ∧ (i.length : Int) < n := by
  obtain ⟨w, t, hs, hw, ht⟩ := h
  have hne : stripBom i ≠ [] := by
    rw [hs]
    exact List.append_ne_nil_of_right_ne_nil w (List.cons_ne_nil _ _)
  have hi : i ≠ [] := by
    rintro rfl
    exact hne rfl
  have hstart : (JState.start (stripBom i) [ch ']']).At (w ++ ch '[' :: t) [ch ']'] := hs ▸ JState.start_at _ _
  obtain ⟨s', hs', hbody⟩ := parseValue_run (T := tokens D mem) (stripBom i).length hstart hw rfl (List.cons_ne_nil _ _)
  obtain ⟨s'', hok, hleft⟩ := parseArray_closes (ipclJsonParseValue (tokens D mem) _) (stripBom i).length ht hs'
  refine ⟨.arr [], i.length - s''.left, ?_, by omega⟩
  have hrun : ipclJsonParseValue (tokens D mem) ((stripBom i).length + 1) (.start (stripBom i) [ch ']']) =
      some (.ok (.arr []) s'') := hbody.trans hok
  unfold jsonDecode
  rw [decodeWith_run _ _ hi, if_neg hne, hrun]

/-- Decoding is bounded by its length exactly where the text is not cut off, and does not break off at any depth. -/
theorem jsonDecode_lengthBounded_iff (D : Doubles R) (mem : Stale) {json : List UInt8} (hne : json ≠ []) :
    LengthBounded D mem json ↔ ¬ CutOff (stripBom json) ∧ ¬ OpenText (tokens D mem) (stripBom json) := by
  constructor
  · intro hb
    refine ⟨fun hcut => ?_, fun hopen => ?_⟩
    · obtain ⟨v, n, hrun, hlt⟩ := hcut.decodes D mem
      have hle := (hb [ch ']'] []).2 v n hrun
      omega
    · obtain ⟨ext, hext⟩ := hopen.undefined
      have hsame := (hb ext []).1
      rw [hext] at hsame
      exact hsame
  · rintro ⟨hcut, hopen⟩
    have hT := tokens_givenBut D mem
    by_cases hdoc : ∃ v r, Document (tokens D mem) json v r
    · obtain ⟨v, r, h⟩ := hdoc
      have hrun (ext : List UInt8) : jsonDecode D mem (json ++ ext) json.length = some (.ok (v, json.length - r.length)) :=
        decodeWith_document hT ext h
      intro ext ext'
      refine ⟨?_, fun v' n hok => ?_⟩
      · rw [hrun ext, hrun ext']
        rfl
      · rw [hrun ext] at hok
        cases hok
        omega
    · have hno : ∀ v r, ¬ Document (tokens D mem) json v r := fun v r h => hdoc ⟨v, r, h⟩
      have herror : ∀ ext, ∃ e, jsonDecode D mem (json ++ ext) json.length = some (.error e) := by
        rcases decodeWith_cases hT hne hno with hf | ⟨hcut', -⟩ | hopen'
        · exact hf
        · exact absurd hcut' hcut
        · exact absurd hopen' hopen
      intro ext ext'
      obtain ⟨e, he⟩ := herror ext
      obtain ⟨e', he'⟩ := herror ext'
      refine ⟨?_, fun v n hok => ?_⟩
      · rw [he, he']
        trivial
      · rw [he] at hok
        cases hok

theorem jsonDecode_lengthBounded_iff_one : LengthBounded decimals (fun _ => .lit "") (txt "[1]") ↔
    ¬ CutOff (stripBom (txt "[1]")) ∧ ¬ OpenText (tokens decimals fun _ => .lit "") (stripBom (txt "[1]")) :=
  jsonDecode_lengthBounded_iff decimals (fun _ => .lit "") (show txt "[1]" ≠ [] by decide)

/-- The first byte of `[]` is decoded as an empty array that ends behind the second. -/
theorem jsonDecode_overruns : ¬ LengthBounded decimals (fun _ => .lit "") (txt "[") := by
  intro h
  have hrun : jsonDecode decimals (fun _ => .lit "") (txt "[" ++ txt "]") (txt "[").length = some (.ok (.arr [], 2)) := rfl
  have hle := (h (txt "]") []).2 _ _ hrun
  exact absurd hle (by decide)

end Pcl

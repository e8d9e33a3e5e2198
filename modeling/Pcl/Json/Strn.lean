import Pcl.Json.Object
import Pcl.Str.Search

/-!
# A string value of a given length

`pcl_json_strn` against `pcl_json_str` of the first characters. The check and the copy take a length of zero for the
length of the whole string, so an empty start of a string is the whole of it.
-/

namespace Pcl
variable {R : Type}

/-- `pcl_json_strn`; the length is at most that of the string. -/
def jsonStrn (str : Option CStr) (len : Nat) (flags : JsonFlags) : ErrM (Option (Json R)) :=
  match str with
  | none => if flags.allowNull then return some .null else setErrNull (loc "json_strn.c" "pcl_json_strn" 44) eInval
  | some str => do
    let r ← checkText flags str len
    if r < 0 then trcNull (loc "json_strn.c" "pcl_json_strn" 48)
    else if flags.emptyAsNull ∧ len = 0 then return some .null
    else return some (.str (strndup str.bytes len))

/-- The first `n` bytes of a string. -/
def CStr.first (s : CStr) (n : Nat) : CStr := .ofBytes (s.bytes.take n)

theorem CStr.first_bytes (s : CStr) (n : Nat) : (s.first n).bytes = s.bytes.take n :=
  ofBytes_of_nul_free fun h => s.nul_free (List.mem_of_mem_take h)

/-- `pcl_json_strn` gives the value of `pcl_json_str` of the first `n` bytes, or fails with it. -/
def StrnMeets (R : Type) (s : CStr) (n : Nat) (flags : JsonFlags) (e : ErrState) : Prop :=
  ∃ (v : Option (Json R)) (e₁ e₂ : ErrState),
    jsonStrn (some s) n flags e = some (v, e₁) ∧ jsonStr (some (s.first n)) flags e = some (v, e₂)

/-- A text passes the check. -/
def TextPasses (flags : JsonFlags) (text : List UInt8) (e : ErrState) : Prop :=
  flags.skipUtf8Chk = true ∨ e.frozen = true ∨ Utf8Ok text

instance (flags : JsonFlags) (text : List UInt8) (e : ErrState) : Decidable (TextPasses flags text e) :=
  inferInstanceAs (Decidable (_ ∨ _))

theorem checkText_passes (flags : JsonFlags) (s : CStr) (len : Nat) (e : ErrState) :
    ∃ r e', checkText flags s len e = some (r, e') ∧
      (r < 0 ↔ ¬ TextPasses flags (if len = 0 then s.bytes else s.bytes.take len) e) := by
  have htext : s.bytes.take (if len = 0 then s.strlen else len) = if len = 0 then s.bytes else s.bytes.take len := by
    split
    · exact List.take_length
    · rfl
  unfold checkText TextPasses
  by_cases hskip : flags.skipUtf8Chk = true
  · exact ⟨0, e, by rw [if_pos hskip]; rfl, iff_of_false (by decide) fun h => h (.inl hskip)⟩
  rw [if_neg hskip, or_iff_right hskip]
  unfold utf8Check Utf8Ok
  rw [CStr.ofBytes_bytes, ← htext]
  cases utf8Scan (s.bytes.take (if len = 0 then s.strlen else len)) with
  | none => exact ⟨0, e, rfl, iff_of_false (by decide) fun h => h (.inr rfl)⟩
  | some p =>
    refine ⟨_, _, errVset_run e _ eIlseq 0 (some p.2) (by decide), ?_⟩
    cases e.frozen <;> simp

theorem jsonStrn_run (s : CStr) (n : Nat) (flags : JsonFlags) (e : ErrState) :
    ∃ e', (jsonStrn (some s) n flags : ErrM (Option (Json R))) e =
      some (if TextPasses flags (if n = 0 then s.bytes else s.bytes.take n) e then
        some (if flags.emptyAsNull ∧ n = 0 then .null else .str (strndup s.bytes n)) else none, e') := by
  obtain ⟨r, e', hcheck, hr⟩ := checkText_passes flags s n e
  unfold jsonStrn
  dsimp only
  rw [ErrM.bind_run, hcheck, Option.bind_some]
  dsimp only
  by_cases hpass : TextPasses flags (if n = 0 then s.bytes else s.bytes.take n) e
  · rw [if_neg fun h => hr.1 h hpass, if_pos hpass]
    refine ⟨e', ?_⟩
    split <;> rfl
  · rw [if_pos (hr.2 hpass), if_neg hpass]
    exact ⟨_, trcNull_run _ _⟩

theorem jsonStr_run (s : CStr) (flags : JsonFlags) (e : ErrState) :
    ∃ e', (jsonStr (some s) flags : ErrM (Option (Json R))) e =
      some (if TextPasses flags s.bytes e then
        some (if flags.emptyAsNull ∧ s.bytes = [] then .null else .str s) else none, e') := by
  obtain ⟨r, e', hcheck, hr⟩ := checkText_passes flags s s.strlen e
  have htext : (if s.strlen = 0 then s.bytes else s.bytes.take s.strlen) = s.bytes := by
    split
    · rfl
    · exact List.take_length
  rw [htext] at hr
  unfold jsonStr
  dsimp only
  rw [ErrM.bind_run, hcheck, Option.bind_some]
  dsimp only
  by_cases hpass : TextPasses flags s.bytes e
  · rw [if_neg fun h => hr.1 h hpass, if_pos hpass]
    refine ⟨e', ?_⟩
    have hempty : s.strlen = 0 ↔ s.bytes = [] := List.length_eq_zero_iff
    simp only [hempty]
    split <;> rfl
  · rw [if_pos (hr.2 hpass), if_neg hpass]
    exact ⟨_, trcNull_run _ _⟩

/-- The two agree just when the length is not zero, or the string is empty, or an empty string is a null and the rest
of the string passes the check. -/
theorem jsonStrn_meets_iff (R : Type) (s : CStr) {n : Nat} (hn : n ≤ s.strlen) (flags : JsonFlags) (e : ErrState) :
    StrnMeets R s n flags e ↔ n ≠ 0 ∨ s.bytes = [] ∨ flags.emptyAsNull = true ∧ TextPasses flags s.bytes e := by
  obtain ⟨e₁, hrun₁⟩ := jsonStrn_run (R := R) s n flags e
  obtain ⟨e₂, hrun₂⟩ := jsonStr_run (R := R) (s.first n) flags e
  rw [s.first_bytes] at hrun₂
  have hmeets : StrnMeets R s n flags e ↔
      (if TextPasses flags (if n = 0 then s.bytes else s.bytes.take n) e then
        some (if flags.emptyAsNull ∧ n = 0 then .null else .str (strndup s.bytes n)) else none : Option (Json R)) =
      if TextPasses flags (s.bytes.take n) e then
        some (if flags.emptyAsNull ∧ s.bytes.take n = [] then .null else .str (s.first n)) else none := by
    unfold StrnMeets
    rw [hrun₁, hrun₂]
    constructor
    · rintro ⟨v, e₁', e₂', h₁, h₂⟩
      exact (congrArg Prod.fst (Option.some.inj h₁)).trans (congrArg Prod.fst (Option.some.inj h₂)).symm
    · intro h
      exact ⟨_, e₁, e₂, rfl, by rw [h]⟩
  rw [hmeets]
  by_cases h0 : n = 0
  · subst h0
    have hfirst : (s.first 0).bytes = [] := s.first_bytes 0
    have hnil : TextPasses flags [] e := .inr (.inr rfl)
    have hcopy : strndup s.bytes 0 = s := CStr.ofBytes_bytes s
    rw [if_pos rfl, List.take_zero, if_pos hnil, hcopy, or_iff_right (not_not_intro rfl)]
    have hempty (h : s.bytes = []) : TextPasses flags s.bytes e := .inr (.inr (by rw [h]; rfl))
    by_cases hnull : flags.emptyAsNull = true
    · simp only [hnull, true_and, if_true]
      by_cases hpass : TextPasses flags s.bytes e
      · rw [if_pos hpass]
        exact iff_of_true rfl (.inr hpass)
      · rw [if_neg hpass]
        exact iff_of_false nofun (not_or_intro (fun h => hpass (hempty h)) hpass)
    · simp only [hnull, Bool.false_eq_true, false_and, if_false, or_false]
      constructor
      · intro heq
        split at heq
        · have hs : s = s.first 0 := Json.str.inj (Option.some.inj heq)
          rw [hs, hfirst]
        · cases heq
      · intro h
        have hs : s = s.first 0 := CStr.ext (by rw [h, hfirst])
        rw [if_pos (hempty h), ← hs]
  · have hcond : flags.emptyAsNull = true ∧ s.bytes.take n = [] ↔ flags.emptyAsNull = true ∧ n = 0 := by
      refine and_congr_right fun _ => iff_of_false (fun h => ?_) h0
      rw [List.take_eq_nil_iff] at h
      rcases h with h | h
      · exact h0 h
      · unfold CStr.strlen at hn
        rw [h] at hn
        exact h0 (Nat.le_zero.1 hn)
    have hcopy : strndup s.bytes n = s.first n := by
      unfold strndup CStr.first
      rw [if_neg h0]
    refine iff_of_true ?_ (.inl h0)
    rw [if_neg h0, hcopy]
    simp only [hcond]

/-- The first byte of a string. -/
theorem jsonStrn_meets_iff_one :
    StrnMeets Rat (.lit "ab") 1 ⟨false, false, false⟩ .zero ↔ 1 ≠ 0 ∨ (CStr.lit "ab").bytes = [] ∨
      false = true ∧ TextPasses ⟨false, false, false⟩ (CStr.lit "ab").bytes .zero :=
  jsonStrn_meets_iff Rat (.lit "ab") (by decide) ⟨false, false, false⟩ .zero

/-- None of the bytes of a string: the value is the whole string. -/
theorem jsonStrn_empty : ¬ StrnMeets Rat (.lit "ab") 0 ⟨false, false, false⟩ .zero := by
  rintro ⟨v, e, e', hstrn, hstr⟩
  have hwhole : (jsonStrn (some (.lit "ab")) 0 ⟨false, false, false⟩ : ErrM (Option (Json Rat))) .zero =
      some (some (.str (.lit "ab")), .zero) := rfl
  have hnone : (jsonStr (some ((CStr.lit "ab").first 0)) ⟨false, false, false⟩ : ErrM (Option (Json Rat))) .zero =
      some (some (.str (.lit "")), .zero) := rfl
  cases hwhole.symm.trans hstrn
  cases hnone.symm.trans hstr

end Pcl

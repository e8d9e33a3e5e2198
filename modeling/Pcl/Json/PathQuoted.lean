import Pcl.Json.PathCompose

/-!
# Quoted names

A quoted name is meant to select the member with that key, whatever its characters are. The empty key takes
the quote and the bracket behind it as its name.
-/

namespace Pcl

variable {R : Type} {k : CStr} {e : ErrState}

/-- The text from the bracket to the bracket. -/
def quotedText (k : CStr) : List UInt8 := [ch '[', quote] ++ k.bytes ++ [quote, ch ']']

theorem nul_quotedText (k : CStr) : 0 ∉ quotedText k := by
  unfold quotedText
  simp only [List.mem_append, not_or]
  exact ⟨⟨by decide, k.nul_free⟩, by decide⟩

/-- The path `$['k']`. -/
def quotedPath (k : CStr) : CStr := dollar ⟨quotedText k, nul_quotedText k⟩

/-- A key that can be quoted: nothing in it ends the quotation, and it is not the wildcard. -/
structure QuotedKey where
  key : CStr
  open_ : ¬ [quote, ch ']'] <:+: key.bytes
  star : key.bytes ≠ [ch '*']

theorem strstr_quoted {s : List UInt8} (h : ¬ [quote, ch ']'] <:+: s) :
    strstr [quote, ch ']'] (s ++ [quote, ch ']']) = some s.length := by
  induction s with
  | nil => exact if_pos (List.prefix_refl _)
  | cons c s ih =>
    rw [List.infix_cons_iff, not_or] at h
    have hhead : ¬ [quote, ch ']'] <+: c :: (s ++ [quote, ch ']']) := by
      intro hpre
      obtain ⟨hc, htail⟩ := List.cons_prefix_cons.1 hpre
      cases s with
      | nil => exact absurd (List.cons_prefix_cons.1 htail).1 (by decide)
      | cons d s =>
        obtain ⟨hd, -⟩ := List.cons_prefix_cons.1 htail
        exact h.1 ⟨s, by rw [hc, hd]; rfl⟩
    rw [List.cons_append, strstr, if_neg hhead, ih h.2]
    rfl

/-- The text of an opened quotation is no wildcard. -/
theorem not_star_quoted (k : QuotedKey) :
    ¬ [quote, ch '*', quote, ch ']'] <+: quote :: (k.key.bytes ++ [quote, ch ']']) := by
  intro hpre
  have hopen := k.open_
  have hstar := k.star
  obtain ⟨-, h₁⟩ := List.cons_prefix_cons.1 hpre
  rcases hs : k.key.bytes with _ | ⟨c, s⟩
  · rw [hs] at h₁
    exact absurd (List.cons_prefix_cons.1 h₁).1 (by decide)
  · rw [hs] at h₁ hopen hstar
    obtain ⟨hc, h₂⟩ := List.cons_prefix_cons.1 h₁
    rcases s with _ | ⟨d, s⟩
    · exact hstar (by rw [hc])
    · obtain ⟨hd, h₃⟩ := List.cons_prefix_cons.1 h₂
      rcases s with _ | ⟨b, s⟩
      · exact absurd (List.cons_prefix_cons.1 h₃).1 (by decide)
      · obtain ⟨hb, -⟩ := List.cons_prefix_cons.1 h₃
        exact hopen ⟨[c], s, by rw [hd, hb]; rfl⟩

/-- The name that is compiled of a quoted key. -/
def quotedName (k : CStr) : CStr := if k.bytes = [] then .lit "']" else k

theorem compileNode_quoted (k : QuotedKey) :
    compileNode (quotedText k.key) e = some (some (.member (quotedName k.key), []), e) := by
  by_cases hempty : k.key.bytes = []
  · have hname : quotedName k.key = .ofBytes ([quote, ch ']'] ++ []) := by
      unfold quotedName
      rw [if_pos hempty]
      rfl
    unfold quotedText
    rw [hempty, hname]
    exact compileNode_quotes [] e
  · have htext : quotedText k.key = ch '[' :: quote :: (k.key.bytes ++ [quote, ch ']']) := by simp [quotedText]
    have hstar : ¬ txt "*]" <+: quote :: (k.key.bytes ++ [quote, ch ']']) :=
      not_starts_star (by decide : quote ≠ ch '*')
    have hdup := strndup_name hempty [quote, ch ']']
    have hname : quotedName k.key = k.key := if_neg hempty
    rw [htext]
    show compileBracket (quote :: (k.key.bytes ++ [quote, ch ']'])) e = _
    unfold compileBracket
    rw [if_neg hstar, if_pos List.headD_cons, if_neg (not_star_quoted k)]
    simp only [List.drop_succ_cons, List.drop_zero, strstr_quoted k.open_]
    rw [hdup, hname, List.drop_of_length_le (by simp)]
    rfl

theorem jsonCompile_quoted (k : QuotedKey) (e : ErrState) :
    jsonCompile (quotedPath k.key) e = some (some [.root, .member (quotedName k.key)], e) :=
  jsonCompile_dollar (.inr rfl) (.cons (compileNode_quoted k) .nil)

/-- The quoted key answers its value in the object, or nothing if the object does not have it. -/
def QuotedMeets (k : QuotedKey) (m : List (CStr × Json R)) : Prop :=
  Answers (quotedPath k.key) (.obj m) (· = (Json.objget m k.key).toList)

theorem quotedMeets_iff (k : QuotedKey) (m : List (CStr × Json R)) :
    QuotedMeets k m ↔ Json.objget m (quotedName k.key) = Json.objget m k.key := by
  have hresults : results [.root, .member (quotedName k.key)] (.obj m) =
      (Json.objget m (quotedName k.key)).toList := by
    rw [results_root, results_last (by simp), if_neg (show ¬ Mismatch (.member _) _ from id)]
    rfl
  rw [QuotedMeets, answers_iff (jsonCompile_quoted k) (by simp), hresults]
  refine ⟨fun h => ?_, congrArg Option.toList⟩
  simpa only [Option.head?_toList] using congrArg List.head? h

/-- A quoted key is answered exactly if it is not empty, or the object has the same under the empty key and under
the end of the quotation. -/
theorem jsonMatch_quoted_iff (k : QuotedKey) (m : List (CStr × Json R)) : QuotedMeets k m ↔
    k.key.bytes ≠ [] ∨ Json.objget m (.lit "']") = Json.objget m (.lit "") := by
  rw [quotedMeets_iff, quotedName]
  by_cases hempty : k.key.bytes = []
  · have hkey : k.key = .lit "" := CStr.ext hempty
    rw [if_pos hempty, hkey]
    exact (or_iff_right (fun h => h rfl)).symm
  · rw [if_neg hempty]
    exact iff_of_true rfl (.inl hempty)

/-- The empty key is not found. -/
theorem jsonMatch_quoted_empty :
    ¬ QuotedMeets ⟨.lit "", by decide, by decide⟩ ([(.lit "", .null)] : List (CStr × Json Nat)) := by
  rw [quotedMeets_iff]
  intro h
  cases h

end Pcl

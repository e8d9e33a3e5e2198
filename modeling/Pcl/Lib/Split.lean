import Mathlib.Data.List.Basic
import Mathlib.Data.List.Infix
import Mathlib.Tactic.Common

/-!
# Cutting a list at a delimiter

`search` finds the first occurrence of a list in another one. A list is cut at the occurrences of a
delimiter found from the left; elements are compared by their keys, so that a delimiter may be found
in another spelling. `Joins` is the way back: the pieces with a spelling of the delimiter between them.
-/

namespace Split
variable {α β : Type}

section Search
variable [DecidableEq β]

/-- The offset of the first occurrence of `t`. -/
def search (t : List β) : List β → Option Nat
  | [] => if t = [] then some 0 else none
  | c :: s => if t <+: c :: s then some 0 else (search t s).map (· + 1)

variable {t s : List β}

theorem search_none : search t s = none ↔ ¬ t <:+: s := by
  induction s with
  | nil => by_cases h : t = [] <;> simp [search, h]
  | cons c s ih =>
    unfold search
    rw [List.infix_cons_iff, not_or]
    by_cases h : t <+: c :: s
    · simp [h]
    · simp [h, ih]

theorem search_some {i : Nat} (h : search t s = some i) : ∃ pre post, s = pre ++ t ++ post ∧ pre.length = i := by
  induction s generalizing i with
  | nil =>
    unfold search at h
    split at h
    · rename_i ht
      cases h
      exact ⟨[], [], by rw [ht]; rfl, rfl⟩
    · cases h
  | cons c s ih =>
    unfold search at h
    split at h
    · rename_i hp
      cases h
      obtain ⟨post, hpost⟩ := hp
      exact ⟨[], post, hpost.symm, rfl⟩
    · obtain ⟨j, hj, rfl⟩ := Option.map_eq_some_iff.1 h
      obtain ⟨pre, post, rfl, rfl⟩ := ih hj
      exact ⟨c :: pre, post, rfl, rfl⟩

theorem search_take {i : Nat} (ht : t ≠ []) (h : search t s = some i) : ¬ t <:+: s.take i := by
  induction s generalizing i with
  | nil =>
    rw [List.take_nil]
    exact fun hin => ht (List.infix_nil.1 hin)
  | cons c s ih =>
    unfold search at h
    split at h
    · cases h
      exact fun hin => ht (List.infix_nil.1 hin)
    · rename_i hp
      obtain ⟨j, hj, rfl⟩ := Option.map_eq_some_iff.1 h
      rw [List.take_succ_cons, List.infix_cons_iff, not_or]
      exact ⟨fun hpre => hp (hpre.trans (List.take_prefix (j + 1) (c :: s))), ih hj⟩

end Search

section Cut
variable {key : α → β} {d s : List α}

/-- The delimiter does not start the list, and where the list is cut from the left, no delimiter follows the one
before at once. -/
inductive Apart [DecidableEq β] (key : α → β) (d : List α) : List α → Prop
  | last {s : List α} (h : search (d.map key) (s.map key) = none) : Apart key d s
  | cut {s : List α} {i : Nat} (h : search (d.map key) (s.map key) = some i) (hi : i ≠ 0)
      (hs : Apart key d (s.drop (i + d.length))) : Apart key d s

theorem Apart.cut_iff [DecidableEq β] {i : Nat} (h : search (d.map key) (s.map key) = some i) :
    Apart key d s ↔ i ≠ 0 ∧ Apart key d (s.drop (i + d.length)) := by
  constructor
  · intro hs
    cases hs with
    | last h' => exact absurd (h.symm.trans h') (Option.some_ne_none i)
    | cut h' hi hs =>
      cases h.symm.trans h'
      exact ⟨hi, hs⟩
  · exact fun hs => .cut h hs.1 hs.2

/-- The number of the pieces that a list is cut into from the left; nothing behind the last delimiter is no piece. -/
inductive Cuts [DecidableEq β] (key : α → β) (d : List α) : Nat → List α → Prop
  | nil : Cuts key d 0 []
  | last {s : List α} (hs : s ≠ []) (h : search (d.map key) (s.map key) = none) : Cuts key d 1 s
  | cut {s : List α} {i n : Nat} (hs : s ≠ []) (h : search (d.map key) (s.map key) = some i)
      (hn : Cuts key d n (s.drop (i + d.length))) : Cuts key d (n + 1) s

theorem Cuts.unique [DecidableEq β] {n m : Nat} (h : Cuts key d n s) (h' : Cuts key d m s) : n = m := by
  induction h generalizing m with
  | nil =>
    cases h' with
    | nil => rfl
    | last hs | cut hs => exact absurd rfl hs
  | last hs h =>
    cases h' with
    | nil => exact absurd rfl hs
    | last => rfl
    | cut _ h' => cases h.symm.trans h'
  | cut hs h hn ih =>
    cases h' with
    | nil => exact absurd rfl hs
    | last _ h' => cases h.symm.trans h'
    | cut _ h' hn' =>
      cases h.symm.trans h'
      rw [ih hn']

/-- The pieces with a spelling of the delimiter between every two of them. -/
inductive Joins (key : α → β) (d : List α) : List (List α) → List α → Prop
  | nil : Joins key d [] []
  | single (p : List α) : Joins key d [p] p
  | cons {c q s : List α} {ps : List (List α)} (p : List α) (hc : c.map key = d.map key) (h : Joins key d (q :: ps) s) :
      Joins key d (p :: q :: ps) (p ++ c ++ s)

/-- The list up to one delimiter behind the last piece. -/
def JoinsUpTo (key : α → β) (d : List α) (ps : List (List α)) (s : List α) : Prop :=
  ∃ t, Joins key d ps t ∧ (s = t ∨ ∃ c, c.map key = d.map key ∧ s = t ++ c)

theorem JoinsUpTo.cons {c s : List α} {ps : List (List α)} (p : List α) (hc : c.map key = d.map key)
    (hne : ps = [] → s = []) (h : JoinsUpTo key d ps s) : JoinsUpTo key d (p :: ps) (p ++ c ++ s) := by
  obtain ⟨t, hj, hs⟩ := h
  cases ps with
  | nil => exact ⟨p, .single p, .inr ⟨c, hc, by rw [hne rfl, List.append_nil]⟩⟩
  | cons q ps =>
    refine ⟨p ++ c ++ t, .cons p hc hj, ?_⟩
    rcases hs with rfl | ⟨c', hc', rfl⟩
    · exact .inl rfl
    · exact .inr ⟨c', hc', by simp only [List.append_assoc]⟩

theorem joins_id_iff {d s : List α} {ps : List (List α)} :
    Joins id d ps s ↔ s = d.intercalate ps := by
  constructor
  · intro h
    induction h with
    | nil => rfl
    | single p => exact List.intercalate_singleton.symm
    | @cons c q s ps p hc h ih =>
      rw [List.map_id, List.map_id] at hc
      rw [hc, ih, List.intercalate_cons_cons]
  · rintro rfl
    induction ps with
    | nil => exact .nil
    | cons p ps ih =>
      cases ps with
      | nil =>
        rw [List.intercalate_singleton]
        exact .single p
      | cons q ps =>
        rw [List.intercalate_cons_cons]
        exact .cons p rfl ih

theorem joinsUpTo_id_iff {d s : List α} {ps : List (List α)} :
    JoinsUpTo id d ps s ↔ s = d.intercalate ps ∨ s = d.intercalate ps ++ d := by
  unfold JoinsUpTo
  simp only [joins_id_iff, List.map_id, exists_eq_left]

/-- A list is what is in front of the first delimiter, the delimiter in some spelling, and the rest. -/
theorem search_cut [DecidableEq β] {i : Nat} (h : search (d.map key) (s.map key) = some i) :
    ∃ c, c.map key = d.map key ∧ s = s.take i ++ c ++ s.drop (i + d.length) ∧ i + d.length ≤ s.length := by
  obtain ⟨pre, post, hs, rfl⟩ := search_some h
  refine ⟨(s.drop pre.length).take d.length, ?_, ?_, ?_⟩
  · have hdrop : (s.map key).drop pre.length = d.map key ++ post := by
      rw [hs, List.append_assoc, List.drop_left]
    rw [List.map_take, List.map_drop, hdrop, List.take_left' (List.length_map ..)]
  · rw [← List.drop_drop, List.append_assoc, List.take_append_drop, List.take_append_drop]
  · have hlen := congrArg List.length hs
    simp only [List.length_append, List.length_map] at hlen
    omega

end Cut
section Replace
variable [DecidableEq α] {d r s t t' : List α}

/-- `t` is `s` with every occurrence of `d`, found from the left and not overlapping the one before, replaced by `r`. -/
inductive Replaced (d r : List α) : List α → List α → Prop
  | last {s : List α} (h : search d s = none) : Replaced d r s s
  | cut {s t : List α} {i : Nat} (h : search d s = some i) (hs : Replaced d r (s.drop (i + d.length)) t) :
    Replaced d r s (s.take i ++ (r ++ t))

theorem Replaced.unique (h : Replaced d r s t) (h' : Replaced d r s t') : t = t' := by
  induction h generalizing t' with
  | last h =>
    cases h' with
    | last => rfl
    | cut h' => cases h.symm.trans h'
  | cut h hs ih =>
    cases h' with
    | last h' => cases h.symm.trans h'
    | cut h' hs' =>
      cases h.symm.trans h'
      rw [ih hs']

theorem Replaced.occurrence (hd : d ≠ []) (h : Replaced d r s t) : Replaced d r (d ++ s) (r ++ t) := by
  obtain ⟨c, d', rfl⟩ := List.exists_cons_of_ne_nil hd
  have hsearch : search (c :: d') (c :: d' ++ s) = some 0 := if_pos (List.prefix_append (c :: d') s)
  have hdrop : (c :: d' ++ s).drop (0 + (c :: d').length) = s := by
    rw [Nat.zero_add]
    exact List.drop_left
  have hcut : Replaced (c :: d') r (c :: d' ++ s) ((c :: d' ++ s).take 0 ++ (r ++ t)) := .cut hsearch (hdrop.symm ▸ h)
  rwa [List.take_zero, List.nil_append] at hcut

theorem Replaced.cons {c : α} (hc : ¬ d <+: c :: s) (h : Replaced d r s t) : Replaced d r (c :: s) (c :: t) := by
  cases h with
  | last h =>
    refine .last ?_
    rw [search, if_neg hc, h]
    rfl
  | @cut _ t i h hs =>
    have hsearch : search d (c :: s) = some (i + 1) := by
      rw [search, if_neg hc, h]
      rfl
    have hdrop : (c :: s).drop (i + 1 + d.length) = s.drop (i + d.length) := by
      rw [Nat.add_right_comm]
      rfl
    have hcut : Replaced d r (c :: s) ((c :: s).take (i + 1) ++ (r ++ t)) := .cut hsearch (hdrop.symm ▸ hs)
    rwa [List.take_succ_cons, List.cons_append] at hcut

/-- What is put for the list, from the left: the replacement of an occurrence, or one element. -/
def replacePieces (d r : List α) : List α → List (List α)
  | [] => []
  | c :: s => if d <+: c :: s then r :: replacePieces d r (s.drop (d.length - 1)) else [c] :: replacePieces d r s
termination_by s => s.length
decreasing_by
  · rw [List.length_drop, List.length_cons]
    omega
  · exact Nat.lt_succ_self _

theorem replacePieces_nil : replacePieces d r [] = [] := by rw [replacePieces]

theorem replacePieces_occurrence (hd : d ≠ []) : replacePieces d r (d ++ s) = r :: replacePieces d r s := by
  obtain ⟨c, d', rfl⟩ := List.exists_cons_of_ne_nil hd
  have hpre : c :: d' <+: c :: (d' ++ s) := List.prefix_append (c :: d') s
  rw [List.cons_append, replacePieces, if_pos hpre, List.length_cons, Nat.add_sub_cancel, List.drop_left]

theorem replacePieces_other {c : α} (hc : ¬ d <+: c :: s) : replacePieces d r (c :: s) = [c] :: replacePieces d r s := by
  rw [replacePieces, if_neg hc]

theorem replaced_pieces (hd : d ≠ []) (s : List α) : Replaced d r s (replacePieces d r s).flatten := by
  induction hlen : s.length using Nat.strong_induction_on generalizing s with
  | _ n ih =>
    cases s with
    | nil =>
      rw [replacePieces_nil]
      exact .last (if_neg hd)
    | cons c s =>
      by_cases hc : d <+: c :: s
      · obtain ⟨rest, hrest⟩ := hc
        have hpos := List.length_pos_iff.2 hd
        have hsum := congrArg List.length hrest
        rw [List.length_append] at hsum
        rw [← hrest, replacePieces_occurrence hd, List.flatten_cons]
        exact .occurrence hd (ih rest.length (by omega) rest rfl)
      · rw [replacePieces_other hc, List.flatten_cons, List.singleton_append]
        rw [List.length_cons] at hlen
        exact .cons hc (ih s.length (by omega) s rfl)

end Replace

end Split

import Mathlib.Tactic.Common

/-!
# Blocks of memory as lists

`memcpy` and `memmove` inside one block of cells; they are defined where source and destination lie in
the block. The rules say what they do to a block given as an append: a store over a middle part, a part
moved up by some cells and a part moved down over a gap.
-/

namespace Pcl.Block
variable {α : Type}

/-- Cells `s` stored at `pos`. -/
def store (l : List α) (pos : Nat) (s : List α) : Option (List α) :=
  if pos + s.length ≤ l.length then some (l.take pos ++ s ++ l.drop (pos + s.length)) else none

/-- The `n` cells at `pos`. -/
def load (l : List α) (pos n : Nat) : Option (List α) :=
  if pos + n ≤ l.length then some ((l.drop pos).take n) else none

/-- `n` cells moved from `src` to `dst`; the two parts may overlap. -/
def move (l : List α) (dst src n : Nat) : Option (List α) := (load l src n).bind (store l dst)

theorem store_length {l l' s : List α} {pos : Nat} (h : store l pos s = some l') : l'.length = l.length := by
  unfold store at h
  split at h
  · cases h
    rw [List.length_append, List.length_append, List.length_take, List.length_drop]
    omega
  · cases h

theorem store_getElem? {l l' s : List α} {pos : Nat} (h : store l pos s = some l') (i : Nat) :
    l'[i]? = if i < pos then l[i]? else if i < pos + s.length then s[i - pos]? else l[i]? := by
  unfold store at h
  split at h
  case isFalse => cases h
  case isTrue hle =>
    cases h
    have hpre : (l.take pos).length = pos := by
      rw [List.length_take]
      omega
    by_cases h₁ : i < pos
    · rw [if_pos h₁, List.append_assoc, List.getElem?_append_left (by omega), List.getElem?_take_of_lt h₁]
    · rw [if_neg h₁]
      by_cases h₂ : i < pos + s.length
      · rw [if_pos h₂, List.append_assoc, List.getElem?_append_right (by omega), hpre, List.getElem?_append_left (by omega)]
      · rw [if_neg h₂, List.getElem?_append_right (by rw [List.length_append]; omega), List.length_append, hpre,
          List.getElem?_drop]
        congr 1
        omega

theorem take_agree {l l' : List α} {k : Nat} (hk : ∀ i < k, l[i]? = l'[i]?) : l.take k = l'.take k := by
  refine List.ext_getElem? fun i => ?_
  rw [List.getElem?_take, List.getElem?_take]
  split
  · exact hk i ‹_›
  · rfl

/-- Stores into blocks that agree on their first `k` cells, not behind those. -/
theorem store_agree {l l' : List α} {k pos : Nat} (hlen : l.length = l'.length) (hk : ∀ i < k, l[i]? = l'[i]?)
    (hpos : pos ≤ k) (s : List α) : store l pos s = none ∧ store l' pos s = none ∨
      ∃ m m', store l pos s = some m ∧ store l' pos s = some m' ∧ m.length = m'.length ∧
        ∀ i < max k (pos + s.length), m[i]? = m'[i]? := by
  by_cases hfit : pos + s.length ≤ l.length
  · have h : store l pos s = some (l.take pos ++ s ++ l.drop (pos + s.length)) := if_pos hfit
    have h' : store l' pos s = some (l'.take pos ++ s ++ l'.drop (pos + s.length)) := if_pos (hlen ▸ hfit)
    refine .inr ⟨_, _, h, h', ?_, fun i hi => ?_⟩
    · rw [store_length h, store_length h', hlen]
    · rw [store_getElem? h, store_getElem? h']
      split
      · exact hk i (by omega)
      · split
        · rfl
        · exact hk i (by omega)
  · exact .inl ⟨if_neg hfit, if_neg (hlen ▸ hfit)⟩

theorem move_length {l l' : List α} {dst src n : Nat} (h : move l dst src n = some l') : l'.length = l.length := by
  obtain ⟨s, -, hstore⟩ := Option.bind_eq_some_iff.1 h
  exact store_length hstore

variable (pre mid gap s rest : List α)

theorem load_append : load (pre ++ (mid ++ rest)) pre.length mid.length = some mid := by
  unfold load
  rw [if_pos (by simp), List.drop_left' rfl, List.take_left' rfl]

theorem store_append (h : mid.length = s.length) : store (pre ++ (mid ++ rest)) pre.length s = some (pre ++ (s ++ rest)) := by
  unfold store
  have hdrop : (pre ++ (mid ++ rest)).drop (pre.length + s.length) = rest := by
    rw [← List.append_assoc, List.drop_left']
    rw [List.length_append, h]
  rw [if_pos (by simp [h]), List.take_left' rfl, hdrop, List.append_assoc]

/-- Over the end of one part and into the next. -/
theorem store_append_drop (h : s.length ≤ rest.length) :
    store (pre ++ rest) pre.length s = some (pre ++ (s ++ rest.drop s.length)) := by
  have hrest : rest = rest.take s.length ++ rest.drop s.length := (List.take_append_drop _ _).symm
  conv_lhs => rw [hrest]
  exact store_append _ _ _ _ (by rw [List.length_take]; omega)

theorem store_front (h : s.length ≤ rest.length) : store rest 0 s = some (s ++ rest.drop s.length) :=
  store_append_drop [] s rest h

theorem load_front {n : Nat} (h : n ≤ rest.length) : load rest 0 n = some (rest.take n) := by
  unfold load
  rw [if_pos (by omega), List.drop_zero]

/-- A part moved up by `k` cells leaves what was at its start there. -/
theorem move_up {k : Nat} (h : k ≤ rest.length) : move (pre ++ (mid ++ rest)) (pre.length + k) pre.length mid.length =
    some (pre ++ ((mid ++ rest).take k ++ (mid ++ rest.drop k))) := by
  have hlen : (pre ++ (mid ++ rest).take k).length = pre.length + k := by
    rw [List.length_append, List.length_take, List.length_append]
    omega
  have hsplit : pre ++ (mid ++ rest) = (pre ++ (mid ++ rest).take k) ++ (mid ++ rest).drop k := by
    rw [List.append_assoc, List.take_append_drop]
  have hdrop : ((mid ++ rest).drop k).drop mid.length = rest.drop k := by
    rw [List.drop_drop, Nat.add_comm, ← List.drop_drop, List.drop_left' rfl]
  have hfit : mid.length ≤ ((mid ++ rest).drop k).length := by
    rw [List.length_drop, List.length_append]
    omega
  unfold move
  rw [load_append, Option.bind_some, hsplit, ← hlen, store_append_drop _ _ _ hfit, hdrop, List.append_assoc]

/-- A part moved down over a gap leaves its own end behind. -/
theorem move_down : move (pre ++ (gap ++ (mid ++ rest))) pre.length (pre.length + gap.length) mid.length =
    some (pre ++ (mid ++ ((gap ++ mid).drop mid.length ++ rest))) := by
  have hload := load_append (pre ++ gap) mid rest
  rw [List.length_append, List.append_assoc] at hload
  have hfit : mid.length ≤ (gap ++ (mid ++ rest)).length := by
    simp only [List.length_append]
    omega
  have hdrop : (gap ++ (mid ++ rest)).drop mid.length = (gap ++ mid).drop mid.length ++ rest := by
    rw [← List.append_assoc, List.drop_append_of_le_length]
    rw [List.length_append]
    exact Nat.le_add_left _ _
  unfold move
  rw [hload, Option.bind_some, store_append_drop _ _ _ hfit, hdrop]

end Pcl.Block

import Mathlib.Data.List.Perm.Basic
import Mathlib.Data.List.Sublists
import Mathlib.Tactic.Common

/-!
# A list that changes under a cursor

A cursor goes through a list position by position, and at each position elements may be added to the end of the list or
dropped from anywhere. `Walk i l seen es l'` is such a walk from position `i`; it sees `seen`. What is seen is in the
order of the list, with what was added behind it (`Walk.sublist`), and each element that is dropped costs at most one that
is not seen (`Walk.length_le`).
-/

namespace Cursor
variable {α : Type}

inductive Edit (α : Type) where
  | add (x : α)
  | drop (x : α)

def added (es : List (Edit α)) : List α := es.filterMap fun
  | .add x => some x
  | .drop _ => none

def dropped (es : List (Edit α)) : List α := es.filterMap fun
  | .add _ => none
  | .drop x => some x

@[simp] theorem added_append (es es' : List (Edit α)) : added (es ++ es') = added es ++ added es' := List.filterMap_append

@[simp] theorem dropped_append (es es' : List (Edit α)) : dropped (es ++ es') = dropped es ++ dropped es' :=
  List.filterMap_append

variable [DecidableEq α]

def Edit.apply (l : List α) : Edit α → List α
  | add x => l ++ [x]
  | drop x => l.erase x

def apply (l : List α) (es : List (Edit α)) : List α := es.foldl Edit.apply l

/-- Only what is in the list is dropped. -/
def Valid : List α → List (Edit α) → Prop
  | _, [] => True
  | l, .add x :: es => Valid (l ++ [x]) es
  | l, .drop x :: es => x ∈ l ∧ Valid (l.erase x) es

/-- From position `i` the cursor sees `seen`; the edits are made on the way. -/
inductive Walk : Nat → List α → List α → List (Edit α) → List α → Prop
  | done {i : Nat} {l : List α} (h : l.length ≤ i) : Walk i l [] [] l
  | step {i : Nat} {l seen l' : List α} {es es' : List (Edit α)} (x : α) (hx : l[i]? = some x) (hes : Valid l es)
      (h : Walk (i + 1) (apply l es) seen es' l') : Walk i l (x :: seen) (es ++ es') l'

section
variable {l l' seen : List α} {es es' : List (Edit α)} {i : Nat}

theorem apply_append (l : List α) (es es' : List (Edit α)) : apply l (es ++ es') = apply (apply l es) es' :=
  List.foldl_append

theorem Valid.append (h : Valid l es) (h' : Valid (apply l es) es') : Valid l (es ++ es') := by
  induction es generalizing l with
  | nil => exact h'
  | cons e es ih =>
    cases e with
    | add x => exact ih h h'
    | drop x => exact ⟨h.1, ih h.2 h'⟩

/-- Nothing is lost: what there was and what was added is what was dropped and what there is. -/
theorem Valid.perm (h : Valid l es) : (l ++ added es).Perm (dropped es ++ apply l es) := by
  induction es generalizing l with
  | nil => rw [show added ([] : List (Edit α)) = [] from rfl, List.append_nil]; exact .refl _
  | cons e es ih =>
    cases e with
    | add x =>
      have := ih h
      rwa [List.append_assoc] at this
    | drop x =>
      obtain ⟨hx, h⟩ := h
      exact ((List.perm_cons_erase hx).append_right _).trans ((ih h).cons x)

/-- An edit behind the cursor moves what is in front of it by one place, or not. -/
theorem drop_apply (l : List α) (es : List (Edit α)) (i : Nat) :
    ((apply l es).drop i).Sublist (l.drop i ++ added es) := by
  induction es generalizing l with
  | nil =>
    rw [show added ([] : List (Edit α)) = [] from rfl, List.append_nil]
    exact .refl _
  | cons e es ih =>
    refine (ih (e.apply l)).trans ?_
    cases e with
    | add x =>
      show ((l ++ [x]).drop i ++ added es).Sublist (l.drop i ++ ([x] ++ added es))
      rw [List.drop_append, ← List.append_assoc]
      exact ((List.Sublist.refl _).append (List.drop_sublist _ _)).append (.refl _)
    | drop x =>
      refine List.Sublist.append ?_ (.refl _)
      show ((l.erase x).drop i).Sublist (l.drop i)
      exact (List.erase_sublist).drop i

theorem Walk.valid (h : Walk i l seen es l') : Valid l es ∧ l' = apply l es := by
  induction h with
  | done h => exact ⟨trivial, rfl⟩
  | step x hx hes h ih => exact ⟨hes.append ih.1, by rw [ih.2, apply_append]⟩

/-- Each element is seen once at most, in the order of the list. -/
theorem Walk.sublist (h : Walk i l seen es l') : seen.Sublist (l.drop i ++ added es) := by
  induction h with
  | done h => exact List.nil_sublist _
  | @step i l seen l' es es' x hx hes h ih =>
    obtain ⟨hi, hget⟩ := List.getElem?_eq_some_iff.1 hx
    have hcons : l.drop i = x :: l.drop (i + 1) := by rw [List.drop_eq_getElem_cons hi, hget]
    rw [hcons, added_append, List.cons_append, ← List.append_assoc]
    exact (ih.trans ((drop_apply l es (i + 1)).append (.refl _))).cons_cons x

/-- As many are not seen as were dropped, at most. -/
theorem Walk.length_le (h : Walk i l seen es l') : l'.length ≤ i + seen.length := by
  induction h with
  | done h => exact h
  | step x hx hes h ih =>
    rw [List.length_cons]
    omega

/-- A walk that nothing is dropped on sees everything. -/
theorem Walk.eq_of_dropped (h : Walk 0 l seen es l') (hd : dropped es = []) : seen = l ++ added es := by
  have hsub := h.sublist
  have hle := h.length_le
  obtain ⟨hvalid, rfl⟩ := h.valid
  have hlen := hvalid.perm.length_eq
  rw [hd, List.nil_append] at hlen
  refine hsub.eq_of_length_le ?_
  rw [List.drop_zero]
  omega

end
end Cursor

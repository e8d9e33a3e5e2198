import Mathlib.Data.List.Perm.Basic
import Mathlib.Tactic.Common

/-!
# Accounts of owned values

A container holds values; a step takes some in and lets some go. The account of the step is balanced when
what was held and what came in is what went out and what is held then, as multisets. Balanced steps compose,
so over a run everything that came in went out once or is still held.
-/

namespace Pcl.Ledger
variable {α ι : Type}

/-- A step from `before` to `after` takes `taken` in and lets `gone` go. -/
def Balanced (before taken gone after : List α) : Prop := (before ++ taken).Perm (gone ++ after)

namespace Balanced
variable {before mid after taken taken' gone gone' : List α}

theorem refl (held : List α) : Balanced held [] [] held := by
  unfold Balanced
  rw [List.append_nil]
  exact .refl _

theorem add (held : List α) (a : α) : Balanced held [a] [] (held ++ [a]) := List.Perm.refl _

/-- All that is held goes out. -/
theorem drain (held : List α) : Balanced held [] held [] := List.Perm.refl _

/-- A step that takes nothing in and lets one value go. -/
theorem out_iff {held after : List α} {a : α} : Balanced held [] [a] after ↔ held.Perm (a :: after) := by
  unfold Balanced
  rw [List.append_nil]
  rfl

theorem trans (h : Balanced before taken gone mid) (h' : Balanced mid taken' gone' after) :
    Balanced before (taken ++ taken') (gone ++ gone') after := by
  have h₁ : (before ++ taken ++ taken').Perm (gone ++ mid ++ taken') := List.Perm.append_right taken' h
  have h₂ : (gone ++ (mid ++ taken')).Perm (gone ++ (gone' ++ after)) := List.Perm.append_left gone h'
  rw [← List.append_assoc, ← List.append_assoc] at h₂
  unfold Balanced
  rw [← List.append_assoc]
  exact h₁.trans h₂

/-- Over a run from an empty container everything that came in went out or is held. -/
theorem of_empty (h : Balanced [] taken gone after) : (gone ++ after).Perm taken := h.symm

end Balanced

/-- Changing one of many places exchanges what it holds. -/
theorem balanced_update {l : List ι} (hnd : l.Nodup) {i : ι} (hi : i ∈ l) {f g : ι → Option α}
    (h : ∀ j ∈ l, j ≠ i → g j = f j) :
    Balanced (l.filterMap f) (g i).toList (f i).toList (l.filterMap g) := by
  obtain ⟨l₁, l₂, rfl⟩ := List.append_of_mem hi
  have hfront (p : ι → Option α) :
      ((l₁ ++ i :: l₂).filterMap p).Perm ((p i).toList ++ (l₁ ++ l₂).filterMap p) := by
    refine (List.perm_middle.filterMap p).trans ?_
    rw [List.filterMap_cons]
    cases p i <;> exact .refl _
  -- the other places hold the same
  have hnot : i ∉ l₁ ++ l₂ := (List.nodup_cons.1 (List.perm_middle.nodup_iff.1 hnd)).1
  have hsame : (l₁ ++ l₂).filterMap g = (l₁ ++ l₂).filterMap f := by
    refine List.filterMap_congr fun j hj => h j ?_ fun heq => hnot (heq ▸ hj)
    exact List.perm_middle.mem_iff.2 (List.mem_cons_of_mem i hj)
  have hg := hfront g
  rw [hsame] at hg
  refine ((hfront f).append_right _).trans ?_
  rw [List.append_assoc]
  exact List.Perm.append_left _ (List.perm_append_comm.trans hg.symm)

end Pcl.Ledger

import Pcl.Lib.Chain
import Mathlib.Logic.Function.Basic

/-!
# Cells with owners

A heap of cells, each allocated once and freed at most once. `Owned cells own`: every cell in use belongs to exactly one
owner, and an owner has no others; so nothing is lost and nothing is shared. `Line cells s l vs`: the nodes at `l`, linked
in that order from `s`, hold the values `vs`.
-/

namespace Pcl

/-- The cells at their addresses; a freed one leaves its place empty. -/
abbrev Cells (ε : Type) := List (Option ε)

namespace Cells
variable {ε : Type}

def read (h : Cells ε) (a : Nat) : Option ε := (h[a]?).join

/-- A new cell, at the address `h.length`. -/
def alloc (h : Cells ε) (e : ε) : Cells ε := h ++ [some e]

def write (h : Cells ε) (a : Nat) (e : ε) : Cells ε := h.set a (some e)

def free (h : Cells ε) (a : Nat) : Cells ε := h.set a none

section
variable {h : Cells ε} {a b : Nat} {e : ε}

theorem lt_of_read (ha : h.read a ≠ none) : a < h.length := by
  refine Nat.lt_of_not_le fun hle => ha ?_
  unfold read
  rw [List.getElem?_eq_none hle]
  rfl

@[simp] theorem read_nil (a : Nat) : read ([] : Cells ε) a = none := rfl

theorem read_length (h : Cells ε) : h.read h.length = none := by
  unfold read
  rw [List.getElem?_eq_none (Nat.le_refl _)]
  rfl

theorem read_alloc (h : Cells ε) (e : ε) (b : Nat) : (h.alloc e).read b = if b = h.length then some e else h.read b := by
  unfold read alloc
  rw [List.getElem?_append]
  split
  · next hlt => rw [if_neg (Nat.ne_of_lt hlt)]
  · next hle =>
    by_cases heq : b = h.length
    · simp [heq]
    · have hout : h.length < b := by omega
      rw [if_neg heq, List.getElem?_eq_none (by simp; omega), List.getElem?_eq_none (by omega)]

theorem read_write (ha : h.read a ≠ none) (e : ε) (b : Nat) :
    (h.write a e).read b = if b = a then some e else h.read b := by
  have hlt := lt_of_read ha
  unfold read write
  rw [List.getElem?_set]
  by_cases heq : a = b
  · rw [if_pos heq, if_pos hlt, if_pos heq.symm]
    rfl
  · rw [if_neg heq, if_neg (Ne.symm heq)]

theorem read_free (h : Cells ε) (a b : Nat) : (h.free a).read b = if b = a then none else h.read b := by
  unfold read free
  rw [List.getElem?_set]
  by_cases heq : a = b
  · rw [if_pos heq, if_pos heq.symm]
    split <;> rfl
  · rw [if_neg heq, if_neg (Ne.symm heq)]

theorem write_self (ha : h.read a = some e) : h.write a e = h := by
  unfold read at ha
  rw [Option.join_eq_some_iff] at ha
  unfold write
  refine List.ext_getElem? fun b => ?_
  rw [List.getElem?_set]
  by_cases heq : a = b
  · subst heq
    rw [if_pos rfl, ha, if_pos (List.getElem?_eq_some_iff.1 ha).1]
  · rw [if_neg heq]

@[simp] theorem length_alloc (h : Cells ε) (e : ε) : (h.alloc e).length = h.length + 1 := by simp [alloc]

@[simp] theorem length_write (h : Cells ε) (a : Nat) (e : ε) : (h.write a e).length = h.length := List.length_set

@[simp] theorem length_free (h : Cells ε) (a : Nat) : (h.free a).length = h.length := List.length_set

theorem free_write (h : Cells ε) (a : Nat) (e : ε) : (h.write a e).free a = h.free a := List.set_set ..

end

/-! ### Owners -/

/-- Each cell in use belongs to one owner. -/
structure Owned {ι : Type} (h : Cells ε) (own : ι → List Nat) : Prop where
  live : ∀ a, h.read a ≠ none ↔ ∃ i, a ∈ own i
  disjoint : ∀ i j a, a ∈ own i → a ∈ own j → i = j

section
variable {ι : Type} {h h' : Cells ε} {own : ι → List Nat} {i j : ι} {a : Nat}

theorem Owned.nil (h : Cells ε) (hfree : ∀ a, h.read a = none) : h.Owned fun _ : ι => [] :=
  ⟨fun a => by simp [hfree], fun i j a ha => by cases ha⟩

theorem Owned.fresh (ho : h.Owned own) (i : ι) : h.length ∉ own i := fun hmem => by
  have := (ho.live h.length).2 ⟨i, hmem⟩
  exact this (read_length h)

/-- One owner exchanges its cells: what it gives up is freed, and what it gets was not in use. -/
theorem Owned.exchange [DecidableEq ι] (ho : h.Owned own) (i : ι) (l : List Nat)
    (hsame : ∀ a, a ∉ own i → a ∉ l → h'.read a = h.read a) (hgone : ∀ a ∈ own i, a ∉ l → h'.read a = none)
    (hnew : ∀ a ∈ l, h'.read a ≠ none ∧ (a ∈ own i ∨ h.read a = none)) :
    h'.Owned (Function.update own i l) := by
  have hother {j : ι} (hj : j ≠ i) : Function.update own i l j = own j := Function.update_of_ne hj l own
  have hself : Function.update own i l i = l := Function.update_self i l own
  have hapart {j : ι} (hj : j ≠ i) {a : Nat} (ha : a ∈ own j) : a ∉ own i ∧ a ∉ l := by
    have hi : a ∉ own i := fun h => hj (ho.disjoint j i a ha h)
    exact ⟨hi, fun hl => (hnew a hl).2.elim hi fun hnone => (ho.live a).2 ⟨j, ha⟩ hnone⟩
  refine ⟨fun a => ?_, fun j k a hj hk => ?_⟩
  · by_cases hl : a ∈ l
    · exact iff_of_true (hnew a hl).1 ⟨i, by rwa [hself]⟩
    · by_cases hi : a ∈ own i
      · refine iff_of_false (not_not.2 (hgone a hi hl)) ?_
        rintro ⟨j, hj⟩
        by_cases heq : j = i
        · rw [heq, hself] at hj
          exact hl hj
        · rw [hother heq] at hj
          exact (hapart heq hj).1 hi
      · rw [hsame a hi hl, ho.live]
        constructor
        · rintro ⟨j, hj⟩
          have heq : j ≠ i := fun heq => hi (heq ▸ hj)
          exact ⟨j, by rwa [hother heq]⟩
        · rintro ⟨j, hj⟩
          by_cases heq : j = i
          · rw [heq, hself] at hj
            exact absurd hj hl
          · exact ⟨j, by rwa [hother heq] at hj⟩
  · by_cases hji : j = i <;> by_cases hki : k = i
    · rw [hji, hki]
    · rw [hji, hself] at hj
      rw [hother hki] at hk
      exact absurd hj (hapart hki hk).2
    · rw [hki, hself] at hk
      rw [hother hji] at hj
      exact absurd hk (hapart hji hj).2
    · rw [hother hji] at hj
      rw [hother hki] at hk
      exact ho.disjoint j k a hj hk

end
end Cells

/-! ### Lists of nodes -/

structure ListNode (α : Type) where
  next : Option Nat
  value : α

/-- The nodes at `l` follow each other from `s` and hold `vs`. -/
def Line {α : Type} (h : Cells (ListNode α)) : Option Nat → List Nat → List α → Prop
  | s, [], [] => s = none
  | s, a :: l, v :: vs => s = some a ∧ ∃ next, h.read a = some ⟨next, v⟩ ∧ Line h next l vs
  | _, _, _ => False

namespace Line
variable {α : Type} {h h' : Cells (ListNode α)} {s : Option Nat} {l : List Nat} {vs : List α} {a : Nat} {v : α}

theorem chain (hline : Line h s l vs) : LinkedStore.Chain h.read ListNode.next s l := by
  induction l generalizing s vs with
  | nil =>
    cases vs with
    | nil =>
      cases hline
      exact .nil
    | cons v vs => exact hline.elim
  | cons a l ih =>
    cases vs with
    | nil => exact hline.elim
    | cons v vs =>
      obtain ⟨rfl, next, hread, hrest⟩ := hline
      exact .cons hread (ih hrest)

theorem nodup (hline : Line h s l vs) : l.Nodup := hline.chain.nodup

theorem length_eq (hline : Line h s l vs) : l.length = vs.length := by
  induction l generalizing s vs with
  | nil =>
    cases vs with
    | nil => rfl
    | cons v vs => exact hline.elim
  | cons a l ih =>
    cases vs with
    | nil => exact hline.elim
    | cons v vs =>
      obtain ⟨-, next, -, hrest⟩ := hline
      rw [List.length_cons, List.length_cons, ih hrest]

theorem congr (hsame : ∀ a ∈ l, h'.read a = h.read a) (hline : Line h s l vs) : Line h' s l vs := by
  induction l generalizing s vs with
  | nil =>
    cases vs with
    | nil => exact hline
    | cons v vs => exact hline.elim
  | cons a l ih =>
    cases vs with
    | nil => exact hline.elim
    | cons v vs =>
      obtain ⟨hs, next, hread, hrest⟩ := hline
      refine ⟨hs, next, ?_, ih (fun b hb => hsame b (List.mem_cons_of_mem a hb)) hrest⟩
      rw [hsame a List.mem_cons_self, hread]

theorem read_mem (hline : Line h s l vs) (ha : a ∈ l) : h.read a ≠ none := by
  obtain ⟨e, he⟩ := hline.chain.read_mem ha
  rw [he]
  exact Option.some_ne_none _

theorem last {p : Nat} {w : α} (hline : Line h s (l ++ [p]) (vs ++ [w])) : h.read p = some ⟨none, w⟩ := by
  induction l generalizing s vs with
  | nil =>
    cases vs with
    | nil =>
      obtain ⟨-, next, hread, hnil⟩ := hline
      rw [hread, hnil]
    | cons u us =>
      have hlen := hline.length_eq
      simp at hlen
  | cons a l ih =>
    cases vs with
    | nil =>
      have hlen := hline.length_eq
      simp at hlen
    | cons u us =>
      obtain ⟨-, next, -, hrest⟩ := hline
      exact ih hrest

/-- A node behind the last one. -/
theorem snoc {p x : Nat} {w : α} (hline : Line h s (l ++ [p]) (vs ++ [w])) (hp : h'.read p = some ⟨some x, w⟩)
    (hx : h'.read x = some ⟨none, v⟩) (hsame : ∀ a ∈ l, h'.read a = h.read a) :
    Line h' s (l ++ [p] ++ [x]) (vs ++ [w] ++ [v]) := by
  induction l generalizing s vs with
  | nil =>
    cases vs with
    | nil =>
      obtain ⟨hs, -⟩ := hline
      exact ⟨hs, some x, hp, rfl, none, hx, rfl⟩
    | cons u us =>
      have hlen := hline.length_eq
      simp at hlen
  | cons a l ih =>
    cases vs with
    | nil =>
      have hlen := hline.length_eq
      simp at hlen
    | cons u us =>
      obtain ⟨hs, next, hread, hrest⟩ := hline
      refine ⟨hs, next, ?_, ih hrest fun b hb => hsame b (List.mem_cons_of_mem a hb)⟩
      rw [hsame a List.mem_cons_self, hread]

theorem head (hline : Line h s l (v :: vs)) :
    ∃ a l' next, l = a :: l' ∧ s = some a ∧ h.read a = some ⟨next, v⟩ ∧ Line h next l' vs := by
  cases l with
  | nil => exact hline.elim
  | cons a l =>
    obtain ⟨hs, next, hread, hrest⟩ := hline
    exact ⟨a, l, next, rfl, hs, hread, hrest⟩

end Line
end Pcl

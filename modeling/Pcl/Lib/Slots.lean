import Mathlib.Data.List.ReduceOption
import Mathlib.Data.List.Basic
import Mathlib.Tactic.Common

/-!
# Slots under a cursor

A row of slots, some of them empty; elements are put behind the last slot, and an element that is taken out leaves its
slot empty, until the row is moved together. A cursor goes over the row and passes over what is empty. In whatever way
the row is changed meanwhile, it sees the elements in the order in which they were put there, each of them once at most
(`Walk.sublist`). It misses none, if nothing was moved together (`Walk.sees_all`).
-/

namespace Slots
variable {α : Type}

inductive Edit (α : Type) where
  | add (x : α)
  | take (i : Nat)
  | together
  | clear

def Edit.apply (s : List (Option α)) : Edit α → List (Option α)
  | add x => s ++ [some x]
  | take i => s.set i none
  | together => s.reduceOption.map some
  | clear => []

def apply (s : List (Option α)) (es : List (Edit α)) : List (Option α) := es.foldl Edit.apply s

def added (es : List (Edit α)) : List α := es.filterMap fun
  | .add x => some x
  | _ => none

/-- Elements stay in their slots. -/
def Edit.Stays : Edit α → Prop
  | add _ | take _ => True
  | together | clear => False

/-- From slot `i` on the cursor sees `seen` and gets to slot `j`; the edits are made on the way. -/
inductive Walk : Nat → List (Option α) → List α → List (Edit α) → Nat → List (Option α) → Prop
  | start (i : Nat) (s : List (Option α)) : Walk i s [] [] i s
  | step {i j : Nat} {s s' : List (Option α)} {seen : List α} {es es' : List (Edit α)} (k : Nat) (x : α)
      (rest : List (Option α)) (hx : s.drop i = List.replicate k none ++ some x :: rest)
      (h : Walk (i + k + 1) (apply s es) seen es' j s') : Walk i s (x :: seen) (es ++ es') j s'

@[simp] theorem added_append (es es' : List (Edit α)) : added (es ++ es') = added es ++ added es' := List.filterMap_append

theorem apply_append (s : List (Option α)) (es es' : List (Edit α)) : apply s (es ++ es') = apply (apply s es) es' :=
  List.foldl_append

section
variable {s s' : List (Option α)} {seen : List α} {es es' : List (Edit α)} {i j : Nat}

/-- A slot that is made empty. -/
theorem reduceOption_set (s : List (Option α)) (i : Nat) : (s.set i none).reduceOption.Sublist s.reduceOption := by
  induction s generalizing i with
  | nil => exact .refl _
  | cons x s ih =>
    cases i with
    | zero =>
      rw [List.set_cons_zero, List.reduceOption_cons_of_none]
      exact (List.sublist_cons_self x s).filterMap _
    | succ i =>
      rw [List.set_cons_succ]
      cases x with
      | none =>
        rw [List.reduceOption_cons_of_none, List.reduceOption_cons_of_none]
        exact ih i
      | some x =>
        rw [List.reduceOption_cons_of_some, List.reduceOption_cons_of_some]
        exact (ih i).cons_cons x

theorem reduceOption_map_some (l : List α) : (l.map some).reduceOption = l := by
  induction l with
  | nil => rfl
  | cons x l ih => rw [List.map_cons, List.reduceOption_cons_of_some, ih]

/-- What is moved together does not get in front of the cursor. -/
theorem drop_reduceOption (s : List (Option α)) (i : Nat) : (s.reduceOption.drop i).Sublist (s.drop i).reduceOption := by
  have hlen : (s.take i).reduceOption.length ≤ i := Nat.le_trans (List.reduceOption_length_le _) (List.length_take_le i s)
  conv_lhs => rw [← List.take_append_drop i s, List.reduceOption_append, List.drop_append, List.drop_of_length_le hlen]
  exact List.drop_sublist _ _

/-- No change puts an element in front of the cursor that was not there, but at the end. -/
theorem drop_apply (s : List (Option α)) (es : List (Edit α)) (i : Nat) :
    ((apply s es).drop i).reduceOption.Sublist ((s.drop i).reduceOption ++ added es) := by
  induction es generalizing s with
  | nil =>
    rw [show added ([] : List (Edit α)) = [] from rfl, List.append_nil]
    exact .refl _
  | cons e es ih =>
    refine (ih (e.apply s)).trans ?_
    cases e with
    | add x =>
      show (((s ++ [some x]).drop i).reduceOption ++ added es).Sublist ((s.drop i).reduceOption ++ ([x] ++ added es))
      rw [List.drop_append, List.reduceOption_append, ← List.append_assoc]
      refine ((List.Sublist.refl _).append ?_).append (.refl _)
      exact (List.drop_sublist _ _).filterMap _
    | take j =>
      refine List.Sublist.append ?_ (.refl _)
      show ((s.set j none).drop i).reduceOption.Sublist _
      rw [List.drop_set]
      split
      · exact .refl _
      · exact reduceOption_set _ _
    | together =>
      refine List.Sublist.append ?_ (.refl _)
      show ((s.reduceOption.map some).drop i).reduceOption.Sublist _
      rw [← List.map_drop, reduceOption_map_some]
      exact drop_reduceOption s i
    | clear =>
      refine List.Sublist.append ?_ (.refl _)
      show (([] : List (Option α)).drop i).reduceOption.Sublist _
      rw [List.drop_nil]
      exact List.nil_sublist _

/-- What is in front of the cursor when it sees an element, and when it has seen it. -/
theorem drop_seen {k : Nat} {x : α} {rest : List (Option α)} (hx : s.drop i = List.replicate k none ++ some x :: rest) :
    (s.drop i).reduceOption = x :: (s.drop (i + k + 1)).reduceOption := by
  have hrest : s.drop (i + k + 1) = rest := by
    rw [show i + k + 1 = i + (k + 1) by omega, ← List.drop_drop, hx, ← List.drop_drop,
      List.drop_left' List.length_replicate]
    rfl
  rw [hx, List.reduceOption_append, List.reduceOption_replicate_none, List.reduceOption_cons_of_some, hrest]
  rfl

/-- Taking out the element that the cursor has seen leaves nothing more behind it than there was. -/
theorem take_set_seen {k : Nat} {x : α} {rest : List (Option α)}
    (hx : s.drop i = List.replicate k none ++ some x :: rest) :
    ((s.set (i + k) none).take (i + k + 1)).reduceOption = (s.take i).reduceOption := by
  have htake : (s.drop i).take (k + 1) = List.replicate k none ++ [some x] := by
    rw [hx, List.take_append, List.take_of_length_le (by simp), List.length_replicate, Nat.add_sub_cancel_left]
    rfl
  have hi : i < s.length := by
    have := congrArg List.length hx
    simp only [List.length_drop, List.length_append, List.length_replicate, List.length_cons] at this
    omega
  have hlen : (s.take i).length = i := by
    rw [List.length_take]
    omega
  rw [List.take_set, show i + k + 1 = i + (k + 1) by omega, List.take_add, htake, List.set_append_right _ _ (by omega),
    hlen, Nat.add_sub_cancel_left, List.set_append_right _ _ (by simp), List.length_replicate, Nat.sub_self]
  rw [List.set_cons_zero, List.reduceOption_append, List.reduceOption_append, List.reduceOption_replicate_none]
  show _ ++ ([] ++ []) = _
  rw [List.append_nil, List.append_nil]

/-- Each element is seen once at most, in the order of the row; what is in front of the cursor is still to be seen. -/
theorem Walk.sublist (h : Walk i s seen es j s') :
    (seen ++ (s'.drop j).reduceOption).Sublist ((s.drop i).reduceOption ++ added es) := by
  induction h with
  | start i s =>
    rw [List.nil_append]
    exact List.sublist_append_left _ _
  | @step i j s s' seen es es' k x rest hx h ih =>
    rw [drop_seen hx, added_append, List.cons_append, List.cons_append, ← List.append_assoc]
    exact (ih.trans ((drop_apply s es (i + k + 1)).append (.refl _))).cons_cons x

/-- Behind the cursor nothing is put, as long as elements stay where they are. -/
theorem take_apply (hstays : ∀ e ∈ es, e.Stays) (hi : i ≤ s.length) :
    ((apply s es).take i).reduceOption.Sublist (s.take i).reduceOption := by
  induction es generalizing s with
  | nil => exact .refl _
  | cons e es ih =>
    have hstays' := fun e' he' => hstays e' (List.mem_cons_of_mem _ he')
    cases e with
    | add x =>
      refine (ih hstays' (by simp [Edit.apply]; omega)).trans ?_
      show ((s ++ [some x]).take i).reduceOption.Sublist _
      rw [List.take_append_of_le_length hi]
    | take j =>
      refine (ih hstays' (by simpa [Edit.apply] using hi)).trans ?_
      show ((s.set j none).take i).reduceOption.Sublist _
      rw [List.take_set]
      exact reduceOption_set _ _
    | together => exact absurd (hstays .together List.mem_cons_self) id
    | clear => exact absurd (hstays .clear List.mem_cons_self) id

/-- What is behind the cursor was there when the walk began, or was seen. -/
theorem Walk.sees_all (h : Walk i s seen es j s') (hstays : ∀ e ∈ es, e.Stays) :
    (s'.take j).reduceOption.Sublist ((s.take i).reduceOption ++ seen) := by
  induction h with
  | start i s => rw [List.append_nil]
  | @step i j s s' seen es es' k x rest hx h ih =>
    have hlen : i + k + 1 ≤ s.length := by
      have := congrArg List.length hx
      simp only [List.length_drop, List.length_append, List.length_replicate, List.length_cons] at this
      omega
    refine (ih fun e he => hstays e (List.mem_append_right _ he)).trans ?_
    refine ((take_apply (fun e he => hstays e (List.mem_append_left _ he)) hlen).append (.refl _)).trans ?_
    have htake : (s.drop i).take (k + 1) = List.replicate k none ++ [some x] := by
      rw [hx, List.take_append, List.take_of_length_le (by simp), List.length_replicate, Nat.add_sub_cancel_left]
      rfl
    rw [show i + k + 1 = i + (k + 1) by omega, List.take_add, htake, List.reduceOption_append, List.reduceOption_append,
      List.reduceOption_replicate_none, List.append_assoc]
    exact .refl _

end
end Slots

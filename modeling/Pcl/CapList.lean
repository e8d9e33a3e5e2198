import Pcl.Str.Strtol

/-!
# Lists with a capacity

What a growing table stands for: the list of its elements and the number of elements it has room for.
Arrays and vectors grow alike, to twice the capacity, or to 8 from none. The capacity is doubled as an `int`.
-/

namespace Pcl

/-- The capacity that a full table grows to is an `int`. -/
def GrowsInInt (count capacity : Nat) : Prop := count = capacity → (capacity : Int) * 2 ≤ intMax

instance (count capacity : Nat) : Decidable (GrowsInInt count capacity) := by unfold GrowsInInt; infer_instance

structure CapList (β : Type) where
  list : List β
  capacity : Nat
  length_le : list.length ≤ capacity

namespace CapList
variable {β : Type}

def empty (capacity : Nat) : CapList β := ⟨[], capacity, Nat.zero_le _⟩

/-- The capacity after room was made for one more element. -/
def nextCapacity (t : CapList β) : Nat :=
  if t.list.length = t.capacity then if t.capacity > 0 then t.capacity * 2 else 8 else t.capacity

theorem lt_nextCapacity (t : CapList β) : t.list.length < t.nextCapacity := by
  have h := t.length_le
  unfold nextCapacity
  split
  · split <;> omega
  · omega

theorem nextCapacity_full {t : CapList β} (h : t.list.length = t.capacity) :
    t.nextCapacity = if t.capacity > 0 then t.capacity * 2 else 8 := if_pos h

theorem nextCapacity_room {t : CapList β} (h : t.list.length ≠ t.capacity) : t.nextCapacity = t.capacity := if_neg h

def insert (t : CapList β) (elem : β) (i : Nat) : CapList β where
  list := t.list.take i ++ elem :: t.list.drop i
  capacity := t.nextCapacity
  length_le := by
    have h := t.lt_nextCapacity
    rw [List.length_append, List.length_take, List.length_cons, List.length_drop]
    omega

theorem insert_length {t : CapList β} {i : Nat} (hi : i ≤ t.list.length) (elem : β) :
    (t.insert elem i).list.length = t.list.length + 1 := by
  show (t.list.take i ++ elem :: t.list.drop i).length = _
  rw [List.length_append, List.length_take, List.length_cons, List.length_drop]
  omega

def remove (t : CapList β) (i : Nat) : CapList β where
  list := t.list.eraseIdx i
  capacity := t.capacity
  length_le := Nat.le_trans (List.eraseIdx_sublist t.list i).length_le t.length_le

theorem remove_list (t : CapList β) (i : Nat) : (t.remove i).list = t.list.take i ++ t.list.drop (i + 1) :=
  List.eraseIdx_eq_take_drop_succ _ _

theorem remove_length {t : CapList β} {i : Nat} (hi : i < t.list.length) :
    (t.remove i).list.length = t.list.length - 1 := by
  rw [remove_list, List.length_append, List.length_take, List.length_drop]
  omega

end CapList
end Pcl

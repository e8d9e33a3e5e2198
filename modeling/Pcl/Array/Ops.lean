import Pcl.CapList
import Pcl.ErrState
import Pcl.Lib.Block

/-!
# Arrays

`src/array`: a table of pointers. A pointer is an `Option`, `NULL` is `none`, and the table is the
list of all its `capacity` slots. Beside its result each operation gives the pointers it passed to the
cleanup handler, in order. An index outside the table is undefined where the source does not check it.

`Refines`: the table holds a list, and `NULL` behind it. Every operation keeps this but
`pcl_array_remove`, which leaves the last pointer of the list in its slot.
-/

namespace Pcl

/-- `tag_pcl_array`; `cleanup` says whether there is a handler. -/
structure PArray (α : Type) where
  count : Nat
  capacity : Nat
  elements : List (Option α)
  cleanup : Bool

namespace PArray
variable {α : Type}

/-- `pcl_array`. -/
def new (initialCapacity : Int) (cleanup : Bool) : PArray α where
  count := 0
  capacity := initialCapacity.toNat
  elements := List.replicate initialCapacity.toNat none
  cleanup := cleanup

def list (arr : PArray α) : List (Option α) := arr.elements.take arr.count

/-- The pointers that are passed to the handler in place of `elem`. -/
def cleaned (arr : PArray α) (elem : Option α) : List (Option α) :=
  if elem.isSome ∧ arr.cleanup then [elem] else []

/-- The larger table of a full array; its new slots are set to `NULL`. -/
def grow (arr : PArray α) : PArray α :=
  if arr.count = arr.capacity then
    let capacity := if arr.capacity > 0 then arr.capacity * 2 else 8
    { arr with capacity := capacity, elements := arr.elements ++ List.replicate (capacity - arr.count) none }
  else arr

/-- `pcl_array_insert` with the `int` capacity it doubles taken as a number. -/
def insert (arr : PArray α) (elem : Option α) (index : Int) : ErrM (Int × PArray α × List (Option α)) :=
  let arr := arr.grow
  if index < 0 then ErrM.undef
  else
    let i := index.toNat
    -- memmove only required when NOT appending
    let moved := if i < arr.count then Block.move arr.elements (i + 1) i (arr.count - i) else some arr.elements
    match moved.bind fun elements => Block.store elements i [elem] with
    | none => ErrM.undef
    | some elements => pure (arr.count + 1, { arr with elements := elements, count := arr.count + 1 }, [])

/-- `pcl_array_append`, likewise. -/
def append (arr : PArray α) (elem : Option α) : ErrM (Int × PArray α × List (Option α)) := arr.insert elem arr.count

/-- `pcl_array_insert` with its `int` arithmetic. -/
def insertExec (arr : PArray α) (elem : Option α) (index : Int) : ErrM (Int × PArray α × List (Option α)) :=
  if GrowsInInt arr.count arr.capacity then arr.insert elem index else ErrM.undef

/-- `pcl_array_append` with its `int` arithmetic. -/
def appendExec (arr : PArray α) (elem : Option α) : ErrM (Int × PArray α × List (Option α)) :=
  arr.insertExec elem arr.count

/-- `pcl_array_set`. -/
def set (arr : PArray α) (elem : Option α) (index : Int) : ErrM (Int × PArray α × List (Option α)) :=
  if index < 0 ∨ index ≥ arr.capacity then do
    let r ← setErr (loc "array_set.c" "pcl_array_set" 42) eIndex
    return (r, arr, [])
  else
    let i := index.toNat
    match arr.elements[i]?, Block.store arr.elements i [elem] with
    | some cur, some elements =>
      pure (0, { arr with elements := elements, count := max arr.count (i + 1) }, arr.cleaned cur)
    | _, _ => ErrM.undef

/-- `pcl_array_remove`. -/
def remove (arr : PArray α) (index : Int) : ErrM (Int × PArray α × List (Option α)) :=
  if index < 0 ∨ index ≥ arr.count then do
    let r ← setErr (loc "array_remove.c" "pcl_array_remove" 43) eIndex
    return (r, arr, [])
  else
    let i := index.toNat
    -- no memmove required if removing last element
    let moved := if i < arr.count - 1 then Block.move arr.elements i (i + 1) (arr.count - i - 1) else some arr.elements
    match arr.elements[i]?, moved with
    | some elem, some elements =>
      pure ((arr.count : Int) - 1, { arr with elements := elements, count := arr.count - 1 }, arr.cleaned elem)
    | _, _ => ErrM.undef

/-- `pcl_array_get`. -/
def get (arr : PArray α) (index : Int) : ErrM (Option α) :=
  if index < 0 ∨ index ≥ arr.count then setErrNull (loc "array_get.c" "pcl_array_get" 43) eIndex
  else do
    let _ ← errClear
    match arr.elements[index.toNat]? with
    | none => ErrM.undef
    | some elem => return elem

/-- What `pcl_array_free` passes to the handler. -/
def free (arr : PArray α) : List (Option α) := if arr.cleanup then arr.elements.take arr.count else []

end PArray

theorem PArray.insert_of_exec {α : Type} {arr : PArray α} {elem : Option α} {index : Int} {e : ErrState}
    {p : (Int × PArray α × List (Option α)) × ErrState} (h : arr.insertExec elem index e = some p) :
    arr.insert elem index e = some p := by
  unfold PArray.insertExec at h
  split at h
  · exact h
  · cases h

/-! ### The list an array stands for -/

/-- Setting an element pads the list with `NULL` up to it. -/
def CapList.set {α : Type} (t : CapList (Option α)) (elem : Option α) (i : Nat) (h : i < t.capacity) :
    CapList (Option α) where
  list := (t.list ++ List.replicate (i + 1 - t.list.length) none).set i elem
  capacity := t.capacity
  length_le := by
    have h' := t.length_le
    rw [List.length_set, List.length_append, List.length_replicate]
    omega

/-- The array holds the list and `NULL` in every slot behind it. -/
structure PArray.Refines {α : Type} (arr : PArray α) (t : CapList (Option α)) (cleanup : Bool) : Prop where
  count_eq : arr.count = t.list.length
  capacity_eq : arr.capacity = t.capacity
  cleanup_eq : arr.cleanup = cleanup
  elements_eq : arr.elements = t.list ++ List.replicate (t.capacity - t.list.length) none

namespace PArray.Refines
variable {α : Type} {arr : PArray α} {t : CapList (Option α)} {cleanup : Bool}

theorem new (initialCapacity : Int) (cleanup : Bool) :
    (PArray.new initialCapacity cleanup : PArray α).Refines (.empty initialCapacity.toNat) cleanup :=
  ⟨rfl, rfl, rfl, rfl⟩

theorem cleaned_eq (h : arr.Refines t cleanup) (elem : Option α) :
    arr.cleaned elem = if cleanup then [elem].filter Option.isSome else [] := by
  unfold PArray.cleaned
  rw [h.cleanup_eq]
  cases elem <;> cases cleanup <;> rfl

/-- A full array gets room for one more element. -/
theorem grow (h : arr.Refines t cleanup) : arr.grow.count = t.list.length ∧ arr.grow.capacity = t.nextCapacity ∧
    arr.grow.cleanup = cleanup ∧ arr.grow.elements = t.list ++ List.replicate (t.nextCapacity - t.list.length) none := by
  have hlt := t.lt_nextCapacity
  unfold PArray.grow
  by_cases hfull : t.list.length = t.capacity
  · rw [if_pos (by rw [h.count_eq, h.capacity_eq, hfull])]
    have hcap := CapList.nextCapacity_full hfull
    rw [← h.capacity_eq] at hcap
    refine ⟨h.count_eq, hcap.symm, h.cleanup_eq, ?_⟩
    show arr.elements ++ List.replicate ((if arr.capacity > 0 then arr.capacity * 2 else 8) - arr.count) none = _
    rw [h.elements_eq, hfull, Nat.sub_self, List.replicate_zero, List.append_nil, hcap, h.count_eq, hfull]
  · rw [if_neg (by rw [h.count_eq, h.capacity_eq]; exact hfull)]
    have hcap := CapList.nextCapacity_room hfull
    exact ⟨h.count_eq, h.capacity_eq.trans hcap.symm, h.cleanup_eq, by rw [h.elements_eq, hcap]⟩

theorem insert (h : arr.Refines t cleanup) (elem : Option α) {i : Nat} (hi : i ≤ t.list.length) (e : ErrState) :
    ∃ arr', arr.insert elem i e = some (((t.list.length : Int) + 1, arr', []), e) ∧
      arr'.Refines (t.insert elem i) cleanup := by
  obtain ⟨hcount, hcap, hclean, helems⟩ := h.grow
  have hlt := t.lt_nextCapacity
  obtain ⟨k, hk⟩ : ∃ k, t.nextCapacity - t.list.length = k + 1 := ⟨t.nextCapacity - t.list.length - 1, by omega⟩
  have hpre : (t.list.take i).length = i := List.length_take_of_le hi
  have hsplit : arr.grow.elements = t.list.take i ++ (t.list.drop i ++ List.replicate (k + 1) none) := by
    rw [helems, hk, ← List.append_assoc, List.take_append_drop]
  have hstore : ∃ moved, (if i < arr.grow.count then Block.move arr.grow.elements (i + 1) i (arr.grow.count - i)
      else some arr.grow.elements) = some moved ∧
      Block.store moved i [elem] = some (t.list.take i ++ ([elem] ++ (t.list.drop i ++ List.replicate k none))) := by
    rw [hcount, hsplit]
    by_cases hlast : i < t.list.length
    · have hmove := Block.move_up (t.list.take i) (t.list.drop i) (List.replicate (k + 1) (none : Option α))
        (by simp : 1 ≤ _)
      rw [hpre, List.length_drop] at hmove
      refine ⟨_, by rw [if_pos hlast, hmove], ?_⟩
      have hst := Block.store_append (t.list.take i) ((t.list.drop i ++ List.replicate (k + 1) none).take 1) [elem]
        (t.list.drop i ++ (List.replicate (k + 1) none).drop 1) (by simp; omega)
      rw [hpre] at hst
      exact hst
    · have hdrop : t.list.drop i = [] := List.drop_of_length_le (by omega)
      refine ⟨_, if_neg hlast, ?_⟩
      have hst := Block.store_append (t.list.take i) [none] [elem] (List.replicate k none) rfl
      rw [hpre] at hst
      rw [hdrop]
      exact hst
  obtain ⟨moved, hmoved, hst⟩ := hstore
  refine ⟨{ arr.grow with
    elements := t.list.take i ++ ([elem] ++ (t.list.drop i ++ List.replicate k none))
    count := arr.grow.count + 1 }, ?_, ?_, hcap, hclean, ?_⟩
  · unfold PArray.insert
    simp only [Int.toNat_natCast]
    rw [if_neg (by omega), hmoved]
    simp only [Option.bind_some, hst]
    rw [hcount]
    rfl
  · show arr.grow.count + 1 = _
    rw [hcount, CapList.insert_length hi]
  · have hrest : t.nextCapacity - (t.insert elem i).list.length = k := by
      rw [CapList.insert_length hi]
      omega
    show _ = (t.list.take i ++ elem :: t.list.drop i) ++ List.replicate (t.nextCapacity - _) none
    rw [hrest]
    simp

theorem insertExec (h : arr.Refines t cleanup) (hgrow : GrowsInInt t.list.length t.capacity) (elem : Option α) {i : Nat}
    (hi : i ≤ t.list.length) (e : ErrState) :
    ∃ arr', arr.insertExec elem i e = some (((t.list.length : Int) + 1, arr', []), e) ∧
      arr'.Refines (t.insert elem i) cleanup := by
  unfold PArray.insertExec
  rw [h.count_eq, h.capacity_eq, if_pos hgrow]
  exact h.insert elem hi e

/-- A full array whose doubled capacity is no `int`. -/
theorem insertExec_full (h : arr.Refines t cleanup) (hgrow : ¬ GrowsInInt t.list.length t.capacity) (elem : Option α)
    (index : Int) : arr.insertExec elem index = ErrM.undef := by
  unfold PArray.insertExec
  rw [h.count_eq, h.capacity_eq, if_neg hgrow]

theorem getElem?_slot (h : arr.Refines t cleanup) {i : Nat} (hi : i < t.capacity) :
    arr.elements[i]? = some (t.list[i]?.join) := by
  have hle := t.length_le
  rw [h.elements_eq]
  by_cases hin : i < t.list.length
  · rw [List.getElem?_append_left hin, List.getElem?_eq_getElem hin]
    rfl
  · rw [List.getElem?_append_right (by omega), List.getElem?_replicate, if_pos (by omega), List.getElem?_eq_none (by omega)]
    rfl

theorem set (h : arr.Refines t cleanup) (elem : Option α) {i : Nat} (hi : i < t.capacity) (e : ErrState) :
    ∃ arr', arr.set elem i e = some ((0, arr', if cleanup then [t.list[i]?.join].filter Option.isSome else []), e) ∧
      arr'.Refines (t.set elem i hi) cleanup := by
  have hle := t.length_le
  have hlen : arr.elements.length = t.capacity := by
    rw [h.elements_eq, List.length_append, List.length_replicate]
    omega
  have hstore : Block.store arr.elements i [elem] = some (arr.elements.set i elem) := by
    unfold Block.store
    rw [if_pos (by rw [hlen]; exact hi), List.set_eq_take_append_cons_drop, if_pos (by rw [hlen]; exact hi)]
    simp
  refine ⟨{ arr with elements := arr.elements.set i elem, count := max arr.count (i + 1) }, ?_, ?_, h.capacity_eq,
    h.cleanup_eq, ?_⟩
  · unfold PArray.set
    have hin : ¬ ((i : Int) < 0 ∨ (i : Int) ≥ arr.capacity) := by
      rw [h.capacity_eq]
      omega
    rw [if_neg hin]
    simp only [Int.toNat_natCast, h.getElem?_slot hi, hstore, h.cleaned_eq]
    rfl
  · show max arr.count (i + 1) = ((t.list ++ List.replicate (i + 1 - t.list.length) none).set i elem).length
    rw [List.length_set, List.length_append, List.length_replicate, h.count_eq]
    omega
  · show arr.elements.set i elem = (t.list ++ List.replicate (i + 1 - t.list.length) none).set i elem ++ List.replicate _ none
    have hsplit : List.replicate (t.capacity - t.list.length) (none : Option α) =
        List.replicate (i + 1 - t.list.length) none ++ List.replicate (t.capacity - max t.list.length (i + 1)) none := by
      rw [List.replicate_append_replicate]
      congr 1
      omega
    have hrest : (t.set elem i hi).capacity - (t.set elem i hi).list.length = t.capacity - max t.list.length (i + 1) := by
      show t.capacity - ((t.list ++ List.replicate (i + 1 - t.list.length) none).set i elem).length = _
      rw [List.length_set, List.length_append, List.length_replicate]
      omega
    rw [hrest, h.elements_eq, hsplit, ← List.append_assoc, List.set_append_left]
    rw [List.length_append, List.length_replicate]
    omega

/-- Removing an element; its slot at the end of the list keeps the last pointer. -/
theorem remove (h : arr.Refines t cleanup) {i : Nat} (hi : i < t.list.length) (e : ErrState) :
    ∃ arr', arr.remove i e =
        some (((t.list.length : Int) - 1, arr', if cleanup then [t.list[i]].filter Option.isSome else []), e) ∧
      (arr'.Refines (t.remove i) cleanup ↔ t.list.getLast? = some none) := by
  have hle := t.length_le
  have hpre : (t.list.take i).length = i := List.length_take_of_le hi.le
  have hcons : t.list.drop i = t.list[i] :: t.list.drop (i + 1) := List.drop_eq_getElem_cons hi
  have hsplit : arr.elements = t.list.take i ++ ([t.list[i]] ++ (t.list.drop (i + 1) ++
      List.replicate (t.capacity - t.list.length) none)) := by
    rw [h.elements_eq, ← List.append_assoc [t.list[i]], List.singleton_append, ← hcons, ← List.append_assoc,
      List.take_append_drop]
  -- the last pointer of the list
  obtain ⟨front, last, hlast⟩ : ∃ front last, [t.list[i]] ++ t.list.drop (i + 1) = front ++ [last] :=
    ⟨_, _, (List.dropLast_concat_getLast (List.cons_ne_nil t.list[i] (t.list.drop (i + 1)))).symm⟩
  have hfront : front.length = (t.list.drop (i + 1)).length := by
    have hl := congrArg List.length hlast
    simp only [List.length_append, List.length_cons, List.length_nil] at hl
    omega
  have hgap : ([t.list[i]] ++ t.list.drop (i + 1)).drop (t.list.drop (i + 1)).length = [last] := by
    rw [hlast, List.drop_left' hfront]
  have hlist : t.list = t.list.take i ++ (front ++ [last]) := by
    rw [← hlast, List.singleton_append, ← hcons, List.take_append_drop]
  have hget : t.list.getLast? = some last := by
    rw [hlist, ← List.append_assoc, List.getLast?_concat]
  have hmoved : (if i < arr.count - 1 then Block.move arr.elements i (i + 1) (arr.count - i - 1) else some arr.elements) =
      some (t.list.take i ++ (t.list.drop (i + 1) ++ ([last] ++ List.replicate (t.capacity - t.list.length) none))) := by
    rw [h.count_eq]
    by_cases hmid : i < t.list.length - 1
    · have hmove := Block.move_down (t.list.take i) (t.list.drop (i + 1)) [t.list[i]]
        (List.replicate (t.capacity - t.list.length) none)
      rw [← hsplit, hgap, hpre, List.length_drop] at hmove
      have hn : t.list.length - i - 1 = t.list.length - (i + 1) := by omega
      rw [if_pos hmid, hn]
      exact hmove
    · have hnil : t.list.drop (i + 1) = [] := List.drop_of_length_le (by omega)
      rw [hnil] at hgap hsplit ⊢
      rw [if_neg hmid, hsplit]
      exact congrArg (fun l => some (t.list.take i ++ (l ++ _))) hgap
  refine ⟨{ arr with
    elements := t.list.take i ++ (t.list.drop (i + 1) ++ ([last] ++ List.replicate (t.capacity - t.list.length) none))
    count := arr.count - 1 }, ?_, ?_⟩
  · unfold PArray.remove
    have hin : ¬ ((i : Int) < 0 ∨ (i : Int) ≥ arr.count) := by
      rw [h.count_eq]
      omega
    rw [if_neg hin]
    simp only [Int.toNat_natCast, h.getElem?_slot (hi.trans_le hle), hmoved, List.getElem?_eq_getElem hi,
      Option.join_some, h.cleaned_eq]
    rw [h.count_eq]
    rfl
  · rw [hget, Option.some_inj]
    have herase := t.remove_list i
    have hrest : (t.remove i).capacity - (t.remove i).list.length = (t.capacity - t.list.length) + 1 := by
      rw [CapList.remove_length hi]
      show t.capacity - _ = _
      omega
    constructor
    · intro hr
      have helems := hr.elements_eq
      rw [hrest, herase, List.append_assoc, List.replicate_succ] at helems
      have htail := List.append_cancel_left (List.append_cancel_left helems)
      exact (List.cons.inj htail).1
    · rintro rfl
      refine ⟨?_, h.capacity_eq, h.cleanup_eq, ?_⟩
      · show arr.count - 1 = _
        rw [CapList.remove_length hi, h.count_eq]
      · rw [hrest, herase, List.append_assoc, List.replicate_succ]
        rfl

theorem get (h : arr.Refines t cleanup) {i : Nat} (hi : i < t.list.length) (e : ErrState) :
    arr.get i e = some (t.list[i], e.cleared) := by
  have hin : ¬ ((i : Int) < 0 ∨ (i : Int) ≥ arr.count) := by
    rw [h.count_eq]
    omega
  unfold PArray.get
  rw [if_neg hin, ErrM.bind_run, errClear_run]
  simp only [Option.bind_some, Int.toNat_natCast, h.getElem?_slot (hi.trans_le t.length_le), List.getElem?_eq_getElem hi]
  rfl

end PArray.Refines
end Pcl

import Pcl.CapList
import Pcl.Lib.Block

/-!
# Vectors

`src/vector`: elements of `size` bytes in one block. The block behind `elems` is the list of its bytes,
`none` where nothing was written since it was allocated, and the pointer itself may never have been set
(`wild`): `pcl_vector` leaves it so when it allocates no block. What the allocator answers to a request of
no bytes is an argument of the operations that reallocate.
-/

namespace Pcl

/-- Where an operation on memory goes wrong: a pointer that was never set or lies outside its block, or an
allocation that fails, which calls the fatal memory error handler. -/
inductive MemFault where
  | badPointer
  | outside
  | memoryError

inductive Elems where
  | wild
  | null
  | block (bytes : List (Option UInt8))

def Elems.bytes : Elems → List (Option UInt8)
  | .block bytes => bytes
  | .wild | .null => []

/-- `pcl_realloc`; requests of at least one byte succeed, `nullForZero` is whether one of no bytes fails. -/
def pclRealloc (ptr : Elems) (n : Nat) (nullForZero : Bool) : Except MemFault Elems :=
  match ptr with
  | .wild => .error .badPointer
  | ptr =>
    if n = 0 ∧ nullForZero then .error .memoryError
    else .ok (.block (ptr.bytes.take n ++ List.replicate (n - ptr.bytes.length) none))

/-- `tag_pcl_vector`; `cleanup` says whether there is a cleanup callback. -/
structure PVector where
  count : Nat
  capacity : Nat
  size : Nat
  elems : Elems
  cleanup : Bool

namespace PVector

/-- `pcl_vector`. -/
def new (capacity : Int) (elemsize : Nat) (cleanup : Bool) : PVector where
  count := 0
  capacity := capacity.toNat
  size := elemsize
  elems := if capacity.toNat ≠ 0 then .block (List.replicate (capacity.toNat * elemsize) none) else .wild
  cleanup := cleanup

/-- `pcl_vector_get`: the bytes of an element. -/
def get (v : PVector) (pos : Nat) : List (Option UInt8) := (v.elems.bytes.drop (pos * v.size)).take v.size

/-- The block of a full vector grows. -/
def grow (v : PVector) (nullForZero : Bool) : Except MemFault PVector :=
  if v.count = v.capacity then do
    let capacity := if v.capacity ≠ 0 then v.capacity * 2 else 8
    let elems ← pclRealloc v.elems (capacity * v.size) nullForZero
    return { v with capacity := capacity, elems := elems }
  else return v

/-- `pcl_vector_insert`; the result is the offset of the new element, an absent `elem` inserts a zeroed one. -/
def insert (v : PVector) (elem : Option (List UInt8)) (pos : Int) (nullForZero : Bool) :
    Except MemFault (Option Nat × PVector) :=
  if pos > v.count then return (none, v)
  else do
    let v ← v.grow nullForZero
    if pos < 0 then .error .outside
    else
      let i := pos.toNat
      -- memmove only required when NOT appending
      let moved := if i < v.count then
          Block.move v.elems.bytes ((i + 1) * v.size) (i * v.size) ((v.count - i) * v.size)
        else some v.elems.bytes
      let elem := (elem.getD (List.replicate v.size 0)).map some
      match moved.bind fun bytes => Block.store bytes (i * v.size) elem with
      | none => .error .outside
      | some bytes => return (some (i * v.size), { v with elems := .block bytes, count := v.count + 1 })

/-- `pcl_vector_append`. -/
def append (v : PVector) (elem : Option (List UInt8)) (nullForZero : Bool) : Except MemFault (Option Nat × PVector) :=
  v.insert elem v.count nullForZero

/-- `pcl_vector_remove`, with the elements it passed to the callback. -/
def remove (v : PVector) (pos : Int) : Except MemFault (Int × PVector × List (List (Option UInt8))) :=
  if 0 ≤ pos ∧ pos < v.count then
    let i := pos.toNat
    let cleaned := if v.cleanup then [v.get i] else []
    -- memmove only when NOT last elem
    let moved := if i < v.count - 1 then
        Block.move v.elems.bytes (i * v.size) ((i + 1) * v.size) ((v.count - i - 1) * v.size)
      else some v.elems.bytes
    match moved with
    | none => .error .outside
    | some bytes => return (0, { v with elems := .block bytes, count := v.count - 1 }, cleaned)
  else return (-1, v, [])

/-- `pcl_vector_clear`, with the elements it passed to the callback. -/
def clear (v : PVector) : PVector × List (List (Option UInt8)) :=
  ({ v with count := 0 }, if v.cleanup then (List.range v.count).map v.get else [])

/-- `pcl_vector_compact`. -/
def compact (v : PVector) (nullForZero : Bool) : Except MemFault PVector :=
  if v.count < v.capacity then do
    let elems ← pclRealloc v.elems (v.count * v.size) nullForZero
    return { v with capacity := v.count, elems := elems }
  else return v

end PVector

/-! ### The list a vector stands for -/

/-- An element of a vector. -/
abbrev Elem (size : Nat) := { x : List UInt8 // x.length = size }

def Elem.zero (size : Nat) : Elem size := ⟨List.replicate size 0, List.length_replicate⟩

namespace Elem
variable {size : Nat}

/-- The bytes of the elements, one after the other. -/
def bytes (l : List (Elem size)) : List (Option UInt8) := l.flatMap fun x => x.1.map some

theorem bytes_append (l l' : List (Elem size)) : bytes (l ++ l') = bytes l ++ bytes l' := List.flatMap_append

theorem bytes_cons (x : Elem size) (l : List (Elem size)) : bytes (x :: l) = x.1.map some ++ bytes l := rfl

@[simp] theorem bytes_length (l : List (Elem size)) : (bytes l).length = l.length * size := by
  induction l with
  | nil => simp [bytes]
  | cons x l ih =>
    rw [bytes_cons, List.length_append, List.length_map, x.2, ih, List.length_cons, Nat.succ_mul, Nat.add_comm]

end Elem

def CapList.clear {β : Type} (t : CapList β) : CapList β := ⟨[], t.capacity, Nat.zero_le _⟩

/-- The capacity is cut down to the elements. -/
def CapList.compact {β : Type} (t : CapList β) : CapList β := ⟨t.list, t.list.length, Nat.le_refl _⟩

/-- The vector holds the elements of the list, byte for byte. -/
structure PVector.Refines {size : Nat} (v : PVector) (t : CapList (Elem size)) (cleanup : Bool) : Prop where
  count_eq : v.count = t.list.length
  capacity_eq : v.capacity = t.capacity
  size_eq : v.size = size
  cleanup_eq : v.cleanup = cleanup
  bytes_eq : v.elems.bytes.take (t.list.length * size) = Elem.bytes t.list

/-- It owns a block of its capacity. -/
structure PVector.Owns {size : Nat} (v : PVector) (t : CapList (Elem size)) (cleanup : Bool) : Prop where
  count_eq : v.count = t.list.length
  capacity_eq : v.capacity = t.capacity
  size_eq : v.size = size
  cleanup_eq : v.cleanup = cleanup
  elems_eq : ∃ rest, v.elems = .block (Elem.bytes t.list ++ rest) ∧
    rest.length = (t.capacity - t.list.length) * size

namespace PVector.Owns
variable {size : Nat} {v : PVector} {t : CapList (Elem size)} {cleanup : Bool}

theorem refines (h : v.Owns t cleanup) : v.Refines t cleanup := by
  obtain ⟨rest, helems, -⟩ := h.elems_eq
  refine ⟨h.count_eq, h.capacity_eq, h.size_eq, h.cleanup_eq, ?_⟩
  rw [helems]
  exact List.take_left' (Elem.bytes_length _)

theorem new {capacity : Int} (hc : 0 < capacity) (size : Nat) (cleanup : Bool) :
    (PVector.new capacity size cleanup).Owns (.empty capacity.toNat : CapList (Elem size)) cleanup := by
  refine ⟨rfl, rfl, rfl, rfl, List.replicate (capacity.toNat * size) none, ?_, ?_⟩
  · show (if capacity.toNat ≠ 0 then _ else _) = _
    rw [if_pos (by omega)]
    rfl
  · rw [List.length_replicate]
    rfl

theorem realloc_block (bytes : List (Option UInt8)) {n : Nat} {nullForZero : Bool} (hn : n = 0 → nullForZero = false) :
    pclRealloc (.block bytes) n nullForZero = .ok (.block (bytes.take n ++ List.replicate (n - bytes.length) none)) := by
  unfold pclRealloc
  simp only
  have hok : ¬ (n = 0 ∧ nullForZero = true) := fun hbad => by simp [hn hbad.1] at hbad
  rw [if_neg hok]
  rfl

theorem grow (h : v.Owns t cleanup) {nullForZero : Bool} (hs : t.list.length = t.capacity → size = 0 → nullForZero = false) :
    ∃ v' rest, v.grow nullForZero = .ok v' ∧ v'.count = t.list.length ∧ v'.capacity = t.nextCapacity ∧ v'.size = size ∧
      v'.cleanup = cleanup ∧ v'.elems = .block (Elem.bytes t.list ++ rest) ∧
      rest.length = (t.nextCapacity - t.list.length) * size := by
  obtain ⟨rest, helems, hrest⟩ := h.elems_eq
  have hlt := t.lt_nextCapacity
  by_cases hfull : t.list.length = t.capacity
  · have hcap := CapList.nextCapacity_full hfull
    have hpos : t.nextCapacity * size = 0 → nullForZero = false := fun h0 =>
      hs hfull ((Nat.mul_eq_zero.1 h0).resolve_left (by omega))
    have hnil : rest = [] := by
      rw [hfull, Nat.sub_self, Nat.zero_mul] at hrest
      exact List.eq_nil_of_length_eq_zero hrest
    have hlen : (Elem.bytes t.list).length ≤ t.nextCapacity * size := by
      rw [Elem.bytes_length]
      exact Nat.mul_le_mul_right size (Nat.le_of_lt hlt)
    have hcapacity : (if v.capacity ≠ 0 then v.capacity * 2 else 8) = t.nextCapacity := by
      rw [hcap, h.capacity_eq]
      by_cases h0 : t.capacity = 0
      · rw [if_neg (not_not_intro h0), if_neg (by omega)]
      · rw [if_pos h0, if_pos (by omega)]
    refine ⟨{ v with
      capacity := t.nextCapacity
      elems := .block (Elem.bytes t.list ++ List.replicate ((t.nextCapacity - t.list.length) * size) none) },
      _, ?_, h.count_eq, rfl, h.size_eq, h.cleanup_eq, rfl, List.length_replicate⟩
    unfold PVector.grow
    rw [if_pos (by rw [h.count_eq, h.capacity_eq, hfull])]
    simp only [hcapacity, h.size_eq, helems, hnil, List.append_nil, realloc_block _ hpos, List.take_of_length_le hlen,
      Elem.bytes_length, Nat.sub_mul]
    rfl
  · have hcap := CapList.nextCapacity_room hfull
    refine ⟨v, rest, ?_, h.count_eq, h.capacity_eq.trans hcap.symm, h.size_eq, h.cleanup_eq, helems, by rw [hcap, hrest]⟩
    unfold PVector.grow
    rw [if_neg (by rw [h.count_eq, h.capacity_eq]; exact hfull)]
    rfl

theorem insert (h : v.Owns t cleanup) {nullForZero : Bool} (hs : t.list.length = t.capacity → size = 0 → nullForZero = false)
    (elem : Option (Elem size)) {i : Nat} (hi : i ≤ t.list.length) :
    ∃ v', v.insert (elem.map Subtype.val) i nullForZero = .ok (some (i * size), v') ∧
      v'.Owns (t.insert (elem.getD (.zero size)) i) cleanup := by
  obtain ⟨g, rest, hgrow, hcount, hcap, hsize, hclean, helems, hrest⟩ := h.grow hs
  have hlt := t.lt_nextCapacity
  have hroom : size ≤ rest.length := by
    rw [hrest]
    exact Nat.le_mul_of_pos_left size (by omega)
  let x := elem.getD (.zero size)
  have helem : ((elem.map Subtype.val).getD (List.replicate size 0)).map some = x.1.map some := by
    cases elem <;> rfl
  have hxlen : (x.1.map some).length = size := by rw [List.length_map, x.2]
  have hpre : (Elem.bytes (t.list.take i)).length = i * size := by
    rw [Elem.bytes_length, List.length_take_of_le hi]
  have hsplit : Elem.bytes t.list ++ rest = Elem.bytes (t.list.take i) ++ (Elem.bytes (t.list.drop i) ++ rest) := by
    rw [← List.append_assoc, ← Elem.bytes_append, List.take_append_drop]
  have hstore : ∃ moved, (if i < g.count then Block.move g.elems.bytes ((i + 1) * size) (i * size) ((g.count - i) * size)
      else some g.elems.bytes) = some moved ∧ Block.store moved (i * size) (x.1.map some) =
        some (Elem.bytes (t.list.take i) ++ (x.1.map some ++ (Elem.bytes (t.list.drop i) ++ rest.drop size))) := by
    have hbytes : g.elems.bytes = Elem.bytes t.list ++ rest := by
      rw [helems]
      rfl
    rw [hcount, hbytes, hsplit]
    by_cases hlast : i < t.list.length
    · have hmove := Block.move_up (Elem.bytes (t.list.take i)) (Elem.bytes (t.list.drop i)) rest hroom
      rw [hpre, Elem.bytes_length, List.length_drop, ← Nat.succ_mul] at hmove
      refine ⟨_, by rw [if_pos hlast, hmove], ?_⟩
      have hst := Block.store_append (Elem.bytes (t.list.take i)) ((Elem.bytes (t.list.drop i) ++ rest).take size)
        (x.1.map some) (Elem.bytes (t.list.drop i) ++ rest.drop size) (by
          rw [hxlen, List.length_take, List.length_append]
          omega)
      rw [hpre] at hst
      exact hst
    · have hdrop : t.list.drop i = [] := List.drop_of_length_le (by omega)
      refine ⟨_, if_neg hlast, ?_⟩
      have hst := Block.store_append_drop (Elem.bytes (t.list.take i)) (x.1.map some) rest
        (Nat.le_trans (Nat.le_of_eq hxlen) hroom)
      rw [hpre, hxlen] at hst
      rw [hdrop]
      exact hst
  obtain ⟨moved, hmoved, hst⟩ := hstore
  refine ⟨{ g with
    elems := .block (Elem.bytes (t.list.take i) ++ (x.1.map some ++ (Elem.bytes (t.list.drop i) ++ rest.drop size)))
    count := g.count + 1 }, ?_, ?_, hcap, hsize, hclean, rest.drop size, ?_, ?_⟩
  · unfold PVector.insert
    have hbind (f : PVector → Except MemFault (Option Nat × PVector)) : (Except.ok g >>= f) = f g := rfl
    rw [if_neg (by rw [h.count_eq]; omega), hgrow, hbind, if_neg (by omega)]
    simp only [Int.toNat_natCast, hsize, helem]
    rw [hmoved]
    simp only [Option.bind_some, hst]
    rfl
  · show g.count + 1 = _
    rw [hcount, CapList.insert_length hi]
  · show Elems.block _ = Elems.block (Elem.bytes (t.list.take i ++ x :: t.list.drop i) ++ _)
    rw [Elem.bytes_append, Elem.bytes_cons]
    simp only [List.append_assoc]
  · rw [CapList.insert_length hi, List.length_drop, hrest]
    show _ = (t.nextCapacity - (t.list.length + 1)) * size
    rw [← Nat.sub_sub, Nat.sub_mul (t.nextCapacity - t.list.length), Nat.one_mul]

/-- The block around an element, the `i`-th from `i * size` on. -/
theorem split_at (h : v.Owns t cleanup) {i : Nat} (hi : i < t.list.length) :
    ∃ rest, v.elems.bytes =
        Elem.bytes (t.list.take i) ++ (t.list[i].1.map some ++ (Elem.bytes (t.list.drop (i + 1)) ++ rest)) ∧
      (Elem.bytes (t.list.take i)).length = i * size ∧ rest.length = (t.capacity - t.list.length) * size := by
  obtain ⟨rest, helems, hrest⟩ := h.elems_eq
  refine ⟨rest, ?_, ?_, hrest⟩
  · rw [helems, ← List.append_assoc (t.list[i].1.map some), ← Elem.bytes_cons, ← List.drop_eq_getElem_cons hi,
      ← List.append_assoc, ← Elem.bytes_append, List.take_append_drop]
    rfl
  · rw [Elem.bytes_length, List.length_take_of_le (Nat.le_of_lt hi)]

theorem get (h : v.Owns t cleanup) {i : Nat} (hi : i < t.list.length) : v.get i = t.list[i].1.map some := by
  obtain ⟨rest, hsplit, hpre, -⟩ := h.split_at hi
  unfold PVector.get
  rw [h.size_eq, hsplit, List.drop_left' hpre, List.take_left' (by rw [List.length_map, t.list[i].2])]

theorem remove (h : v.Owns t cleanup) {i : Nat} (hi : i < t.list.length) :
    ∃ v', v.remove i = .ok (0, v', if cleanup then [t.list[i].1.map some] else []) ∧ v'.Owns (t.remove i) cleanup := by
  obtain ⟨rest, hsplit, hpre, hrest⟩ := h.split_at hi
  have hle := t.length_le
  have hgap : (t.list[i].1.map some).length = size := by rw [List.length_map, t.list[i].2]
  -- what is left of the last element behind the others
  let left := (t.list[i].1.map some ++ Elem.bytes (t.list.drop (i + 1))).drop (Elem.bytes (t.list.drop (i + 1))).length
  have hleft : left.length = size := by
    rw [List.length_drop, List.length_append, hgap, Nat.add_sub_cancel]
  have hmoved : (if i < v.count - 1 then
      Block.move v.elems.bytes (i * size) ((i + 1) * size) ((v.count - i - 1) * size) else some v.elems.bytes) =
      some (Elem.bytes (t.list.take i) ++ (Elem.bytes (t.list.drop (i + 1)) ++ (left ++ rest))) := by
    rw [h.count_eq, hsplit]
    by_cases hmid : i < t.list.length - 1
    · have hmove := Block.move_down (Elem.bytes (t.list.take i)) (Elem.bytes (t.list.drop (i + 1)))
        (t.list[i].1.map some) rest
      rw [hpre, hgap, Elem.bytes_length, List.length_drop, ← Nat.succ_mul] at hmove
      rw [if_pos hmid, Nat.sub_sub, hmove]
      have hlen : (t.list.length - (i + 1)) * size = (Elem.bytes (t.list.drop (i + 1))).length := by
        rw [Elem.bytes_length, List.length_drop]
      rw [hlen]
    · have hnil : Elem.bytes (t.list.drop (i + 1)) = [] := by
        rw [List.drop_of_length_le (by omega)]
        rfl
      have hall : left = t.list[i].1.map some := by
        show (t.list[i].1.map some ++ Elem.bytes (t.list.drop (i + 1))).drop _ = _
        rw [hnil, List.append_nil]
        rfl
      rw [if_neg hmid, hall, hnil]
      rfl
  refine ⟨{ v with
    elems := .block (Elem.bytes (t.list.take i) ++ (Elem.bytes (t.list.drop (i + 1)) ++ (left ++ rest)))
    count := v.count - 1 }, ?_, ?_, h.capacity_eq, h.size_eq, h.cleanup_eq, left ++ rest, ?_, ?_⟩
  · unfold PVector.remove
    rw [if_pos (by rw [h.count_eq]; omega)]
    simp only [Int.toNat_natCast, h.size_eq, hmoved, h.cleanup_eq, h.get hi]
    rfl
  · rw [CapList.remove_length hi, ← h.count_eq]
  · show Elems.block _ = _
    rw [CapList.remove_list, Elem.bytes_append, List.append_assoc]
  · rw [List.length_append, hleft, hrest, CapList.remove_length hi]
    show _ = (t.capacity - (t.list.length - 1)) * size
    have hcap : t.capacity - (t.list.length - 1) = t.capacity - t.list.length + 1 := by omega
    rw [hcap, Nat.succ_mul, Nat.add_comm]

theorem clear (h : v.Owns t cleanup) : v.clear.1.Owns t.clear cleanup ∧
    v.clear.2 = if cleanup then t.list.map fun x => x.1.map some else [] := by
  obtain ⟨rest, helems, hrest⟩ := h.elems_eq
  constructor
  · refine ⟨rfl, h.capacity_eq, h.size_eq, h.cleanup_eq, Elem.bytes t.list ++ rest, helems, ?_⟩
    rw [List.length_append, hrest, Elem.bytes_length, ← Nat.add_mul]
    show _ = (t.capacity - 0) * size
    rw [Nat.add_sub_cancel' t.length_le, Nat.sub_zero]
  · unfold PVector.clear
    rw [h.cleanup_eq, h.count_eq]
    cases cleanup with
    | false => rfl
    | true =>
      show (List.range t.list.length).map v.get = t.list.map _
      refine List.ext_getElem (by simp) fun i hi hi' => ?_
      rw [List.getElem_map, List.getElem_range, List.getElem_map]
      exact h.get (by simpa using hi)

/-- A vector is cut down to its elements, if there are any. -/
theorem compact (h : v.Owns t cleanup) (hs : 0 < size) {nullForZero : Bool}
    (hne : t.list = [] → 0 < t.capacity → nullForZero = false) :
    ∃ v', v.compact nullForZero = .ok v' ∧ v'.Owns t.compact cleanup := by
  obtain ⟨rest, helems, hrest⟩ := h.elems_eq
  have hle := t.length_le
  unfold PVector.compact
  by_cases hroom : v.count < v.capacity
  · have hblock : pclRealloc v.elems (v.count * v.size) nullForZero = .ok (.block (Elem.bytes t.list)) := by
      rw [helems, h.count_eq, h.size_eq]
      unfold pclRealloc
      simp only
      have hok : ¬ (t.list.length * size = 0 ∧ nullForZero = true) := by
        rintro ⟨h0, hnull⟩
        have hlen : t.list.length = 0 := (Nat.mul_eq_zero.1 h0).resolve_right (by omega)
        rw [h.count_eq, h.capacity_eq] at hroom
        rw [hne (List.eq_nil_of_length_eq_zero hlen) (by omega)] at hnull
        cases hnull
      rw [if_neg hok]
      show Except.ok (Elems.block ((Elem.bytes t.list ++ rest).take _ ++
        List.replicate (_ - (Elem.bytes t.list ++ rest).length) none)) = _
      rw [List.take_left' (Elem.bytes_length _), List.length_append, Elem.bytes_length,
        Nat.sub_eq_zero_of_le (Nat.le_add_right _ _),
        List.replicate_zero, List.append_nil]
    refine ⟨{ v with capacity := v.count, elems := .block (Elem.bytes t.list) }, ?_, h.count_eq, h.count_eq, h.size_eq,
      h.cleanup_eq, [], by rw [List.append_nil]; rfl, ?_⟩
    · rw [if_pos hroom, hblock]
      rfl
    · show 0 = (t.list.length - t.list.length) * size
      rw [Nat.sub_self, Nat.zero_mul]
  · have hfull : t.capacity = t.list.length := by
      rw [h.count_eq, h.capacity_eq] at hroom
      omega
    exact ⟨v, if_neg hroom, h.count_eq, h.capacity_eq.trans hfull, h.size_eq, h.cleanup_eq, rest, helems, by
      rw [hrest, hfull]
      rfl⟩

end PVector.Owns
end Pcl

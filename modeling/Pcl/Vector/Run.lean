import Pcl.Lib.Follow
import Pcl.Vector.Ops

/-!
# Runs of vector operations

A run on a new vector against the same run on a list of elements. A step that hands the allocator a
pointer the vector does not own, leaves its block or calls the memory error handler is no step at all
(`VectorOp.step` is `none`). Two things lead there: inserting into a vector that was created without
capacity, whose block pointer was never set, and compacting an empty vector where a reallocation to no
bytes gives `NULL`. `vector_meets_iff` says that these are all.
-/

namespace Pcl
variable {size : Nat}

/-- The operations; `nullForZero` is what the allocator does with a request of no bytes. -/
inductive VectorOp (size : Nat) where
  | append (elem : Option (Elem size)) (nullForZero : Bool)
  | insert (elem : Option (Elem size)) (index : Nat) (nullForZero : Bool)
  | remove (index : Int)
  | clear
  | compact (nullForZero : Bool)

/-- What an operation returns, with the elements it passed to the callback. -/
inductive VectorRet where
  | ptr (offset : Option Nat)
  | int (r : Int) (cleaned : List (List (Option UInt8)))
  | self (cleaned : List (List (Option UInt8)))

namespace VectorOp

/-- The operation on the vector. -/
def run (v : PVector) : VectorOp size → Except MemFault (VectorRet × PVector)
  | .append elem nullForZero => do
    let (offset, v) ← v.append (elem.map Subtype.val) nullForZero
    return (.ptr offset, v)
  | .insert elem index nullForZero => do
    let (offset, v) ← v.insert (elem.map Subtype.val) index nullForZero
    return (.ptr offset, v)
  | .remove index => do
    let (r, v, cleaned) ← v.remove index
    return (.int r cleaned, v)
  | .clear => return (.self v.clear.2, v.clear.1)
  | .compact nullForZero => do
    let v ← v.compact nullForZero
    return (.self [], v)

def step (v : PVector) (op : VectorOp size) : Option (VectorRet × PVector) := (op.run v).toOption

/-- The operation on the list. -/
def next (t : CapList (Elem size)) : VectorOp size → CapList (Elem size)
  | .append elem _ => t.insert (elem.getD (.zero size)) t.list.length
  | .insert elem index _ => t.insert (elem.getD (.zero size)) index
  | .remove index => if 0 ≤ index ∧ index.toNat < t.list.length then t.remove index.toNat else t
  | .clear => t.clear
  | .compact _ => t.compact

def answer (cleanup : Bool) (t : CapList (Elem size)) : VectorOp size → VectorRet
  | .append _ _ => .ptr (some (t.list.length * size))
  | .insert _ index _ => .ptr (some (index * size))
  | .remove index =>
    if h : 0 ≤ index ∧ index.toNat < t.list.length then
      .int 0 (if cleanup then [t.list[index.toNat].1.map some] else [])
    else .int (-1) []
  | .clear => .self (if cleanup then t.list.map fun x => x.1.map some else [])
  | .compact _ => .self []

/-- An element is inserted inside the list or at its end. -/
def Legal (t : CapList (Elem size)) : VectorOp size → Prop
  | .insert _ index _ => index ≤ t.list.length
  | _ => True

/-- Elements go into a vector that was created with a capacity, and an empty vector is not compacted to `NULL`. -/
def Sound (initialCapacity : Int) (t : CapList (Elem size)) : VectorOp size → Prop
  | .append _ _ | .insert _ _ _ => 0 < initialCapacity
  | .compact nullForZero => t.list = [] → 0 < t.capacity → nullForZero = false
  | .remove _ | .clear => True

end VectorOp

def vectorSpec (cleanup : Bool) : Follow.Spec (CapList (Elem size)) (VectorOp size) VectorRet where
  next := VectorOp.next
  answer := VectorOp.answer cleanup

/-- The invariant: the vector owns its block, or was never given one and is empty. -/
def VectorInv (initialCapacity : Int) (cleanup : Bool) (v : PVector) (t : CapList (Elem size)) : Prop :=
  if 0 < initialCapacity then v.Owns t cleanup
  else v = .new initialCapacity size cleanup ∧ t = .empty initialCapacity.toNat

variable {initialCapacity : Int} {cleanup : Bool} {v : PVector} {t : CapList (Elem size)} {op : VectorOp size}
  {ops : List (VectorOp size)}

theorem new_unset (h : ¬ 0 < initialCapacity) (size : Nat) (cleanup : Bool) :
    PVector.new initialCapacity size cleanup = ⟨0, 0, size, .wild, cleanup⟩ := by
  have h0 : initialCapacity.toNat = 0 := by omega
  unfold PVector.new
  rw [h0]
  rfl

theorem VectorInv.refines (h : VectorInv initialCapacity cleanup v t) : v.Refines t cleanup := by
  unfold VectorInv at h
  split at h
  · exact h.refines
  · obtain ⟨rfl, rfl⟩ := h
    refine ⟨rfl, rfl, rfl, rfl, ?_⟩
    show List.take (0 * size) _ = []
    rw [Nat.zero_mul, List.take_zero]

theorem VectorInv.new (initialCapacity : Int) (size : Nat) (cleanup : Bool) :
    VectorInv initialCapacity cleanup (.new initialCapacity size cleanup)
      (.empty initialCapacity.toNat : CapList (Elem size)) := by
  unfold VectorInv
  split
  · rename_i hc
    exact .new hc size cleanup
  · exact ⟨rfl, rfl⟩

theorem PVector.Owns.step (h : v.Owns t cleanup) (hs : 0 < size) (hl : op.Legal t)
    (hcompact : ∀ nullForZero, op = .compact nullForZero → t.list = [] → 0 < t.capacity → nullForZero = false) :
    ∃ v', op.step v = some (op.answer cleanup t, v') ∧ v'.Owns (op.next t) cleanup := by
  cases op with
  | append elem nullForZero =>
    obtain ⟨v', hrun, ho⟩ := h.insert (fun _ h0 => absurd h0 (Nat.ne_of_gt hs)) elem (Nat.le_refl _)
    refine ⟨v', ?_, ho⟩
    show ((v.insert (elem.map Subtype.val) v.count nullForZero >>= _) : Except _ _).toOption = _
    rw [h.count_eq, hrun]
    rfl
  | insert elem index nullForZero =>
    obtain ⟨v', hrun, ho⟩ := h.insert (fun _ h0 => absurd h0 (Nat.ne_of_gt hs)) elem hl
    refine ⟨v', ?_, ho⟩
    show ((v.insert (elem.map Subtype.val) index nullForZero >>= _) : Except _ _).toOption = _
    rw [hrun]
    rfl
  | remove index =>
    by_cases hin : 0 ≤ index ∧ index.toNat < t.list.length
    · obtain ⟨v', hrun, ho⟩ := h.remove hin.2
      rw [Int.toNat_of_nonneg hin.1] at hrun
      refine ⟨v', ?_, ?_⟩
      · show ((v.remove index >>= _) : Except _ _).toOption = _
        rw [hrun, VectorOp.answer, dif_pos hin]
        rfl
      · rw [VectorOp.next, if_pos hin]
        exact ho
    · have hrun : v.remove index = .ok (-1, v, []) := by
        unfold PVector.remove
        rw [if_neg (by rw [h.count_eq]; omega)]
        rfl
      refine ⟨v, ?_, ?_⟩
      · show ((v.remove index >>= _) : Except _ _).toOption = _
        rw [hrun, VectorOp.answer, dif_neg hin]
        rfl
      · rw [VectorOp.next, if_neg hin]
        exact h
  | clear =>
    obtain ⟨ho, hcleaned⟩ := h.clear
    refine ⟨v.clear.1, ?_, ho⟩
    show some (VectorRet.self v.clear.2, v.clear.1) = _
    rw [hcleaned]
    rfl
  | compact nullForZero =>
    obtain ⟨v', hrun, ho⟩ := h.compact hs (hcompact nullForZero rfl)
    refine ⟨v', ?_, ho⟩
    show ((v.compact nullForZero >>= _) : Except _ _).toOption = _
    rw [hrun]
    rfl

/-- A vector without a block does nothing, and has nothing to do, unless something is inserted. -/
theorem unset_step (hc : ¬ 0 < initialCapacity) (cleanup : Bool) (hs : op.Sound initialCapacity (.empty initialCapacity.toNat)) :
    op.step (.new initialCapacity size cleanup) =
        some (op.answer cleanup (.empty initialCapacity.toNat), .new initialCapacity size cleanup) ∧
      op.next (.empty initialCapacity.toNat) = .empty initialCapacity.toNat := by
  have h0 : initialCapacity.toNat = 0 := by omega
  rw [new_unset hc, h0]
  cases op with
  | append elem nullForZero => exact absurd hs hc
  | insert elem index nullForZero => exact absurd hs hc
  | remove index =>
    have hin : ¬ (0 ≤ index ∧ index.toNat < (CapList.empty 0 : CapList (Elem size)).list.length) :=
      fun h => Nat.not_lt_zero _ h.2
    have hrun : PVector.remove ⟨0, 0, size, .wild, cleanup⟩ index = .ok (-1, ⟨0, 0, size, .wild, cleanup⟩, []) :=
      if_neg fun h => Int.not_lt.2 h.1 h.2
    refine ⟨?_, if_neg hin⟩
    show ((PVector.remove ⟨0, 0, size, .wild, cleanup⟩ index >>= _) : Except _ _).toOption = _
    rw [hrun, VectorOp.answer, dif_neg hin]
    rfl
  | clear => cases cleanup <;> exact ⟨rfl, rfl⟩
  | compact nullForZero => exact ⟨rfl, rfl⟩

/-- A step of a run meets the list just when it is sound. -/
theorem VectorInv.step (hs : 0 < size) (h : VectorInv initialCapacity cleanup v t) (hl : op.Legal t)
    (hsound : op.Sound initialCapacity t) :
    Follow.Steps VectorOp.step (vectorSpec cleanup) (VectorInv initialCapacity cleanup) v t op := by
  unfold Follow.Steps VectorInv at *
  by_cases hc : 0 < initialCapacity
  · rw [if_pos hc] at h
    obtain ⟨v', hrun, ho⟩ := h.step hs hl fun nullForZero hop => by
      subst hop
      exact hsound
    exact ⟨v', hrun, by rw [if_pos hc]; exact ho⟩
  · rw [if_neg hc] at h
    obtain ⟨rfl, rfl⟩ := h
    obtain ⟨hrun, hnext⟩ := unset_step hc cleanup hsound
    exact ⟨_, hrun, by rw [if_neg hc]; exact ⟨rfl, hnext⟩⟩

theorem toOption_bind {ε α β : Type} {x : Except ε α} {f : α → Except ε β} {b : β} (h : (x >>= f).toOption = some b) :
    ∃ a, x = .ok a := by
  cases x with
  | error err => cases h
  | ok a => exact ⟨a, rfl⟩

/-- Nothing can be inserted into a vector without a block. -/
theorem unset_insert (hc : ¬ 0 < initialCapacity) {index : Int} (hi : index ≤ 0) (elem : Option (List UInt8))
    (nullForZero : Bool) :
    (PVector.new initialCapacity size cleanup).insert elem index nullForZero = .error .badPointer := by
  rw [new_unset hc]
  have hin : ¬ index > ((⟨0, 0, size, .wild, cleanup⟩ : PVector).count : Int) := Int.not_lt.2 hi
  unfold PVector.insert
  rw [if_neg hin]
  rfl

theorem VectorInv.sound (h : VectorInv initialCapacity cleanup v t) (hl : op.Legal t) {p : VectorRet × PVector}
    (hrun : op.step v = some p) : op.Sound initialCapacity t := by
  have hcount := h.refines.count_eq
  have hcap := h.refines.capacity_eq
  have hsize := h.refines.size_eq
  have hinsert {index : Int} {elem : Option (List UInt8)} {nullForZero : Bool} {q : Option Nat × PVector}
      (hi : index ≤ t.list.length) (hins : v.insert elem index nullForZero = .ok q) : 0 < initialCapacity := by
    refine Decidable.byContradiction fun hc => ?_
    unfold VectorInv at h
    rw [if_neg hc] at h
    obtain ⟨rfl, rfl⟩ := h
    rw [unset_insert hc hi] at hins
    cases hins
  cases op with
  | append elem nullForZero =>
    obtain ⟨q, hq⟩ := toOption_bind hrun
    exact hinsert (by omega) hq
  | insert elem index nullForZero =>
    obtain ⟨q, hq⟩ := toOption_bind hrun
    exact hinsert (Int.ofNat_le.2 hl) hq
  | remove index => trivial
  | clear => trivial
  | compact nullForZero =>
    intro hnil hpos
    obtain ⟨q, hq⟩ := toOption_bind hrun
    rw [hnil] at hcount
    unfold PVector.compact at hq
    rw [if_pos (by rw [hcount, hcap]; exact hpos), hcount] at hq
    cases nullForZero with
    | false => rfl
    | true =>
      -- the reallocation to no bytes
      have hfail : ∃ f, pclRealloc v.elems (([] : List (Elem size)).length * v.size) true = .error f := by
        show ∃ f, pclRealloc v.elems (0 * v.size) true = .error f
        rw [Nat.zero_mul]
        cases v.elems with
        | wild => exact ⟨_, rfl⟩
        | null => exact ⟨_, rfl⟩
        | block bytes => exact ⟨_, rfl⟩
      obtain ⟨f, hf⟩ := hfail
      rw [hf] at hq
      cases hq

end Pcl

import Pcl.Array.Run
import Pcl.Vector.Run

/-!
# Insertion at any index

`pcl_array_insert` and `pcl_vector_insert` with every `int` as the index, in every state that the other
operations leave behind. The array does not look at the index at all, the vector refuses only one behind its
end.
-/

namespace Pcl

/-! ### Arrays -/

namespace PArray
variable {α : Type}

/-- The table has its capacity, and the elements are in it. -/
structure Ok (arr : PArray α) : Prop where
  count_le : arr.count ≤ arr.capacity
  length_eq : arr.elements.length = arr.capacity

/-- An element is inserted inside the list or at its end; at any other index nothing changes. -/
def InsertMeets (arr : PArray α) (elem : Option α) (index : Int) (e : ErrState) : Prop :=
  ∃ r arr' log e', arr.insertExec elem index e = some ((r, arr', log), e') ∧
    if 0 ≤ index ∧ index ≤ arr.count then
      r = arr.count + 1 ∧ arr'.count = arr.count + 1 ∧
        arr'.list = arr.list.take index.toNat ++ elem :: arr.list.drop index.toNat
    else r = (if e.frozen then 0 else -1) ∧ arr'.count = arr.count ∧ arr'.list = arr.list

theorem Ok.new (initialCapacity : Int) (cleanup : Bool) : (PArray.new initialCapacity cleanup : PArray α).Ok :=
  ⟨Nat.zero_le _, List.length_replicate⟩

variable {arr : PArray α} {elem : Option α} {index : Int} {e : ErrState}

theorem Ok.grow (h : arr.Ok) : arr.grow.count = arr.count ∧ arr.count < arr.grow.capacity ∧
    arr.grow.elements.length = arr.grow.capacity ∧ arr.grow.elements.take arr.count = arr.list := by
  have hle := h.count_le
  have hlen := h.length_eq
  unfold PArray.grow
  by_cases hfull : arr.count = arr.capacity
  · have hlt : arr.count < if arr.capacity > 0 then arr.capacity * 2 else 8 := by split <;> omega
    rw [if_pos hfull]
    refine ⟨rfl, hlt, ?_, List.take_append_of_le_length (by omega)⟩
    show (arr.elements ++ List.replicate ((if arr.capacity > 0 then arr.capacity * 2 else 8) - arr.count) none).length =
      if arr.capacity > 0 then arr.capacity * 2 else 8
    generalize (if arr.capacity > 0 then arr.capacity * 2 else 8) = capacity at hlt
    rw [List.length_append, List.length_replicate]
    omega
  · rw [if_neg hfull]
    exact ⟨rfl, by omega, hlen, rfl⟩

theorem Ok.list_length (h : arr.Ok) : arr.list.length = arr.count := by
  unfold list
  rw [List.length_take, h.length_eq]
  exact Nat.min_eq_left h.count_le

theorem Ok.insert (h : arr.Ok) (elem : Option α) {i : Nat} (hi : i ≤ arr.count) (e : ErrState) :
    ∃ arr', arr.insert elem i e = some (((arr.count : Int) + 1, arr', []), e) ∧ arr'.Ok ∧
      arr'.count = arr.count + 1 ∧ arr'.list = arr.list.take i ++ elem :: arr.list.drop i := by
  obtain ⟨hcount, hcap, hlen, htake⟩ := h.grow
  have hlist := h.list_length
  have hpre : (arr.list.take i).length = i := List.length_take_of_le (by omega)
  obtain ⟨old, rest, hdrop⟩ : ∃ old rest, arr.grow.elements.drop arr.count = old :: rest :=
    List.exists_cons_of_ne_nil (List.ne_nil_of_length_pos (by rw [List.length_drop, hlen]; omega))
  have hsplit : arr.grow.elements = arr.list.take i ++ (arr.list.drop i ++ (old :: rest)) := by
    rw [← List.append_assoc, List.take_append_drop, ← htake, ← hdrop, List.take_append_drop]
  have hstore : ∃ moved, (if i < arr.grow.count then Block.move arr.grow.elements (i + 1) i (arr.grow.count - i)
      else some arr.grow.elements) = some moved ∧
      Block.store moved i [elem] = some (arr.list.take i ++ ([elem] ++ (arr.list.drop i ++ rest))) := by
    rw [hcount, hsplit]
    by_cases hlast : i < arr.count
    · have hmove := Block.move_up (arr.list.take i) (arr.list.drop i) (old :: rest) (by simp : 1 ≤ _)
      rw [hpre, List.length_drop, hlist] at hmove
      refine ⟨_, by rw [if_pos hlast, hmove], ?_⟩
      have hst := Block.store_append (arr.list.take i) ((arr.list.drop i ++ (old :: rest)).take 1) [elem]
        (arr.list.drop i ++ (old :: rest).drop 1) (by
          rw [List.length_take, List.length_append, List.length_cons, List.length_singleton]
          omega)
      rw [hpre] at hst
      exact hst
    · have hnil : arr.list.drop i = [] := List.drop_of_length_le (by omega)
      refine ⟨_, if_neg hlast, ?_⟩
      have hst := Block.store_append (arr.list.take i) [old] [elem] rest rfl
      rw [hpre] at hst
      rw [hnil]
      exact hst
  obtain ⟨moved, hmoved, hst⟩ := hstore
  have hall : (arr.list.take i ++ elem :: arr.list.drop i).length = arr.count + 1 := by
    rw [List.length_append, hpre, List.length_cons, List.length_drop]
    omega
  refine ⟨{ arr.grow with
    elements := arr.list.take i ++ ([elem] ++ (arr.list.drop i ++ rest)), count := arr.grow.count + 1 }, ?_, ⟨?_, ?_⟩, ?_, ?_⟩
  · unfold PArray.insert
    simp only [Int.toNat_natCast]
    rw [if_neg (by omega), hmoved]
    simp only [Option.bind_some, hst]
    rw [hcount]
    rfl
  · show arr.grow.count + 1 ≤ arr.grow.capacity
    omega
  · have hl := congrArg List.length hsplit
    simp only [List.length_append, List.length_cons, hpre, hlen] at hl
    show (arr.list.take i ++ ([elem] ++ (arr.list.drop i ++ rest))).length = arr.grow.capacity
    simp only [List.length_append, List.length_cons, List.length_nil, hpre, hl]
    omega
  · show arr.grow.count + 1 = _
    rw [hcount]
  · show (arr.list.take i ++ ([elem] ++ (arr.list.drop i ++ rest))).take (arr.grow.count + 1) = _
    rw [hcount, ← List.append_assoc, ← List.append_assoc, List.append_assoc (arr.list.take i)]
    exact List.take_left' hall

/-- An element is counted wherever it was put. -/
theorem insert_ok {arr' : PArray α} {r : Int} {log : List (Option α)} {e' : ErrState} (hok : arr.Ok)
    (h : arr.insert elem index e = some ((r, arr', log), e')) : arr'.Ok ∧ 0 ≤ index ∧ arr'.count = arr.count + 1 := by
  obtain ⟨hcount, hcap, hlen, -⟩ := hok.grow
  unfold PArray.insert at h
  dsimp only at h
  split at h
  · cases h
  · rename_i hneg
    have hkeep {moved stored : List (Option α)} (hm : (if index.toNat < arr.grow.count then
        Block.move arr.grow.elements (index.toNat + 1) index.toNat (arr.grow.count - index.toNat)
        else some arr.grow.elements) = some moved) (hs : Block.store moved index.toNat [elem] = some stored) :
        stored.length = arr.grow.capacity := by
      rw [Block.store_length hs, ← hlen]
      split at hm
      · exact Block.move_length hm
      · cases hm
        rfl
    generalize hst : Option.bind _ _ = stored at h
    cases stored with
    | none => cases h
    | some elements =>
      obtain ⟨moved, hm, hs⟩ := Option.bind_eq_some_iff.1 hst
      cases h
      refine ⟨⟨?_, hkeep hm hs⟩, Int.not_lt.1 hneg, ?_⟩
      · show arr.grow.count + 1 ≤ arr.grow.capacity
        omega
      · show arr.grow.count + 1 = _
        rw [hcount]

theorem set_ok {arr' : PArray α} {r : Int} {log : List (Option α)} {e' : ErrState} (hok : arr.Ok)
    (h : arr.set elem index e = some ((r, arr', log), e')) : arr'.Ok := by
  unfold PArray.set at h
  split at h
  · rw [ErrM.bind_run, setErr_run _ _ _ (by decide)] at h
    cases h
    exact hok
  · rename_i hin
    dsimp only at h
    generalize arr.elements[index.toNat]? = cur, hst : Block.store arr.elements index.toNat [elem] = stored at h
    cases cur with
    | none => cases h
    | some cur =>
      cases stored with
      | none => cases h
      | some elements =>
        cases h
        refine ⟨Nat.max_le.2 ⟨hok.count_le, ?_⟩, (Block.store_length hst).trans hok.length_eq⟩
        show index.toNat + 1 ≤ arr.capacity
        omega

theorem remove_ok {arr' : PArray α} {r : Int} {log : List (Option α)} {e' : ErrState} (hok : arr.Ok)
    (h : arr.remove index e = some ((r, arr', log), e')) : arr'.Ok := by
  unfold PArray.remove at h
  split at h
  · rw [ErrM.bind_run, setErr_run _ _ _ (by decide)] at h
    cases h
    exact hok
  · dsimp only at h
    generalize arr.elements[index.toNat]? = cur, hmoved : ite (index.toNat < arr.count - 1) _ _ = moved at h
    cases cur with
    | none => cases h
    | some cur =>
      cases moved with
      | none => cases h
      | some elements =>
        cases h
        refine ⟨Nat.le_trans (Nat.sub_le _ _) hok.count_le, Eq.trans ?_ hok.length_eq⟩
        split at hmoved
        · exact Block.move_length hmoved
        · cases hmoved
          rfl

theorem step_ok {op : ArrayOp α} {s s' : ArrayState α} {r : ArrayRet α} (h : ArrayOp.step s op = some (r, s'))
    (hok : s.arr.Ok) : s'.arr.Ok := by
  obtain ⟨⟨out, e'⟩, hrun, heq⟩ := Option.map_eq_some_iff.1 h
  cases heq
  cases op with
  | append elem | insert elem index =>
    obtain ⟨p, hop, hp⟩ := Option.bind_eq_some_iff.1 hrun
    cases hp
    exact (insert_ok hok (insert_of_exec hop)).1
  | set elem index =>
    obtain ⟨p, hop, hp⟩ := Option.bind_eq_some_iff.1 hrun
    cases hp
    exact set_ok hok hop
  | remove index =>
    obtain ⟨p, hop, hp⟩ := Option.bind_eq_some_iff.1 hrun
    cases hp
    exact remove_ok hok hop
  | get index =>
    obtain ⟨p, -, hp⟩ := Option.bind_eq_some_iff.1 hrun
    cases hp
    exact hok

theorem insertMeets_iff (h : arr.Ok) (elem : Option α) (index : Int) (e : ErrState) :
    arr.InsertMeets elem index e ↔ (0 ≤ index ∧ index ≤ arr.count) ∧ GrowsInInt arr.count arr.capacity := by
  unfold InsertMeets insertExec
  by_cases hgrow : GrowsInInt arr.count arr.capacity
  · simp only [hgrow, if_true, and_true]
    constructor
    · rintro ⟨r, arr', log, e', hrun, hmeets⟩
      by_contra hout
      rw [if_neg hout] at hmeets
      have hcount := (insert_ok h hrun).2.2
      omega
    · intro hin
      obtain ⟨i, rfl⟩ := Int.eq_ofNat_of_zero_le hin.1
      obtain ⟨arr', hrun, -, hcount, hlist⟩ := h.insert elem (Int.ofNat_le.1 hin.2) e
      refine ⟨_, arr', [], e, hrun, ?_⟩
      rw [if_pos hin]
      exact ⟨rfl, hcount, hlist⟩
  · simp only [hgrow, if_false, and_false, iff_false]
    rintro ⟨r, arr', log, e', hrun, -⟩
    cases hrun

end PArray

/-! ### Vectors -/

namespace PVector
variable {size : Nat}

def list (v : PVector) : List (List (Option UInt8)) := (List.range v.count).map v.get

/-- `pcl_vector_insert` with its `int` arithmetic. -/
def insertExec (v : PVector) (elem : Option (List UInt8)) (pos : Int) (nullForZero : Bool) :
    Option (Option Nat × PVector) :=
  if pos > v.count ∨ GrowsInInt v.count v.capacity then (v.insert elem pos nullForZero).toOption else none

/-- As `PArray.InsertMeets`; an absent element is inserted as a zeroed one. -/
def InsertMeets (v : PVector) (elem : Option (Elem size)) (pos : Int) (nullForZero : Bool) : Prop :=
  ∃ r v', v.insertExec (elem.map Subtype.val) pos nullForZero = some (r, v') ∧
    if 0 ≤ pos ∧ pos ≤ v.count then
      r = some (pos.toNat * size) ∧ v'.count = v.count + 1 ∧
        v'.list = v.list.take pos.toNat ++ (elem.getD (.zero size)).1.map some :: v.list.drop pos.toNat
    else r = none ∧ v'.count = v.count ∧ v'.list = v.list

variable {v : PVector} {t : CapList (Elem size)} {cleanup : Bool} {initialCapacity : Int}

theorem Owns.list_eq (h : v.Owns t cleanup) : v.list = t.list.map fun x => x.1.map some := by
  unfold list
  rw [h.count_eq]
  refine List.ext_getElem (by simp) fun i hi hi' => ?_
  rw [List.getElem_map, List.getElem_range, List.getElem_map]
  exact h.get (by simpa using hi)

theorem insert_neg {pos : Int} (hneg : pos < 0) (elem : Option (List UInt8)) (nullForZero : Bool) :
    (v.insert elem pos nullForZero).toOption = none := by
  unfold PVector.insert
  rw [if_neg (by omega)]
  cases v.grow nullForZero with
  | error fault => rfl
  | ok g =>
    show (if pos < 0 then _ else _ : Except MemFault (Option Nat × PVector)).toOption = none
    rw [if_pos hneg]
    rfl

/-- No room is made with a request of no bytes that fails. -/
theorem Owns.insert_null (h : v.Owns t cleanup) (hfull : t.list.length = t.capacity) (h0 : size = 0) {pos : Int}
    (hpos : pos ≤ t.list.length) (elem : Option (List UInt8)) : (v.insert elem pos true).toOption = none := by
  obtain ⟨rest, helems, -⟩ := h.elems_eq
  have hgrow : v.grow true = .error .memoryError := by
    unfold PVector.grow
    rw [if_pos (by rw [h.count_eq, h.capacity_eq, hfull]), h.size_eq, h0, helems]
    rfl
  unfold PVector.insert
  rw [if_neg (by rw [h.count_eq]; omega), hgrow]
  rfl

theorem insertMeets_iff (h : VectorInv initialCapacity cleanup v t) (elem : Option (Elem size)) (pos : Int)
    (nullForZero : Bool) :
    v.InsertMeets elem pos nullForZero ↔ v.count < pos ∨ 0 ≤ pos ∧ 0 < initialCapacity ∧
      GrowsInInt v.count v.capacity ∧ (v.count = v.capacity → size = 0 → nullForZero = false) := by
  have hcount := h.refines.count_eq
  have hcap := h.refines.capacity_eq
  unfold InsertMeets insertExec
  by_cases hpast : (v.count : Int) < pos
  · have hrun : v.insert (elem.map Subtype.val) pos nullForZero = .ok (none, v) := if_pos hpast
    refine iff_of_true ⟨none, v, by rw [if_pos (.inl hpast), hrun]; rfl, ?_⟩ (.inl hpast)
    rw [if_neg (by omega)]
    exact ⟨rfl, rfl, rfl⟩
  have hle : pos ≤ t.list.length := by omega
  refine Iff.trans ?_ (or_iff_right hpast).symm
  constructor
  · rintro ⟨r, v', hrun, -⟩
    have hgrow : GrowsInInt v.count v.capacity := by
      by_contra hno
      rw [if_neg (not_or_intro (by omega) hno)] at hrun
      cases hrun
    rw [if_pos (.inr hgrow)] at hrun
    have hpos : 0 ≤ pos := by
      by_contra hneg
      rw [insert_neg (by omega)] at hrun
      cases hrun
    have hc : 0 < initialCapacity := by
      by_contra hc
      unfold VectorInv at h
      rw [if_neg hc] at h
      obtain ⟨rfl, rfl⟩ := h
      rw [unset_insert hc hle] at hrun
      cases hrun
    refine ⟨hpos, hc, hgrow, fun hfull h0 => ?_⟩
    unfold VectorInv at h
    rw [if_pos hc] at h
    cases nullForZero with
    | false => rfl
    | true =>
      rw [h.insert_null (by omega) h0 hle] at hrun
      cases hrun
  · rintro ⟨hpos, hc, hgrow, hsize⟩
    unfold VectorInv at h
    rw [if_pos hc] at h
    obtain ⟨i, rfl⟩ := Int.eq_ofNat_of_zero_le hpos
    have hi : i ≤ t.list.length := Int.ofNat_le.1 hle
    obtain ⟨v', hrun, ho⟩ := h.insert (fun hfull => hsize (by omega)) elem hi
    refine ⟨_, v', by rw [if_pos (.inr hgrow), hrun]; rfl, ?_⟩
    rw [if_pos ⟨hpos, by omega⟩, ho.count_eq, ho.list_eq, h.list_eq, hcount]
    refine ⟨rfl, CapList.insert_length hi _, ?_⟩
    show (t.list.take i ++ elem.getD (.zero size) :: t.list.drop i).map _ = _
    rw [List.map_append, List.map_cons, List.map_take, List.map_drop]
    rfl

end PVector

/-! ### Both -/

variable {α : Type} {arr : PArray α} {size : Nat} {v : PVector} {t : CapList (Elem size)} {cleanup : Bool}
  {initialCapacity : Int}

/-- An array inserts as it should just at the indices of its list and at its end; a vector that was created with a
capacity also at those behind it, where it refuses. Both as long as they can grow. -/
theorem insert_meets_iff (ha : arr.Ok) (hv : VectorInv initialCapacity cleanup v t) (elem : Option α) (e : ErrState)
    (elem' : Option (Elem size)) (nullForZero : Bool) (index : Int) :
    (arr.InsertMeets elem index e ↔ (0 ≤ index ∧ index ≤ arr.count) ∧ GrowsInInt arr.count arr.capacity) ∧
      (v.InsertMeets elem' index nullForZero ↔ v.count < index ∨ 0 ≤ index ∧ 0 < initialCapacity ∧
        GrowsInInt v.count v.capacity ∧ (v.count = v.capacity → size = 0 → nullForZero = false)) :=
  ⟨PArray.insertMeets_iff ha elem index e, PVector.insertMeets_iff hv elem' index nullForZero⟩

/-- The end of an empty array and of an empty vector. -/
theorem insert_meets_iff_end :
    ((PArray.new 4 true : PArray Nat).InsertMeets (some 7) 0 .zero ↔ (0 ≤ (0 : Int) ∧ (0 : Int) ≤ (0 : Nat)) ∧ GrowsInInt 0 4) ∧
      ((PVector.new 1 1 false).InsertMeets (some ⟨[5], rfl⟩ : Option (Elem 1)) 0 true ↔ ((0 : Nat) : Int) < 0 ∨
        0 ≤ (0 : Int) ∧ (0 : Int) < 1 ∧ GrowsInInt 0 1 ∧ (0 = 1 → 1 = 0 → true = false)) :=
  insert_meets_iff (.new 4 true) (.new 1 1 false) (some 7) .zero (some ⟨[5], rfl⟩) true 0

/-- An array of no elements takes one at index 2 and counts 1; a vector writes before its block. -/
theorem insert_outside : ¬ (PArray.new 4 true : PArray Nat).InsertMeets (some 7) 2 .zero ∧
    ¬ (PVector.new 1 1 false).InsertMeets (some ⟨[5], rfl⟩ : Option (Elem 1)) (-1) true := by
  constructor
  · rw [PArray.insertMeets_iff (.new 4 true)]
    decide
  · rw [PVector.insertMeets_iff (.new 1 1 false)]
    decide

end Pcl

import Pcl.Array.Ops
import Pcl.Lib.Follow
import Mathlib.Data.List.Perm.Basic

/-!
# Runs of array operations

A run on a new array against the same run on its list (`CapList`): the answers, the table after every
operation, and what the cleanup handler was given by the time the array is freed. The list is kept as
long as no operation removes from a list with a pointer at its end, since the slot behind the shorter list
keeps that pointer; `pcl_array_free` gives the handler every element, `NULL` too. A full array grows as long as
its capacity is an `int`. `array_meets_iff` says that nothing else can go wrong.
-/

namespace Pcl
variable {α : Type}

inductive ArrayOp (α : Type) where
  | append (elem : Option α)
  | insert (elem : Option α) (index : Nat)
  | set (elem : Option α) (index : Int)
  | remove (index : Int)
  | get (index : Int)

/-- What an operation returns. -/
inductive ArrayRet (α : Type) where
  | int (r : Int)
  | ptr (elem : Option α)

namespace ArrayOp

/-- The operation on the array. -/
def run (arr : PArray α) : ArrayOp α → ErrM (ArrayRet α × PArray α × List (Option α))
  | .append elem => do
    let (r, arr, log) ← arr.appendExec elem
    return (.int r, arr, log)
  | .insert elem index => do
    let (r, arr, log) ← arr.insertExec elem index
    return (.int r, arr, log)
  | .set elem index => do
    let (r, arr, log) ← arr.set elem index
    return (.int r, arr, log)
  | .remove index => do
    let (r, arr, log) ← arr.remove index
    return (.int r, arr, log)
  | .get index => do
    let elem ← arr.get index
    return (.ptr elem, arr, [])

/-- The operation on the list; `none` if it fails. -/
def spec (t : CapList (Option α)) : ArrayOp α → Option (ArrayRet α × CapList (Option α))
  | .append elem => some (.int (t.list.length + 1), t.insert elem t.list.length)
  | .insert elem index => some (.int (t.list.length + 1), t.insert elem index)
  | .set elem index =>
    if h : 0 ≤ index ∧ index.toNat < t.capacity then some (.int 0, t.set elem index.toNat h.2) else none
  | .remove index =>
    if 0 ≤ index ∧ index.toNat < t.list.length then some (.int (t.list.length - 1), t.remove index.toNat) else none
  | .get index =>
    if h : 0 ≤ index ∧ index.toNat < t.list.length then some (.ptr t.list[index.toNat], t) else none

/-- What a failing operation returns; an error that is set in a frozen state returns 0. -/
def failed (frozen : Bool) : ArrayOp α → ArrayRet α
  | .get _ => .ptr none
  | _ => .int (if frozen then 0 else -1)

def answer (frozen : Bool) (t : CapList (Option α)) (op : ArrayOp α) : ArrayRet α :=
  ((op.spec t).map Prod.fst).getD (op.failed frozen)

def next (t : CapList (Option α)) (op : ArrayOp α) : CapList (Option α) := ((op.spec t).map Prod.snd).getD t

/-- The pointer an operation is given to store. -/
def elem : ArrayOp α → Option α
  | .append elem | .insert elem _ | .set elem _ => elem
  | .remove _ | .get _ => none

/-- The pointers it stores. -/
def stored (t : CapList (Option α)) (op : ArrayOp α) : List (Option α) :=
  if (op.spec t).isSome then [op.elem].filter Option.isSome else []

/-- An element is inserted inside the list or at its end. -/
def Legal (t : CapList (Option α)) : ArrayOp α → Prop
  | .insert _ index => index ≤ t.list.length
  | _ => True

/-- A remove finds `NULL` at the end of the list. -/
def Tidy (t : CapList (Option α)) : ArrayOp α → Prop
  | .remove index => 0 ≤ index ∧ index.toNat < t.list.length → t.list.getLast? = some none
  | _ => True

/-- What is inserted finds room, or the array can grow. -/
def Fits (t : CapList (Option α)) : ArrayOp α → Prop
  | .append _ | .insert _ _ => GrowsInInt t.list.length t.capacity
  | _ => True

end ArrayOp

/-! ### Runs -/

/-- An array, what was passed to its handler so far, and the error state. -/
structure ArrayState (α : Type) where
  arr : PArray α
  log : List (Option α)
  err : ErrState

def ArrayOp.step (s : ArrayState α) (op : ArrayOp α) : Option (ArrayRet α × ArrayState α) :=
  (op.run s.arr s.err).map fun p => (p.1.1, ⟨p.1.2.1, s.log ++ p.1.2.2, p.2⟩)

/-- A list and the pointers that were stored in it so far. -/
structure ListState (α : Type) where
  list : CapList (Option α)
  stored : List (Option α)

def arraySpec (frozen : Bool) : Follow.Spec (ListState α) (ArrayOp α) (ArrayRet α) where
  next t op := ⟨op.next t.list, t.stored ++ op.stored t.list⟩
  answer t op := op.answer frozen t.list

def ArrayState.new (initialCapacity : Int) (cleanup : Bool) (e : ErrState) : ArrayState α :=
  ⟨.new initialCapacity cleanup, [], e⟩

def ListState.new (initialCapacity : Int) : ListState α := ⟨.empty initialCapacity.toNat, []⟩

/-- The state an array should be in after a run. -/
abbrev specRun (initialCapacity : Int) (ops : List (ArrayOp α)) : ListState α :=
  (arraySpec false).run (.new initialCapacity) ops

/-- Elements are inserted inside the list or at its end. -/
def LegalRun (initialCapacity : Int) (ops : List (ArrayOp α)) : Prop :=
  (arraySpec false).All (fun t op => op.Legal t.list) (.new initialCapacity) ops

/-- Every remove finds `NULL` at the end of the list. -/
def TidyRun (initialCapacity : Int) (ops : List (ArrayOp α)) : Prop :=
  (arraySpec false).All (fun t op => op.Tidy t.list) (.new initialCapacity) ops

/-- The array never has to grow past an `int`. -/
def FitsRun (initialCapacity : Int) (ops : List (ArrayOp α)) : Prop :=
  (arraySpec false).All (fun t op => op.Fits t.list) (.new initialCapacity) ops

/-- An array from `pcl_array` follows its list, and with a handler each pointer that was stored has been passed to
it once when the array is freed, and nothing else has. -/
def ArrayMeets (initialCapacity : Int) (cleanup : Bool) (ops : List (ArrayOp α)) (e : ErrState) : Prop :=
  Follow.Follows ArrayOp.step (arraySpec e.frozen) (fun s t => s.arr.Refines t.list cleanup)
    (.new initialCapacity cleanup e) (.new initialCapacity) ops ∧
    (cleanup = true → ∃ rs s, Follow.run ArrayOp.step (.new initialCapacity cleanup e) ops = some (rs, s) ∧
      (s.log ++ s.arr.free).Perm (specRun initialCapacity ops).stored)

/-! ### The pointers in a list -/

/-- The elements that are not `NULL`. -/
def live (l : List (Option α)) : List (Option α) := l.filter Option.isSome

theorem live_append (l l' : List (Option α)) : live (l ++ l') = live l ++ live l' := List.filter_append ..

theorem live_eq_self {l : List (Option α)} (h : none ∉ l) : live l = l := by
  refine List.filter_eq_self.2 fun x hx => ?_
  cases x with
  | none => exact absurd hx h
  | some a => rfl

theorem none_not_mem_live (l : List (Option α)) : none ∉ live l := fun h => by simp [live] at h

/-- An element in the middle of a list, apart from the rest. -/
theorem live_middle (a b : List (Option α)) (x : Option α) : (live [x] ++ live (a ++ b)).Perm (live (a ++ x :: b)) := by
  have h : (x :: (a ++ b)).Perm (a ++ x :: b) := List.perm_middle.symm
  rw [← live_append]
  exact h.filter _

theorem live_replicate (n : Nat) : live (List.replicate n (none : Option α)) = [] := by
  simp [live]

variable {arr : PArray α} {t : CapList (Option α)} {cleanup : Bool} {op : ArrayOp α} {ops : List (ArrayOp α)}

/-- What a step does to the handler's account: what it passes on and what the list holds then is what it held and
what was stored. -/
def Accounted (t t' : CapList (Option α)) (stored log : List (Option α)) : Prop :=
  none ∉ log ∧ (log ++ live t'.list).Perm (live t.list ++ stored)

theorem Accounted.refl (t : CapList (Option α)) : Accounted t t [] [] :=
  ⟨List.not_mem_nil, by rw [List.nil_append, List.append_nil]⟩

theorem Accounted.append {t t' : CapList (Option α)} {stored log stored₀ log₀ : List (Option α)} (h : Accounted t t' stored log)
    (hnone : none ∉ log₀) (hperm : (log₀ ++ live t.list).Perm stored₀) :
    none ∉ log₀ ++ log ∧ (log₀ ++ log ++ live t'.list).Perm (stored₀ ++ stored) := by
  refine ⟨fun hn => ?_, ?_⟩
  · rcases List.mem_append.1 hn with hn | hn
    · exact hnone hn
    · exact h.1 hn
  · rw [List.append_assoc]
    refine (h.2.append_left log₀).trans ?_
    rw [← List.append_assoc]
    exact hperm.append_right stored

theorem Accounted.insert (t : CapList (Option α)) (elem : Option α) (i : Nat) : Accounted t (t.insert elem i) (live [elem]) [] := by
  refine ⟨List.not_mem_nil, ?_⟩
  rw [List.nil_append]
  have h := live_middle (t.list.take i) (t.list.drop i) elem
  rw [List.take_append_drop] at h
  exact h.symm.trans List.perm_append_comm

theorem Accounted.set (t : CapList (Option α)) (elem : Option α) {i : Nat} (hi : i < t.capacity) :
    Accounted t (t.set elem i hi) (live [elem]) (live [t.list[i]?.join]) := by
  refine ⟨none_not_mem_live _, ?_⟩
  let padded := t.list ++ List.replicate (i + 1 - t.list.length) none
  have hlen : i < padded.length := by
    rw [List.length_append, List.length_replicate]
    omega
  have hlive : live padded = live t.list := by rw [live_append, live_replicate, List.append_nil]
  have hold : padded[i]? = some t.list[i]?.join := by
    by_cases hin : i < t.list.length
    · rw [List.getElem?_append_left hin, List.getElem?_eq_getElem hin]
      rfl
    · rw [List.getElem?_append_right (by omega), List.getElem?_replicate, if_pos (by omega),
        List.getElem?_eq_none (by omega)]
      rfl
  rw [List.getElem?_eq_getElem hlen, Option.some_inj] at hold
  have h := live_middle (padded.take i) (padded.drop (i + 1)) padded[i]
  have h' := live_middle (padded.take i) (padded.drop (i + 1)) elem
  rw [← List.drop_eq_getElem_cons hlen, List.take_append_drop, hold, hlive] at h
  have hset : (t.set elem i hi).list = padded.take i ++ elem :: padded.drop (i + 1) := by
    show padded.set i elem = _
    rw [List.set_eq_take_append_cons_drop, if_pos hlen]
  rw [hset]
  refine (h'.symm.append_left (live [t.list[i]?.join])).trans ?_
  refine (List.perm_append_comm.append_left (live [t.list[i]?.join])).trans ?_
  rw [← List.append_assoc]
  exact h.append_right (live [elem])

theorem Accounted.remove (t : CapList (Option α)) {i : Nat} (hi : i < t.list.length) :
    Accounted t (t.remove i) [] (live [t.list[i]]) := by
  refine ⟨none_not_mem_live _, ?_⟩
  have h := live_middle (t.list.take i) (t.list.drop (i + 1)) t.list[i]
  rw [← List.drop_eq_getElem_cons hi, List.take_append_drop] at h
  show (_ ++ live (t.list.eraseIdx i)).Perm _
  rw [List.eraseIdx_eq_take_drop_succ, List.append_nil]
  exact h

/-- What one operation does to an array that is its list. -/
structure Stepped (arr : PArray α) (t : CapList (Option α)) (cleanup : Bool) (op : ArrayOp α) (e : ErrState)
    (arr' : PArray α) (log : List (Option α)) (e' : ErrState) : Prop where
  run : op.run arr e = some ((op.answer e.frozen t, arr', log), e')
  frozen : e'.frozen = e.frozen
  refines : arr'.Refines (op.next t) cleanup ↔ op.Tidy t
  accounted : cleanup = true → Accounted t (op.next t) (op.stored t) log

/-- An index that fails the check of `pcl_array_set` and `pcl_array_remove`. -/
theorem index_out {index : Int} {n : Nat} (h : ¬ (0 ≤ index ∧ index.toNat < n)) : index < 0 ∨ index ≥ n := by omega

/-- A step that fails leaves the array alone. -/
theorem Stepped.of_failed (h : arr.Refines t cleanup) {e e' : ErrState} (hspec : op.spec t = none) (htidy : op.Tidy t)
    (hrun : op.run arr e = some ((op.failed e.frozen, arr, []), e')) (hf : e'.frozen = e.frozen) :
    Stepped arr t cleanup op e arr [] e' := by
  refine ⟨?_, hf, ?_, fun _ => ?_⟩
  · rw [hrun, ArrayOp.answer, hspec]
    rfl
  · rw [ArrayOp.next, hspec]
    exact iff_of_true h htidy
  · rw [ArrayOp.next, ArrayOp.stored, hspec]
    exact .refl t

theorem Stepped.of_spec {arr' : PArray α} {t' : CapList (Option α)} {r : ArrayRet α} {log : List (Option α)} {e e' : ErrState}
    (hspec : op.spec t = some (r, t')) (hrun : op.run arr e = some ((r, arr', log), e')) (hf : e'.frozen = e.frozen)
    (hr : arr'.Refines t' cleanup ↔ op.Tidy t) (hacc : cleanup = true → Accounted t t' (live [op.elem]) log) :
    Stepped arr t cleanup op e arr' log e' := by
  refine ⟨?_, hf, ?_, fun hc => ?_⟩
  · rw [hrun, ArrayOp.answer, hspec]
    rfl
  · rw [ArrayOp.next, hspec]
    exact hr
  · rw [ArrayOp.next, ArrayOp.stored, hspec]
    exact hacc hc

theorem ArrayOp.step_spec (h : arr.Refines t cleanup) (hl : op.Legal t) (hfit : op.Fits t) (e : ErrState) :
    ∃ arr' log e', Stepped arr t cleanup op e arr' log e' := by
  cases op with
  | append elem =>
    obtain ⟨arr', hput, hr⟩ := h.insertExec hfit elem (Nat.le_refl _) e
    have hrun : (ArrayOp.append elem).run arr e = some ((.int (t.list.length + 1), arr', []), e) := by
      show (arr.insertExec elem arr.count >>= _) e = _
      rw [ErrM.bind_run, h.count_eq, hput]
      rfl
    exact ⟨arr', [], e, .of_spec rfl hrun rfl (iff_of_true hr trivial) fun _ => .insert t elem _⟩
  | insert elem index =>
    obtain ⟨arr', hput, hr⟩ := h.insertExec hfit elem hl e
    have hrun : (ArrayOp.insert elem index).run arr e = some ((.int (t.list.length + 1), arr', []), e) := by
      show (arr.insertExec elem index >>= _) e = _
      rw [ErrM.bind_run, hput]
      rfl
    exact ⟨arr', [], e, .of_spec rfl hrun rfl (iff_of_true hr trivial) fun _ => .insert t elem _⟩
  | set elem index =>
    by_cases hin : 0 ≤ index ∧ index.toNat < t.capacity
    · obtain ⟨arr', hput, hr⟩ := h.set elem hin.2 e
      rw [Int.toNat_of_nonneg hin.1] at hput
      have hrun : (ArrayOp.set elem index).run arr e =
          some ((.int 0, arr', if cleanup then live [t.list[index.toNat]?.join] else []), e) := by
        show (arr.set elem index >>= _) e = _
        rw [ErrM.bind_run, hput]
        rfl
      refine ⟨arr', _, e, .of_spec (dif_pos hin) hrun rfl (iff_of_true hr trivial) fun hc => ?_⟩
      rw [if_pos hc]
      exact .set t elem hin.2
    · have hrun : (ArrayOp.set elem index).run arr e = some ((.int (if e.frozen then 0 else -1), arr, []),
          e.raised (loc "array_set.c" "pcl_array_set" 42) eIndex 0 none) := by
        show (arr.set elem index >>= _) e = _
        rw [ErrM.bind_run, PArray.set, if_pos (by rw [h.capacity_eq]; exact index_out hin), ErrM.bind_run,
          setErr_run _ _ _ (by decide)]
        rfl
      exact ⟨arr, [], _, .of_failed h (dif_neg hin) trivial hrun (raised_frozen ..)⟩
  | remove index =>
    by_cases hin : 0 ≤ index ∧ index.toNat < t.list.length
    · obtain ⟨arr', hcut, hr⟩ := h.remove hin.2 e
      rw [Int.toNat_of_nonneg hin.1] at hcut
      have hrun : (ArrayOp.remove index).run arr e =
          some ((.int (t.list.length - 1), arr', if cleanup then live [t.list[index.toNat]] else []), e) := by
        show (arr.remove index >>= _) e = _
        rw [ErrM.bind_run, hcut]
        rfl
      have htidy : arr'.Refines (t.remove index.toNat) cleanup ↔ (ArrayOp.remove index).Tidy t :=
        hr.trans ⟨fun hlast _ => hlast, fun htidy => htidy hin⟩
      refine ⟨arr', _, e, .of_spec (if_pos hin) hrun rfl htidy fun hc => ?_⟩
      rw [if_pos hc]
      exact .remove t hin.2
    · have hrun : (ArrayOp.remove index).run arr e = some ((.int (if e.frozen then 0 else -1), arr, []),
          e.raised (loc "array_remove.c" "pcl_array_remove" 43) eIndex 0 none) := by
        show (arr.remove index >>= _) e = _
        rw [ErrM.bind_run, PArray.remove, if_pos (by rw [h.count_eq]; exact index_out hin), ErrM.bind_run,
          setErr_run _ _ _ (by decide)]
        rfl
      exact ⟨arr, [], _, .of_failed h (if_neg hin) (fun hin' => absurd hin' hin) hrun (raised_frozen ..)⟩
  | get index =>
    by_cases hin : 0 ≤ index ∧ index.toNat < t.list.length
    · have hread := h.get hin.2 e
      rw [Int.toNat_of_nonneg hin.1] at hread
      have hrun : (ArrayOp.get index).run arr e = some ((.ptr t.list[index.toNat], arr, []), e.cleared) := by
        show (arr.get index >>= _) e = _
        rw [ErrM.bind_run, hread]
        rfl
      exact ⟨arr, [], _, .of_spec (dif_pos hin) hrun (cleared_frozen e) (iff_of_true h trivial) fun _ => .refl t⟩
    · have hrun : (ArrayOp.get index).run arr e = some ((.ptr none, arr, []),
          e.raised (loc "array_get.c" "pcl_array_get" 43) eIndex 0 none) := by
        show (arr.get index >>= _) e = _
        rw [ErrM.bind_run, PArray.get, if_pos (by rw [h.count_eq]; exact index_out hin), setErrNull_run _ _ _ (by decide)]
        rfl
      exact ⟨arr, [], _, .of_failed h (dif_neg hin) trivial hrun (raised_frozen ..)⟩

/-- An array that cannot grow is not inserted into. -/
theorem ArrayOp.run_unfit (h : arr.Refines t cleanup) (hfit : ¬ op.Fits t) (e : ErrState) : op.run arr e = none := by
  cases op with
  | append elem =>
    show (arr.insertExec elem arr.count >>= _) e = _
    rw [h.insertExec_full hfit]
    rfl
  | insert elem index =>
    show (arr.insertExec elem index >>= _) e = _
    rw [h.insertExec_full hfit]
    rfl
  | set | remove | get => exact absurd trivial hfit

/-! ### Whole runs -/

/-- The invariant of a tidy run. -/
structure ArrayInv (frozen cleanup : Bool) (s : ArrayState α) (t : ListState α) : Prop where
  refines : s.arr.Refines t.list cleanup
  frozen_eq : s.err.frozen = frozen
  accounted : cleanup = true → none ∉ s.log ∧ (s.log ++ live t.list.list).Perm t.stored

/-- The answers of the specification depend on the frozen flag, its states do not. -/
theorem arraySpec_all (frozen : Bool) (P : ListState α → ArrayOp α → Prop) (t : ListState α) (ops : List (ArrayOp α)) :
    (arraySpec frozen).All P t ops ↔ (arraySpec false).All P t ops := by
  induction ops generalizing t with
  | nil => exact Iff.rfl
  | cons op ops ih => exact and_congr_right fun _ => ih _

theorem ArrayInv.step {frozen : Bool} {s : ArrayState α} {t : ListState α} (h : ArrayInv frozen cleanup s t)
    (hl : op.Legal t.list) (hfit : op.Fits t.list) : ∃ s', op.step s = some ((arraySpec frozen).answer t op, s') ∧
      (s'.arr.Refines ((arraySpec frozen).next t op).list cleanup ↔ op.Tidy t.list) ∧
      (op.Tidy t.list → ArrayInv frozen cleanup s' ((arraySpec frozen).next t op)) := by
  obtain ⟨arr', log, e', hs⟩ := ArrayOp.step_spec h.refines hl hfit s.err
  refine ⟨⟨arr', s.log ++ log, e'⟩, ?_, hs.refines, fun ht => ⟨hs.refines.2 ht, hs.frozen.trans h.frozen_eq, fun hc => ?_⟩⟩
  · rw [ArrayOp.step, hs.run, h.frozen_eq]
    rfl
  · obtain ⟨hnone, hperm⟩ := h.accounted hc
    exact (hs.accounted hc).append hnone hperm

theorem ArrayInv.step_unfit {frozen : Bool} {s : ArrayState α} {t : ListState α} (h : ArrayInv frozen cleanup s t)
    (hfit : ¬ op.Fits t.list) : op.step s = none := by
  rw [ArrayOp.step, ArrayOp.run_unfit h.refines hfit]
  rfl

theorem ArrayInv.new (initialCapacity : Int) (cleanup : Bool) (e : ErrState) :
    ArrayInv e.frozen cleanup (.new initialCapacity cleanup e) (.new initialCapacity : ListState α) :=
  ⟨.new initialCapacity cleanup, rfl, fun _ => ⟨List.not_mem_nil, .refl _⟩⟩

theorem arrayFollows_iff (initialCapacity : Int) (cleanup : Bool) {ops : List (ArrayOp α)}
    (hl : LegalRun initialCapacity ops) (e : ErrState) :
    Follow.Follows ArrayOp.step (arraySpec e.frozen) (fun s t => s.arr.Refines t.list cleanup)
      (.new initialCapacity cleanup e) (.new initialCapacity) ops ↔
        TidyRun initialCapacity ops ∧ FitsRun initialCapacity ops := by
  have hinv := ArrayInv.new (α := α) initialCapacity cleanup e
  rw [TidyRun, FitsRun, ← Follow.Spec.all_and, ← arraySpec_all e.frozen]
  refine Follow.follows_iff (fun s t (h : ArrayInv e.frozen cleanup s t) => h.refines) ?_ ?_ hinv
    ((arraySpec_all e.frozen ..).2 hl)
  · rintro s t op h hlegal ⟨htidy, hfit⟩
    obtain ⟨s', hs, -, hinv⟩ := h.step hlegal hfit
    exact ⟨s', hs, hinv htidy⟩
  · rintro s t op h hlegal ⟨s₁, hs₁, hr⟩
    by_cases hfit : op.Fits t.list
    · obtain ⟨s', hs, hiff, -⟩ := h.step hlegal hfit
      rw [hs] at hs₁
      cases hs₁
      exact ⟨hiff.1 hr, hfit⟩
    · rw [h.step_unfit hfit] at hs₁
      cases hs₁

theorem arrayRun_tidy (initialCapacity : Int) (cleanup : Bool) {ops : List (ArrayOp α)} (hl : LegalRun initialCapacity ops)
    (ht : TidyRun initialCapacity ops) (hfit : FitsRun initialCapacity ops) (e : ErrState) :
    ∃ s, Follow.run ArrayOp.step (.new initialCapacity cleanup e) ops =
        some ((arraySpec e.frozen).answers (.new initialCapacity) ops, s) ∧
      ArrayInv e.frozen cleanup s (specRun initialCapacity ops) := by
  refine Follow.run_of_all ?_ (.new initialCapacity cleanup e) ((arraySpec_all e.frozen ..).2 hl)
    ((arraySpec_all e.frozen ..).2 (Follow.Spec.all_and.2 ⟨ht, hfit⟩))
  rintro s t op h hlegal ⟨htidy, hfit⟩
  obtain ⟨s', hs, -, hinv⟩ := h.step hlegal hfit
  exact ⟨s', hs, hinv htidy⟩

theorem PArray.Refines.free (h : arr.Refines t true) : arr.free = t.list := by
  unfold PArray.free
  rw [if_pos h.cleanup_eq, h.elements_eq, h.count_eq, List.take_left' rfl]

/-- An array follows its list and settles its handler's account just in those runs where every element is removed
from a list that ends in `NULL`, where the array can grow, and where there is no `NULL` left to free. -/
theorem array_meets_iff (initialCapacity : Int) (cleanup : Bool) {ops : List (ArrayOp α)}
    (hl : LegalRun initialCapacity ops) (e : ErrState) :
    ArrayMeets initialCapacity cleanup ops e ↔
      TidyRun initialCapacity ops ∧ FitsRun initialCapacity ops ∧
        (cleanup = true → none ∉ (specRun initialCapacity ops).list.list) := by
  unfold ArrayMeets
  rw [arrayFollows_iff initialCapacity cleanup hl e, ← and_assoc]
  refine and_congr_right fun hgood => forall_congr' fun hc => ?_
  obtain ⟨s, hrun, hinv⟩ := arrayRun_tidy initialCapacity cleanup hl hgood.1 hgood.2 e
  obtain ⟨hnone, hperm⟩ := hinv.accounted hc
  have hfree : s.arr.free = (specRun initialCapacity ops).list.list := (hc ▸ hinv.refines).free
  constructor
  · rintro ⟨rs, s', hrun', hperm'⟩ hmem
    rw [hrun] at hrun'
    cases hrun'
    -- the stored pointers are those of the handler and of the list, none of them `NULL`
    have hstored : none ∉ (specRun initialCapacity ops).stored := by
      intro hn
      rcases List.mem_append.1 (hperm.mem_iff.2 hn) with hn | hn
      · exact hnone hn
      · exact none_not_mem_live _ hn
    rw [hfree] at hperm'
    exact hstored (hperm'.mem_iff.1 (List.mem_append_right _ hmem))
  · intro hmem
    refine ⟨_, s, hrun, ?_⟩
    rw [live_eq_self hmem] at hperm
    rw [hfree]
    exact hperm

/-- Two pointers stored, the first of them replaced, in an array with a handler. -/
theorem array_meets_iff_replaced :
    ArrayMeets 0 true [.append (some 1), .append (some 2), .set (some 3) 0] .zero ↔
      TidyRun 0 [.append (some 1), .append (some 2), .set (some 3) 0] ∧
        FitsRun 0 [.append (some 1), .append (some 2), .set (some 3) 0] ∧
        (true = true → none ∉ (specRun 0 [.append (some 1), .append (some 2), .set (some 3) 0]).list.list) := by
  have hl : LegalRun 0 [.append (some 1), .append (some 2), .set (some 3) 0] := ⟨trivial, trivial, trivial, trivial⟩
  exact array_meets_iff 0 true hl .zero

/-- The second pointer is moved to the front and stays in its old slot, from where a later set hands it to the
handler while the array still holds it. -/
theorem array_remove_keeps : LegalRun 0 [.append (some 1), .append (some 2), .remove 0, .set (some 3) 1] ∧
    ¬ ArrayMeets 0 true [.append (some 1), .append (some 2), .remove 0, .set (some 3) 1] .zero := by
  have hl : LegalRun 0 [.append (some 1), .append (some 2), .remove 0, .set (some 3) 1] :=
    ⟨trivial, trivial, trivial, trivial, trivial⟩
  refine ⟨hl, ?_⟩
  rintro ⟨hf, -⟩
  obtain ⟨⟨-, -, htidy, -⟩, -⟩ := (arrayFollows_iff 0 true hl .zero).1 hf
  have hlast : [some 1, some 2].getLast? = some none := htidy ⟨by decide, by decide⟩
  revert hlast
  decide

end Pcl

import Pcl.Array.Ops
import Pcl.Lib.Cursor

/-!
# Events

`src/event` with `pcl_array_indexof`: a table of handlers, and `pcl_event_dispatch`, a loop that calls them by position.
A handler may register and unregister handlers and dispatch events itself; the lock is recursive, and other threads wait
for it, so there is one thread here. What a handler does next depends on all that happened so far. The tables are taken
to have no more than 2^30 handlers, where the capacity of their array stays an `int`.
-/

namespace Pcl
open Cursor (Edit)

variable {H : Type}

/-- `pcl_array_indexof` without a compare function. -/
def PArray.indexof [DecidableEq H] (arr : PArray H) (elem : Option H) : Int :=
  match (arr.elements.take arr.count).findIdx? (· = elem) with
  | some i => i
  | none => -1

/-- What a handler calls. -/
inductive EventCall (H : Type) where
  | register (h : Option H)
  | unregister (h : Option H)
  | dispatch (which : UInt32)

/-- What happened: a handler was called by the dispatch at a depth, and returned; a handler made a call; the table was
changed. -/
inductive EventLog (H : Type) where
  | called (depth : Nat) (h : H) (which : UInt32)
  | returned (depth : Nat)
  | asked (c : EventCall H)
  | edited (e : Edit H)

/-- The context, the error state of the thread, and what happened. -/
structure EventState (H : Type) where
  handlers : PArray H
  err : ErrState
  log : List (EventLog H)

def EventState.note (s : EventState H) (entry : EventLog H) : EventState H := { s with log := s.log ++ [entry] }

/-- `ipcl_event_init`. -/
def EventState.init (err : ErrState) : EventState H := ⟨.new 4 false, err, []⟩

/-- `pcl_event_register`. -/
def eventRegister (handler : Option H) (s : EventState H) : Option (EventState H) :=
  match handler with
  | none => some s
  | some h =>
    (s.handlers.append (some h) s.err).map fun (r, err) => (EventState.mk r.2.1 err s.log).note (.edited (.add h))

/-- `pcl_event_unregister`. -/
def eventUnregister [DecidableEq H] (handler : Option H) (s : EventState H) : Option (EventState H) :=
  match handler with
  | none => some s
  | some h =>
    let index := s.handlers.indexof (some h)
    if index ≠ -1 then
      (s.handlers.remove index s.err).map fun (r, err) => (EventState.mk r.2.1 err s.log).note (.edited (.drop h))
    else some s

/-- A part of an execution: a call, the rest of a handler, or the rest of the loop of `pcl_event_dispatch`. -/
inductive EventTask (H : Type) where
  | call (c : EventCall H)
  | handler (h : H) (which : UInt32)
  | loop (which : UInt32) (i : Nat)

/-- The execution of a part, with a bound on its steps; `body` says what a handler calls next, and when it returns. -/
def eventExec [DecidableEq H] (body : H → UInt32 → List (EventLog H) → Option (EventCall H)) :
    Nat → Nat → EventTask H → EventState H → Option (EventState H)
  | 0, _, _, _ => none
  | _ + 1, _, .call (.register h), s => eventRegister h s
  | _ + 1, _, .call (.unregister h), s => eventUnregister h s
  | n + 1, depth, .call (.dispatch which), s => eventExec body n (depth + 1) (.loop which 0) s
  | n + 1, depth, .handler h which, s =>
    match body h which s.log with
    | none => some (s.note (.returned depth))
    | some c => (eventExec body n depth (.call c) (s.note (.asked c))).bind (eventExec body n depth (.handler h which))
  | n + 1, depth, .loop which i, s =>
    if i < s.handlers.count then
      match s.handlers.elements[i]? with
      | some (some h) =>
        (eventExec body n depth (.handler h which) (s.note (.called depth h which))).bind
          (eventExec body n depth (.loop which (i + 1)))
      -- a call of `NULL`
      | _ => none
    else some s

/-- Calls from outside, one after the other. -/
def eventRun [DecidableEq H] (body : H → UInt32 → List (EventLog H) → Option (EventCall H)) (steps : Nat)
    (calls : List (EventCall H)) (s : EventState H) : Option (EventState H) :=
  calls.foldlM (fun s c => eventExec body steps 0 (.call c) s) s

/-! ### The table as a list -/

/-- The table holds the list; what is behind it is not looked at. -/
structure PArray.Lists (arr : PArray H) (l : List H) : Prop where
  count_eq : arr.count = l.length
  capacity_eq : arr.capacity = arr.elements.length
  elements_eq : ∃ rest, arr.elements = l.map some ++ rest

namespace PArray.Lists
variable {arr : PArray H} {l : List H}

theorem init : (PArray.new 4 false : PArray H).Lists [] := ⟨rfl, rfl, _, rfl⟩

theorem getElem? (h : arr.Lists l) {i : Nat} (hi : i < l.length) : arr.elements[i]? = some l[i]? := by
  obtain ⟨rest, helems⟩ := h.elements_eq
  rw [helems, List.getElem?_append_left (by simpa using hi), List.getElem?_map, List.getElem?_eq_getElem hi]
  rfl

theorem append (h : arr.Lists l) (x : H) (e : ErrState) :
    ∃ arr', arr.append (some x) e = some (((l.length : Int) + 1, arr', []), e) ∧ arr'.Lists (l ++ [x]) := by
  obtain ⟨hcount, hcap, rest, helems⟩ := h
  -- there is a slot behind the list
  obtain ⟨slot, rest', hgrow, hgcount, hgcap⟩ : ∃ slot rest', arr.grow.elements = l.map some ++ ([slot] ++ rest') ∧
      arr.grow.count = l.length ∧ arr.grow.capacity = arr.grow.elements.length := by
    unfold PArray.grow
    have hlen := congrArg List.length helems
    rw [List.length_append, List.length_map] at hlen
    by_cases hfull : arr.count = arr.capacity
    · have hnil : rest = [] := List.eq_nil_of_length_eq_zero (by omega)
      obtain ⟨m, hm⟩ : ∃ m, (if arr.capacity > 0 then arr.capacity * 2 else 8) - arr.count = m + 1 := by
        refine ⟨(if arr.capacity > 0 then arr.capacity * 2 else 8) - arr.count - 1, ?_⟩
        split <;> omega
      simp only [if_pos hfull, hm, helems, hnil, List.append_nil, List.replicate_succ]
      refine ⟨none, List.replicate m none, rfl, hcount, ?_⟩
      simp only [List.length_append, List.length_map, List.length_cons, List.length_replicate]
      omega
    · cases rest with
      | nil =>
        rw [List.length_nil] at hlen
        omega
      | cons slot rest =>
        rw [if_neg hfull]
        exact ⟨slot, rest, helems, hcount, hcap⟩
  have hstore := Block.store_append (l.map some) [slot] [some x] rest' rfl
  rw [← hgrow, List.length_map] at hstore
  refine ⟨{ arr.grow with elements := l.map some ++ ([some x] ++ rest'), count := arr.grow.count + 1 }, ?_, ?_, ?_,
    rest', ?_⟩
  · unfold PArray.append PArray.insert
    have hend : ¬ l.length < arr.grow.count := by omega
    simp only [hcount, Int.toNat_natCast, if_neg hend, Option.bind_some, hstore]
    rw [if_neg (by omega), hgcount]
    rfl
  · simp [hgcount]
  · have hlen := congrArg List.length hgrow
    simp only [List.length_append, List.length_cons, List.length_nil] at hlen ⊢
    omega
  · simp

theorem take_count (h : arr.Lists l) : arr.elements.take arr.count = l.map some := by
  obtain ⟨rest, helems⟩ := h.elements_eq
  rw [helems, h.count_eq, List.take_left' (List.length_map _)]

theorem indexof_none [DecidableEq H] (h : arr.Lists l) {x : H} (hx : x ∉ l) : arr.indexof (some x) = -1 := by
  have hfind : (l.map some).findIdx? (· = some x) = none := by
    rw [List.findIdx?_eq_none_iff]
    intro y hy
    obtain ⟨z, hz, rfl⟩ := List.mem_map.1 hy
    exact decide_eq_false fun heq => hx (Option.some.inj heq ▸ hz)
  unfold PArray.indexof
  rw [h.take_count, hfind]

theorem indexof_first [DecidableEq H] {x : H} {pre post : List H} (h : arr.Lists (pre ++ x :: post)) (hx : x ∉ pre) :
    arr.indexof (some x) = pre.length := by
  have hfind : ((pre ++ x :: post).map some).findIdx? (· = some x) = some pre.length := by
    rw [List.findIdx?_eq_some_iff_getElem]
    refine ⟨by simp, by simp, fun j hj => ?_⟩
    rw [List.getElem_map, List.getElem_append_left hj]
    simpa using fun heq : pre[j] = x => hx (heq ▸ List.getElem_mem hj)
  unfold PArray.indexof
  rw [h.take_count, hfind]

/-- The first of the equal ones is removed. -/
theorem remove [DecidableEq H] (h : arr.Lists l) {x : H} (hx : x ∈ l) (e : ErrState) :
    ∃ r arr', arr.remove (arr.indexof (some x)) e = some ((r, arr'), e) ∧ arr'.1.Lists (l.erase x) := by
  obtain ⟨pre, post, hpre, rfl, herase⟩ := List.exists_erase_eq hx
  obtain ⟨rest, helems⟩ := h.elements_eq
  have hcount := h.count_eq
  have hcap := h.capacity_eq
  rw [List.length_append, List.length_cons] at hcount
  have hsplit : arr.elements = pre.map some ++ ([some x] ++ (post.map some ++ rest)) := by
    rw [helems]
    simp
  have hmoved : ∃ rest', (if pre.length < arr.count - 1 then
      Block.move arr.elements pre.length (pre.length + 1) (arr.count - pre.length - 1) else some arr.elements) =
      some (pre.map some ++ (post.map some ++ rest')) ∧
      (pre.map some ++ (post.map some ++ rest')).length = arr.elements.length := by
    by_cases hmid : pre.length < arr.count - 1
    · have hmove := Block.move_down (pre.map some) (post.map some) [some x] rest
      have hn : arr.count - pre.length - 1 = post.length := by omega
      rw [← hsplit, List.length_map, List.length_map, List.length_singleton] at hmove
      exact ⟨_, by rw [if_pos hmid, hn, hmove], Block.move_length hmove⟩
    · have hnil : post = [] := List.eq_nil_of_length_eq_zero (by omega)
      exact ⟨some x :: rest, by rw [if_neg hmid, hsplit, hnil]; rfl, by rw [hsplit, hnil]; rfl⟩
  obtain ⟨rest', hmoved, hlen⟩ := hmoved
  have hthere : arr.elements[pre.length]? = some (some x) := by
    rw [hsplit, List.getElem?_append_right (by simp)]
    simp
  refine ⟨(arr.count : Int) - 1,
    ({ arr with elements := pre.map some ++ (post.map some ++ rest'), count := arr.count - 1 }, arr.cleaned (some x)),
    ?_, ?_⟩
  · unfold PArray.remove
    have hin : ¬ ((pre.length : Int) < 0 ∨ (pre.length : Int) ≥ arr.count) := by omega
    rw [h.indexof_first hpre, if_neg hin]
    simp only [Int.toNat_natCast, hthere, hmoved]
    rfl
  · rw [herase]
    refine ⟨?_, ?_, rest', by simp⟩
    · rw [List.length_append]
      show arr.count - 1 = _
      omega
    · exact h.capacity_eq.trans hlen.symm

end PArray.Lists
end Pcl

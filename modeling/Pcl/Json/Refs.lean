import Pcl.Json.Value
import Pcl.Str.Strtol
import Mathlib.Logic.Function.Basic
import Mathlib.Data.List.Nodup

/-!
# Reference counts

A document as it lies in memory: the tree of its values with the address of each one's block; null, true and false
are singletons without one. The heap has a count and the number of frees for each block. `pcl_json_ref` and
`pcl_json_free` are in `RefM`: they fail on a block that was freed before.
-/

namespace Pcl
variable {R : Type}

/-- `tag_pcl_json`, with the address of its block. -/
inductive Node (R : Type) where
  | null
  | bool (b : Bool)
  | int (a : Nat) (i : Int)
  | real (a : Nat) (r : R)
  | str (a : Nat) (s : CStr)
  | arr (a : Nat) (l : List (Node R))
  | obj (a : Nat) (m : List (CStr × Node R))

namespace Node

def addr? : Node R → Option Nat
  | .null | .bool _ => none
  | .int a _ | .real a _ | .str a _ | .arr a _ | .obj a _ => some a

/-- The elements or members. -/
def children : Node R → List (Node R)
  | .arr _ l => l
  | .obj _ m => m.map Prod.snd
  | .null | .bool _ | .int _ _ | .real _ _ | .str _ _ => []

theorem children_of_none {v : Node R} (h : v.addr? = none) : v.children = [] := by
  cases v <;> first | rfl | cases h

theorem addr_of_child {v c : Node R} (hc : c ∈ v.children) : ∃ a, v.addr? = some a := by
  cases ha : v.addr? with
  | none =>
    rw [children_of_none ha] at hc
    cases hc
  | some a => exact ⟨a, rfl⟩

/-- Induction over a node and what is below it. -/
theorem ind {P : Node R → Prop} (step : ∀ v, (∀ c ∈ v.children, P c) → P v) (v : Node R) : P v := by
  refine Node.rec (motive_1 := P) (motive_2 := fun l => ∀ v ∈ l, P v) (motive_3 := fun m => ∀ p ∈ m, P p.2)
    (motive_4 := fun p => P p.2) (step _ nofun) (fun _ => step _ nofun) (fun _ _ => step _ nofun)
    (fun _ _ => step _ nofun) (fun _ _ => step _ nofun) (fun a l hl => step _ hl) (fun a m hm => step _ ?_)
    ?_ ?_ ?_ ?_ ?_ v
  · intro c hc
    obtain ⟨p, hp, rfl⟩ := List.mem_map.1 hc
    exact hm p hp
  · exact nofun
  · intro v l hv hl w hw
    rcases List.mem_cons.1 hw with rfl | hw
    · exact hv
    · exact hl w hw
  · exact nofun
  · intro p m hp hm q hq
    rcases List.mem_cons.1 hq with rfl | hq
    · exact hp
    · exact hm q hq
  · exact fun k v hv => hv

mutual

/-- The value without its addresses. -/
def json : Node R → Json R
  | .null => .null
  | .bool b => .bool b
  | .int _ i => .int i
  | .real _ r => .real r
  | .str _ s => .str s
  | .arr _ l => .arr (elementsJson l)
  | .obj _ m => .obj (membersJson m)

def elementsJson : List (Node R) → List (Json R)
  | [] => []
  | v :: l => json v :: elementsJson l

def membersJson : List (CStr × Node R) → List (CStr × Json R)
  | [] => []
  | (k, v) :: m => (k, json v) :: membersJson m

end

theorem elementsJson_eq (l : List (Node R)) : elementsJson l = l.map json := by
  induction l with
  | nil => rfl
  | cons v l ih => rw [elementsJson, ih, List.map_cons]

theorem membersJson_eq (m : List (CStr × Node R)) : membersJson m = m.map fun p => (p.1, p.2.json) := by
  induction m with
  | nil => rfl
  | cons p m ih => rw [membersJson, ih, List.map_cons]

theorem json_arr (a : Nat) (l : List (Node R)) : (arr a l).json = .arr (l.map json) := by rw [json, elementsJson_eq]

theorem json_obj (a : Nat) (m : List (CStr × Node R)) : (obj a m).json = .obj (m.map fun p => (p.1, p.2.json)) := by
  rw [json, membersJson_eq]

mutual

/-- The node and all below it. -/
def nodes : Node R → List (Node R)
  | .arr a l => .arr a l :: elementNodes l
  | .obj a m => .obj a m :: memberNodes m
  | .null => [.null]
  | .bool b => [.bool b]
  | .int a i => [.int a i]
  | .real a r => [.real a r]
  | .str a s => [.str a s]

def elementNodes : List (Node R) → List (Node R)
  | [] => []
  | v :: l => nodes v ++ elementNodes l

def memberNodes : List (CStr × Node R) → List (Node R)
  | [] => []
  | (_, v) :: m => nodes v ++ memberNodes m

end

theorem elementNodes_eq (l : List (Node R)) : elementNodes l = l.flatMap nodes := by
  induction l with
  | nil => rfl
  | cons v l ih => rw [elementNodes, ih, List.flatMap_cons]

theorem memberNodes_eq (m : List (CStr × Node R)) : memberNodes m = (m.map Prod.snd).flatMap nodes := by
  induction m with
  | nil => rfl
  | cons p m ih => rw [memberNodes, ih, List.map_cons, List.flatMap_cons]

theorem nodes_eq (v : Node R) : v.nodes = v :: v.children.flatMap nodes := by
  cases v with
  | arr a l => rw [nodes, elementNodes_eq]; rfl
  | obj a m => rw [nodes, memberNodes_eq]; rfl
  | _ => rfl

theorem self_mem_nodes (v : Node R) : v ∈ v.nodes := by
  rw [nodes_eq]
  exact List.mem_cons_self

/-- The addresses of the blocks of a tree. -/
def addrs (v : Node R) : List Nat := v.nodes.filterMap addr?

theorem addrs_eq (v : Node R) : v.addrs = v.addr?.toList ++ v.children.flatMap addrs := by
  have hflat (l : List (Node R)) : (l.flatMap nodes).filterMap addr? = l.flatMap addrs := by
    induction l with
    | nil => rfl
    | cons c l ih => rw [List.flatMap_cons, List.filterMap_append, ih, List.flatMap_cons]; rfl
  rw [addrs, nodes_eq, List.filterMap_cons, hflat]
  cases v.addr? <;> rfl

/-- A block of a tree is its root's or a child's. -/
theorem mem_addrs {v : Node R} {b : Nat} (hb : b ∈ v.addrs) :
    ∃ a, v.addr? = some a ∧ (b = a ∨ ∃ c ∈ v.children, b ∈ c.addrs) := by
  rw [addrs_eq] at hb
  cases ha : v.addr? with
  | none =>
    rw [ha, children_of_none ha] at hb
    cases hb
  | some a =>
    rw [ha] at hb
    rcases List.mem_cons.1 hb with rfl | hb
    · exact ⟨b, rfl, .inl rfl⟩
    · exact ⟨a, rfl, .inr (List.mem_flatMap.1 hb)⟩

theorem mem_addrs_of_child {v c : Node R} (hc : c ∈ v.children) {a : Nat} (ha : a ∈ c.addrs) : a ∈ v.addrs := by
  rw [addrs_eq]
  exact List.mem_append_right _ (List.mem_flatMap.2 ⟨c, hc, ha⟩)

theorem addr_mem_addrs {v u : Node R} (hu : u ∈ v.nodes) {a : Nat} (ha : u.addr? = some a) : a ∈ v.addrs :=
  List.mem_filterMap.2 ⟨u, hu, ha⟩

theorem child_mem_nodes {v u c : Node R} (hu : u ∈ v.nodes) (hc : c ∈ u.children) : c ∈ v.nodes := by
  induction v using Node.ind with
  | step v ih =>
    rw [nodes_eq] at hu ⊢
    rcases List.mem_cons.1 hu with rfl | hu
    · exact List.mem_cons_of_mem _ (List.mem_flatMap.2 ⟨c, hc, self_mem_nodes c⟩)
    · obtain ⟨d, hdv, hud⟩ := List.mem_flatMap.1 hu
      exact List.mem_cons_of_mem _ (List.mem_flatMap.2 ⟨d, hdv, ih d hdv hud⟩)

theorem addrs_subset {v u : Node R} (hu : u ∈ v.nodes) : u.addrs ⊆ v.addrs := by
  induction v using Node.ind with
  | step v ih =>
    rw [nodes_eq] at hu
    rcases List.mem_cons.1 hu with rfl | hu
    · exact fun a ha => ha
    · obtain ⟨c, hcv, huc⟩ := List.mem_flatMap.1 hu
      exact fun a ha => mem_addrs_of_child hcv (ih c hcv huc ha)

/-- The parts of a tree whose blocks are all different. -/
theorem nodup_addrs {v : Node R} (h : v.addrs.Nodup) {a : Nat} (ha : v.addr? = some a) :
    (v.children.flatMap addrs).Nodup ∧ ∀ c ∈ v.children, a ∉ c.addrs := by
  rw [addrs_eq, ha] at h
  obtain ⟨hnotin, hnodup⟩ := List.nodup_cons.1 h
  exact ⟨hnodup, fun c hc hac => hnotin (List.mem_flatMap.2 ⟨c, hc, hac⟩)⟩

/-- How many times a list of nodes holds the block at an address. -/
def heldBy (l : List (Node R)) (a : Nat) : Nat := (l.filterMap addr?).count a

theorem heldBy_cons (u : Node R) (l : List (Node R)) (a : Nat) :
    heldBy (u :: l) a = heldBy l a + if u.addr? = some a then 1 else 0 := by
  unfold heldBy
  cases hu : u.addr? with
  | none => simp [hu]
  | some b => simp [hu, List.count_cons]

theorem heldBy_append (l m : List (Node R)) (a : Nat) : heldBy (l ++ m) a = heldBy l a + heldBy m a := by
  unfold heldBy
  rw [List.filterMap_append, List.count_append]

end Node

/-! ### Counting and freeing -/

/-- The blocks of all nodes: `nrefs`, and how many times each was freed. -/
@[ext] structure Heap where
  nrefs : Nat → Int
  freed : Nat → Nat

/-- Where the walk over a path or a change of a count goes wrong. -/
inductive RefFault where
  | useAfterFree
  | overflow
  | nullNext
  | noFuel
deriving DecidableEq

abbrev RefM (α : Type) := Heap → Except RefFault (α × Heap)

namespace RefM
variable {α β : Type}

instance : Monad RefM where
  pure a := fun h => .ok (a, h)
  bind x f := fun h =>
    match x h with
    | .ok p => f p.1 p.2
    | .error fault => .error fault

def fault (f : RefFault) : RefM α := fun _ => .error f

theorem bind_ok {x : RefM α} {f : α → RefM β} {h h' : Heap} {a : α} (hx : x h = .ok (a, h')) : (x >>= f) h = f a h' := by
  show (match x h with | .ok p => f p.1 p.2 | .error fault => .error fault) = _
  rw [hx]

theorem bind_inv {x : RefM α} {f : α → RefM β} {h : Heap} {p : β × Heap} (hx : (x >>= f) h = .ok p) :
    ∃ a h', x h = .ok (a, h') ∧ f a h' = .ok p := by
  change (match x h with | .ok p => f p.1 p.2 | .error fault => .error fault) = _ at hx
  cases hxh : x h with
  | error fault =>
    rw [hxh] at hx
    cases hx
  | ok q =>
    rw [hxh] at hx
    exact ⟨q.1, q.2, rfl, hx⟩

theorem bind_error {x : RefM α} {f : α → RefM β} {h : Heap} {fault : RefFault} (hx : (x >>= f) h = .error fault) :
    x h = .error fault ∨ ∃ a h', x h = .ok (a, h') ∧ f a h' = .error fault := by
  change (match x h with | .ok p => f p.1 p.2 | .error fault => .error fault) = _ at hx
  cases hxh : x h with
  | error fault' =>
    rw [hxh] at hx
    cases hx
    exact .inl rfl
  | ok q =>
    rw [hxh] at hx
    exact .inr ⟨q.1, q.2, rfl, hx⟩

end RefM

/-- The count of a block changes. -/
def Heap.count (h : Heap) (a : Nat) (n : Int) : Heap := { h with nrefs := Function.update h.nrefs a n }

/-- A block is freed. -/
def Heap.free (h : Heap) (a : Nat) : Heap := { h with freed := Function.update h.freed a (h.freed a + 1) }

/-- `pcl_json_ref`. -/
def jsonRef (j : Node R) (amt : Int) : RefM Unit :=
  match j.addr? with
  | none => pure ()
  | some a => fun h =>
    if h.freed a ≠ 0 then .error .useAfterFree
    else if h.nrefs a + amt < intMin ∨ h.nrefs a + amt > intMax then .error .overflow
    else .ok ((), h.count a (h.nrefs a + amt))

/-- `j->nrefs` of a block. -/
def nrefsOf (a : Nat) : RefM Int := fun h => if h.freed a ≠ 0 then .error .useAfterFree else .ok (h.nrefs a, h)

/-- `pcl_free` of a block. -/
def pclFree (a : Nat) : RefM Unit := fun h => if h.freed a ≠ 0 then .error .useAfterFree else .ok ((), h.free a)

/-- `pcl_json_free` of the node in a block, with what is to be done for what the node owns. -/
def freeBlock (j : Node R) (a : Nat) (owned : RefM Unit) : RefM Unit := do
  jsonRef j (-1)
  if (← nrefsOf a) > 0 then return ()
  else
    owned
    pclFree a

mutual

/-- `pcl_json_free`. -/
def jsonFree : Node R → RefM Unit
  | .null | .bool _ => pure ()
  | .int a i => freeBlock (.int a i : Node R) a (pure ())
  | .real a r => freeBlock (.real a r) a (pure ())
  | .str a s => freeBlock (.str a s : Node R) a (pure ())
  | .arr a l => freeBlock (.arr a l) a (freeElements l)
  | .obj a m => freeBlock (.obj a m) a (freeEntries m)

/-- `pcl_array_free`, with the cleanup callback of `pcl_json_arr`. -/
def freeElements : List (Node R) → RefM Unit
  | [] => pure ()
  | v :: l => do
    jsonFree v
    freeElements l

/-- `pcl_htable_free`, with the callback of `pcl_json_obj`. -/
def freeEntries : List (CStr × Node R) → RefM Unit
  | [] => pure ()
  | (_, v) :: m => do
    jsonFree v
    freeEntries m

end

theorem freeEntries_eq (m : List (CStr × Node R)) : freeEntries m = freeElements (m.map Prod.snd) := by
  induction m with
  | nil => rfl
  | cons p m ih => rw [freeEntries, ih, List.map_cons, freeElements]

theorem jsonFree_none {v : Node R} (h : v.addr? = none) : jsonFree v = pure () := by
  cases v with
  | null => rw [jsonFree]
  | bool b => rw [jsonFree]
  | _ => cases h

theorem jsonFree_some {v : Node R} {a : Nat} (h : v.addr? = some a) : jsonFree v = freeBlock v a (freeElements v.children) := by
  cases v with
  | null => cases h
  | bool b => cases h
  | obj b m => cases h; rw [jsonFree, freeEntries_eq]; rfl
  | _ => cases h; rw [jsonFree]; simp only [Node.children, freeElements]

@[simp] theorem Heap.count_nrefs (h : Heap) (a : Nat) (n : Int) : (h.count a n).nrefs a = n :=
  Function.update_self ..

theorem Heap.count_nrefs_ne (h : Heap) {a b : Nat} (n : Int) (hne : b ≠ a) : (h.count a n).nrefs b = h.nrefs b :=
  Function.update_of_ne hne ..

@[simp] theorem Heap.count_freed (h : Heap) (a : Nat) (n : Int) : (h.count a n).freed = h.freed := rfl

@[simp] theorem Heap.free_freed (h : Heap) (a : Nat) : (h.free a).freed a = h.freed a + 1 := Function.update_self ..

/-- What is not in the list is as it was. -/
def Heap.SameOff (s : List Nat) (h h' : Heap) : Prop := ∀ a, a ∉ s → h'.nrefs a = h.nrefs a ∧ h'.freed a = h.freed a

namespace Heap.SameOff
variable {s t : List Nat} {h h' h'' : Heap}

theorem rfl : SameOff s h h := fun _ _ => ⟨Eq.refl _, Eq.refl _⟩

theorem trans (h₁ : SameOff s h h') (h₂ : SameOff s h' h'') : SameOff s h h'' := fun a ha =>
  ⟨(h₂ a ha).1.trans (h₁ a ha).1, (h₂ a ha).2.trans (h₁ a ha).2⟩

theorem mono (h₁ : SameOff s h h') (hst : s ⊆ t) : SameOff t h h' := fun a ha => h₁ a fun has => ha (hst has)

end Heap.SameOff

theorem Heap.count_sameOff {h : Heap} {s : List Nat} {a : Nat} (ha : a ∈ s) (n : Int) : h.SameOff s (h.count a n) := by
  intro b hb
  have hne : b ≠ a := fun heq => hb (heq ▸ ha)
  exact ⟨h.count_nrefs_ne n hne, rfl⟩

theorem Heap.free_sameOff {h : Heap} {s : List Nat} {a : Nat} (ha : a ∈ s) : h.SameOff s (h.free a) := by
  intro b hb
  have hne : b ≠ a := fun heq => hb (heq ▸ ha)
  exact ⟨rfl, Function.update_of_ne hne ..⟩

section FreeBlock
variable {v : Node R} {a : Nat} {owned : RefM Unit} {h h' : Heap}

theorem jsonRef_ok {amt : Int} (ha : v.addr? = some a) (hfreed : h.freed a = 0)
    (hrange : intMin ≤ h.nrefs a + amt ∧ h.nrefs a + amt ≤ intMax) :
    jsonRef v amt h = .ok ((), h.count a (h.nrefs a + amt)) := by
  rw [jsonRef, ha]
  show (if h.freed a ≠ 0 then _ else if _ then _ else _) = _
  rw [if_neg (not_not.2 hfreed), if_neg (by omega)]

theorem jsonRef_inv {amt : Int} {p : Unit × Heap} (hrun : jsonRef v amt h = .ok p) :
    v.addr? = none ∧ p = ((), h) ∨
      ∃ a, v.addr? = some a ∧ h.nrefs a + amt ≤ intMax ∧ p = ((), h.count a (h.nrefs a + amt)) := by
  unfold jsonRef at hrun
  cases ha : v.addr? with
  | none =>
    rw [ha] at hrun
    cases hrun
    exact .inl ⟨rfl, rfl⟩
  | some a =>
    rw [ha] at hrun
    change (if h.freed a ≠ 0 then _ else if _ then _ else _) = _ at hrun
    by_cases hfreed : h.freed a ≠ 0
    · rw [if_pos hfreed] at hrun
      cases hrun
    by_cases hrange : h.nrefs a + amt < intMin ∨ h.nrefs a + amt > intMax
    · rw [if_neg hfreed, if_pos hrange] at hrun
      cases hrun
    · rw [if_neg hfreed, if_neg hrange] at hrun
      cases hrun
      exact .inr ⟨a, rfl, by omega, rfl⟩

theorem nrefsOf_ok (hfreed : h.freed a = 0) : nrefsOf a h = .ok (h.nrefs a, h) := if_neg (not_not.2 hfreed)

theorem pclFree_ok (hfreed : h.freed a = 0) : pclFree a h = .ok ((), h.free a) := if_neg (not_not.2 hfreed)

/-- The block is still in use. -/
theorem freeBlock_keep (ha : v.addr? = some a) (hfreed : h.freed a = 0) (hmore : 1 < h.nrefs a)
    (hmax : h.nrefs a ≤ intMax) : freeBlock v a owned h = .ok ((), h.count a (h.nrefs a - 1)) := by
  rw [freeBlock, RefM.bind_ok (jsonRef_ok ha hfreed ⟨by unfold intMin; omega, by omega⟩),
    RefM.bind_ok (nrefsOf_ok (h := h.count a _) hfreed), Heap.count_nrefs, if_pos (by omega)]
  rfl

/-- The last reference to the block. -/
theorem freeBlock_last (ha : v.addr? = some a) (hfreed : h.freed a = 0) (hone : h.nrefs a = 1)
    (howned : owned (h.count a 0) = .ok ((), h')) (hfreed' : h'.freed a = 0) :
    freeBlock v a owned h = .ok ((), h'.free a) := by
  have hrange : intMin ≤ h.nrefs a + -1 ∧ h.nrefs a + -1 ≤ intMax := by
    rw [hone]
    decide
  rw [freeBlock, RefM.bind_ok (jsonRef_ok ha hfreed hrange), RefM.bind_ok (nrefsOf_ok (h := h.count a _) hfreed), Heap.count_nrefs,
    if_neg (by omega), hone]
  exact (RefM.bind_ok howned).trans (pclFree_ok hfreed')

end FreeBlock

end Pcl

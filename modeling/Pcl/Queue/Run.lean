import Pcl.Lib.Follow
import Pcl.Queue.Ops
import Mathlib.Data.List.Perm.Subperm

/-!
# First in, first out and last in, first out

Any number of queues and stacks on one heap, under any run of operations. `links_follow`: they behave as lists do, to
which values are added at one end; the heap holds the items of the live ones and nothing else. The one exception is a
size beyond `INT_MAX`.
-/

namespace Pcl
variable {β : Type}

/-! ### What they are for -/

inductive LinkKind where
  | queue
  | stack
deriving DecidableEq

/-- The values, the next one to come out first. -/
structure Contents (β : Type) where
  kind : LinkKind
  cleanup : Bool
  values : List (Option β)

inductive LinkOp (β : Type) where
  | create (cleanup : Bool)
  | add (h : Option Nat) (item : Option β)
  | peek (h : Option Nat)
  | remove (h : Option Nat)
  | size (h : Option Nat)
  | empty (h : Option Nat)
  | clear (h : Option Nat)
  | free (h : Option Nat)

/-- What the operation is called on. -/
def LinkOp.handle : LinkOp β → Option Nat
  | .create _ => none
  | .add h _ | .peek h | .remove h | .size h | .empty h | .clear h | .free h => h

inductive LinkAnswer (β : Type) where
  | done
  | handle (h : Nat)
  | value (v : Option β)
  | size (n : Int)
  | empty (b : Bool)
  | cleaned (vs : List (Option β))

/-- An operation on queues or on stacks. -/
def linkStep (st : LinkStore β) : LinkKind × LinkOp β → Option (LinkAnswer β × LinkStore β)
  | (.queue, .create c) => some (.handle (pclQueue c st).1, (pclQueue c st).2)
  | (.queue, .add q item) => (queueAdd q item st).map fun st => (.done, st)
  | (.queue, .peek q) => (queuePeek q st).map fun v => (.value v, st)
  | (.queue, .remove q) => (queueRemove q st).map fun (v, st) => (.value v, st)
  | (.queue, .size q) => (queueSize q st).map fun n => (.size n, st)
  | (.queue, .empty q) => (queueEmpty q st).map fun b => (.empty b, st)
  | (.queue, .clear q) => (queueClear q st).map fun (vs, st) => (.cleaned vs, st)
  | (.queue, .free q) => (queueFree q st).map fun (vs, st) => (.cleaned vs, st)
  | (.stack, .create c) => some (.handle (pclStack c st).1, (pclStack c st).2)
  | (.stack, .add s item) => (stackPush s item st).map fun st => (.done, st)
  | (.stack, .peek s) => (stackPeek s st).map fun v => (.value v, st)
  | (.stack, .remove s) => (stackPop s st).map fun (v, st) => (.value v, st)
  | (.stack, .size s) => (stackSize s st).map fun n => (.size n, st)
  | (.stack, .empty s) => (stackEmpty s st).map fun b => (.empty b, st)
  | (.stack, .clear s) => (stackClear s st).map fun (vs, st) => (.cleaned vs, st)
  | (.stack, .free s) => (stackFree s st).map fun (vs, st) => (.cleaned vs, st)

abbrev Shelf (β : Type) := Cells (Contents β)

namespace Shelf

/-- What is in the object; nothing is in `NULL`. -/
def values (t : Shelf β) (h : Option Nat) : List (Option β) := ((h.bind t.read).map Contents.values).getD []

def change (t : Shelf β) (h : Option Nat) (f : Contents β → List (Option β)) : Shelf β :=
  match h with
  | none => t
  | some a =>
    match t.read a with
    | none => t
    | some c => t.write a { c with values := f c }

/-- What the cleanup handler gets. -/
def cleaned (t : Shelf β) (h : Option Nat) : List (Option β) :=
  match h.bind t.read with
  | none => []
  | some c => if c.cleanup then c.values else []

/-- Where a new value goes. -/
def Contents.put (v : Option β) (c : Contents β) : List (Option β) :=
  match c.kind with
  | .queue => c.values ++ [v]
  | .stack => v :: c.values

end Shelf

/-- The operations on lists. -/
def linkSpec : Follow.Spec (Shelf β) (LinkKind × LinkOp β) (LinkAnswer β) where
  next t o :=
    match o.2 with
    | .create c => t.alloc ⟨o.1, c, []⟩
    | .add h v => t.change h (Shelf.Contents.put v)
    | .remove h => t.change h fun c => c.values.tail
    | .clear h => t.change h fun _ => []
    | .free h => h.elim t t.free
    | .peek _ | .size _ | .empty _ => t
  answer t o :=
    match o.2 with
    | .create _ => .handle t.length
    | .add _ _ => .done
    | .peek h | .remove h => .value (t.values h).head?.join
    | .size h => .size (t.values h).length
    | .empty h => .empty (t.values h).isEmpty
    | .clear h | .free h => .cleaned (t.cleaned h)

/-- The caller's part: an object that is in use, and of that kind. -/
def LinkLegal (t : Shelf β) (o : LinkKind × LinkOp β) : Prop :=
  ∀ a, o.2.handle = some a → ∃ c, t.read a = some c ∧ c.kind = o.1

instance (t : Shelf β) (o : LinkKind × LinkOp β) : Decidable (LinkLegal t o) :=
  decidable_of_iff (o.2.handle.all fun a => (t.read a).map Contents.kind = some o.1)
    (by simp [LinkLegal, Option.all_eq_true])

/-- The size that a new value finds. -/
def Shelf.sizeFor (t : Shelf β) : LinkOp β → Int
  | .add (some a) _ => (t.values (some a)).length
  | _ => 0

def LinkFits (t : Shelf β) (o : LinkKind × LinkOp β) : Prop := t.sizeFor o.2 ≠ intMax

instance (t : Shelf β) (o : LinkKind × LinkOp β) : Decidable (LinkFits t o) := inferInstanceAs (Decidable (_ ≠ _))

/-! ### The heap -/

/-- An object stands for what is in it, and the items at `l` are its own. -/
def Stands (items : Cells (LinkItem β)) (l : List Nat) : Option LinkObject → Option (Contents β) → Prop
  | none, none => l = []
  | some (.queue q), some c => c.kind = .queue ∧ q.cleanup = c.cleanup ∧ q.size = c.values.length ∧
      Line items q.head l c.values ∧ q.tail = l.getLast?
  | some (.stack s), some c => c.kind = .stack ∧ s.cleanup = c.cleanup ∧ s.size = c.values.length ∧
      Line items s.head l c.values
  | _, _ => False

/-- The items in use are those of the objects in use, each of one of them. -/
structure LinksAt (st : LinkStore β) (t : Shelf β) (own : Nat → List Nat) : Prop where
  owned : st.items.Owned own
  length_eq : st.objects.length = t.length
  stands : ∀ i, Stands st.items (own i) (st.objects.read i) (t.read i)

def Links (st : LinkStore β) (t : Shelf β) : Prop := ∃ own, LinksAt st t own

section
variable {items items' : Cells (LinkItem β)} {l : List Nat} {st st' : LinkStore β} {t t' : Shelf β} {own : Nat → List Nat}
  {a : Nat} {c : Contents β}

theorem Stands.congr {o : Option LinkObject} {c : Option (Contents β)} (hsame : ∀ a ∈ l, items'.read a = items.read a)
    (h : Stands items l o c) : Stands items' l o c := by
  unfold Stands at h ⊢
  split at h
  · exact h
  · exact ⟨h.1, h.2.1, h.2.2.1, h.2.2.2.1.congr hsame, h.2.2.2.2⟩
  · exact ⟨h.1, h.2.1, h.2.2.1, h.2.2.2.congr hsame⟩
  · exact h.elim

/-- One object exchanges its items. -/
theorem LinksAt.exchange (h : LinksAt st t own) (i : Nat) (l : List Nat)
    (hsame : ∀ a, a ∉ own i → a ∉ l → st'.items.read a = st.items.read a)
    (hgone : ∀ a ∈ own i, a ∉ l → st'.items.read a = none)
    (hnew : ∀ a ∈ l, st'.items.read a ≠ none ∧ (a ∈ own i ∨ st.items.read a = none))
    (hobjects : ∀ j, j ≠ i → st'.objects.read j = st.objects.read j) (hshelf : ∀ j, j ≠ i → t'.read j = t.read j)
    (hlen : st'.objects.length = t'.length) (hstands : Stands st'.items l (st'.objects.read i) (t'.read i)) :
    LinksAt st' t' (Function.update own i l) := by
  refine ⟨h.owned.exchange i l hsame hgone hnew, hlen, fun j => ?_⟩
  by_cases hj : j = i
  · rw [hj, Function.update_self]
    exact hstands
  · rw [Function.update_of_ne hj, hobjects j hj, hshelf j hj]
    refine (h.stands j).congr fun a ha => hsame a (fun hi => hj (h.owned.disjoint j i a ha hi)) fun hl => ?_
    exact (hnew a hl).2.elim (fun hi => hj (h.owned.disjoint j i a ha hi)) fun hnone => (h.owned.live a).2 ⟨j, ha⟩ hnone

theorem LinksAt.object (h : LinksAt st t own) (hc : t.read a = some c) : ∃ o, st.objects.read a = some o := by
  have hstands := h.stands a
  rw [hc] at hstands
  cases ho : st.objects.read a with
  | none =>
    rw [ho] at hstands
    exact hstands.elim
  | some o => exact ⟨o, rfl⟩

/-- One object changes, and with it what is in it. -/
theorem LinksAt.change (h : LinksAt st t own) (hc : t.read a = some c) {o : LinkObject} {c' : Contents β}
    (l : List Nat) (hsame : ∀ b, b ∉ own a → b ∉ l → items'.read b = st.items.read b)
    (hgone : ∀ b ∈ own a, b ∉ l → items'.read b = none)
    (hnew : ∀ b ∈ l, items'.read b ≠ none ∧ (b ∈ own a ∨ st.items.read b = none))
    (hstands : Stands items' l (some o) (some c')) :
    LinksAt ⟨items', st.objects.write a o⟩ (t.write a c') (Function.update own a l) := by
  obtain ⟨o', ho'⟩ := h.object hc
  have hobject : st.objects.read a ≠ none := by simp [ho']
  have hshelf : t.read a ≠ none := by simp [hc]
  refine h.exchange a l hsame hgone hnew (fun j hj => ?_) (fun j hj => ?_) ?_ ?_
  · rw [Cells.read_write hobject, if_neg hj]
  · rw [Cells.read_write hshelf, if_neg hj]
  · rw [Cells.length_write, Cells.length_write, h.length_eq]
  · rw [Cells.read_write hobject, if_pos rfl, Cells.read_write hshelf, if_pos rfl]
    exact hstands

theorem LinksAt.queue (h : LinksAt st t own) (hc : t.read a = some c) (hkind : c.kind = .queue) :
    ∃ q, st.queue a = some q ∧ q.cleanup = c.cleanup ∧ q.size = c.values.length ∧
      Line st.items q.head (own a) c.values ∧ q.tail = (own a).getLast? := by
  have hstands := h.stands a
  obtain ⟨o, ho⟩ := h.object hc
  unfold LinkStore.queue
  rw [hc, ho] at hstands
  rw [ho]
  cases o with
  | queue q => exact ⟨q, rfl, hstands.2⟩
  | stack s =>
    rw [hstands.1] at hkind
    cases hkind

theorem LinksAt.stack (h : LinksAt st t own) (hc : t.read a = some c) (hkind : c.kind = .stack) :
    ∃ s, st.stack a = some s ∧ s.cleanup = c.cleanup ∧ s.size = c.values.length ∧
      Line st.items s.head (own a) c.values := by
  have hstands := h.stands a
  obtain ⟨o, ho⟩ := h.object hc
  unfold LinkStore.stack
  rw [hc, ho] at hstands
  rw [ho]
  cases o with
  | queue q =>
    rw [hstands.1] at hkind
    cases hkind
  | stack s => exact ⟨s, rfl, hstands.2⟩

/-! ### Adding -/

theorem queueAdd_links (h : LinksAt st t own) (hc : t.read a = some c) (hkind : c.kind = .queue)
    (hfits : (c.values.length : Int) ≠ intMax) (v : Option β) :
    ∃ st', queueAdd (some a) v st = some st' ∧ Links st' (t.write a { c with values := c.values ++ [v] }) := by
  obtain ⟨q, hq, hcleanup, hsize, hline, htail⟩ := h.queue hc hkind
  have hfresh := h.owned.fresh a
  have hunused := Cells.read_length st.items
  unfold queueAdd
  simp only [hq, Option.bind_some, hsize, if_neg hfits, htail]
  rcases List.eq_nil_or_concat (own a) with hnil | ⟨l, p, hown⟩
  · have hvalues : c.values = [] := by
      have := hline.length_eq
      rw [hnil] at this
      exact List.eq_nil_of_length_eq_zero this.symm
    rw [hnil, List.getLast?_nil]
    refine ⟨_, rfl, _, h.change hc [st.items.length] ?_ ?_ ?_ ⟨hkind, hcleanup, ?_, ?_, rfl⟩⟩
    · intro b _ hb
      rw [Cells.read_alloc, if_neg fun heq => hb (List.mem_singleton.2 heq)]
    · rw [hnil]
      intro b hb
      cases hb
    · intro b hb
      rw [List.mem_singleton.1 hb, Cells.read_alloc, if_pos rfl]
      exact ⟨Option.some_ne_none _, .inr hunused⟩
    · simp
    · rw [hvalues]
      refine ⟨rfl, none, ?_, rfl⟩
      rw [Cells.read_alloc, if_pos rfl]
  · rw [List.concat_eq_append] at hown
    obtain ⟨vs, w, hvalues⟩ : ∃ vs w, c.values = vs ++ [w] := by
      rcases List.eq_nil_or_concat c.values with hnil | ⟨vs, w, hvalues⟩
      · have := hline.length_eq
        rw [hnil, hown] at this
        simp at this
      · exact ⟨vs, w, by rw [hvalues, List.concat_eq_append]⟩
    rw [hown, hvalues] at hline
    have hlast := hline.last
    have hpused : st.items.read p ≠ none := by simp [hlast]
    have hpne : p ≠ st.items.length := fun heq => hpused (heq ▸ hunused)
    have hpread : (st.items.alloc ⟨none, v⟩).read p = some ⟨none, w⟩ := by
      rw [Cells.read_alloc, if_neg hpne, hlast]
    have hpthere : (st.items.alloc ⟨none, v⟩).read p ≠ none := by simp [hpread]
    have hread (b : Nat) : ((st.items.alloc ⟨none, v⟩).write p ⟨some st.items.length, w⟩).read b =
        if b = p then some ⟨some st.items.length, w⟩
        else if b = st.items.length then some ⟨none, v⟩ else st.items.read b := by
      rw [Cells.read_write hpthere, Cells.read_alloc]
    have hfront (b : Nat) (hb : b ∈ l) : b ≠ p ∧ b ≠ st.items.length := by
      have hnodup := hline.nodup
      rw [List.nodup_append] at hnodup
      refine ⟨hnodup.2.2 b hb p (List.mem_singleton_self p), fun heq => hfresh ?_⟩
      rw [← heq, hown]
      exact List.mem_append_left _ hb
    rw [hown, List.getLast?_concat]
    simp only [hpread, Option.map_some]
    refine ⟨_, rfl, _, h.change hc (l ++ [p] ++ [st.items.length]) ?_ ?_ ?_ ⟨hkind, hcleanup, ?_, ?_, ?_⟩⟩
    · intro b hb hb'
      rw [hown] at hb
      rw [hread, if_neg fun heq => hb (by simp [heq]), if_neg fun heq => hb' (by simp [heq])]
    · rw [hown]
      intro b hb hb'
      exact absurd (List.mem_append_left _ hb) hb'
    · intro b hb
      rw [← hown] at hb
      rcases List.mem_append.1 hb with hb | hb
      · refine ⟨?_, .inl hb⟩
        rw [hread]
        by_cases hp : b = p
        · simp [hp]
        · have hne : b ≠ st.items.length := fun heq => hfresh (heq ▸ hb)
          rw [if_neg hp, if_neg hne]
          exact (h.owned.live b).2 ⟨a, hb⟩
      · rw [List.mem_singleton.1 hb, hread, if_neg (Ne.symm hpne), if_pos rfl]
        exact ⟨Option.some_ne_none _, .inr hunused⟩
    · simp
    · rw [hvalues]
      refine hline.snoc ?_ ?_ fun b hb => ?_
      · rw [hread, if_pos rfl]
      · rw [hread, if_neg (Ne.symm hpne), if_pos rfl]
      · rw [hread, if_neg (hfront b hb).1, if_neg (hfront b hb).2]
    · rw [List.getLast?_concat]

theorem stackPush_links (h : LinksAt st t own) (hc : t.read a = some c) (hkind : c.kind = .stack)
    (hfits : (c.values.length : Int) ≠ intMax) (v : Option β) :
    ∃ st', stackPush (some a) v st = some st' ∧ Links st' (t.write a { c with values := v :: c.values }) := by
  obtain ⟨s, hs, hcleanup, hsize, hline⟩ := h.stack hc hkind
  have hfresh := h.owned.fresh a
  have hread (b : Nat) := Cells.read_alloc st.items ⟨s.head, v⟩ b
  have hother {b : Nat} (hb : b ∈ own a) : b ≠ st.items.length := fun heq => hfresh (heq ▸ hb)
  unfold stackPush
  simp only [hs, Option.bind_some, hsize, if_neg hfits]
  refine ⟨_, rfl, _, h.change hc (st.items.length :: own a) ?_ ?_ ?_ ⟨hkind, hcleanup, ?_, rfl, s.head, ?_, ?_⟩⟩
  · intro b _ hb
    rw [hread, if_neg fun heq => hb (by simp [heq])]
  · intro b hb hb'
    exact absurd (List.mem_cons_of_mem _ hb) hb'
  · intro b hb
    rw [hread]
    rcases List.mem_cons.1 hb with rfl | hb
    · rw [if_pos rfl]
      exact ⟨Option.some_ne_none _, .inr (Cells.read_length st.items)⟩
    · rw [if_neg (hother hb)]
      exact ⟨(h.owned.live b).2 ⟨a, hb⟩, .inl hb⟩
  · simp
  · rw [hread, if_pos rfl]
  · refine hline.congr fun b hb => ?_
    rw [hread, if_neg (hother hb)]

/-! ### Removing -/

/-- The first item is freed. -/
theorem LinksAt.pop (h : LinksAt st t own) (hc : t.read a = some c) {b : Nat} {l : List Nat} (hown : own a = b :: l)
    (hb : b ∉ l) {o : LinkObject} {c' : Contents β} (hstands : Stands (st.items.free b) l (some o) (some c')) :
    Links ⟨st.items.free b, st.objects.write a o⟩ (t.write a c') := by
  have hread (x : Nat) := Cells.read_free st.items b x
  refine ⟨_, h.change hc l ?_ ?_ ?_ hstands⟩
  · intro x hx _
    rw [hread, if_neg fun heq => hx (by simp [hown, heq])]
  · intro x hx hx'
    rw [hown] at hx
    rw [hread, if_pos ((List.mem_cons.1 hx).resolve_right hx')]
  · intro x hx
    have hmem : x ∈ own a := hown ▸ List.mem_cons_of_mem b hx
    have hne : x ≠ b := fun heq => hb (heq ▸ hx)
    rw [hread, if_neg hne]
    exact ⟨(h.owned.live x).2 ⟨a, hmem⟩, .inl hmem⟩

/-- What is in front. -/
theorem front {s : Option Nat} {v : Option β} {vs : List (Option β)} (hline : Line items s l (v :: vs)) :
    ∃ b l' next, l = b :: l' ∧ s = some b ∧ items.read b = some ⟨next, v⟩ ∧ b ∉ l' ∧ next = l'.head? ∧
      Line (items.free b) next l' vs := by
  have hnodup := hline.nodup
  obtain ⟨b, l', next, rfl, hs, hread, hrest⟩ := hline.head
  have hb := (List.nodup_cons.1 hnodup).1
  refine ⟨b, l', next, rfl, hs, hread, hb, hrest.chain.head_eq, hrest.congr fun x hx => ?_⟩
  have hne : x ≠ b := fun heq => hb (heq ▸ hx)
  rw [Cells.read_free, if_neg hne]

theorem queueEmpty_links {q : Queue} (hq : st.queue a = some q) (hsize : q.size = c.values.length) :
    queueEmpty (some a) st = some c.values.isEmpty := by
  unfold queueEmpty queueSize
  simp only [hq, Option.map_some, hsize]
  cases c.values with
  | nil => rfl
  | cons v vs => exact congrArg some (beq_eq_false_iff_ne.2 (by simp; omega))

theorem stackEmpty_links {s : Stack} (hs : st.stack a = some s) (hsize : s.size = c.values.length) :
    stackEmpty (some a) st = some c.values.isEmpty := by
  unfold stackEmpty stackSize
  simp only [hs, Option.map_some, hsize]
  cases c.values with
  | nil => rfl
  | cons v vs => exact congrArg some (beq_eq_false_iff_ne.2 (by simp; omega))

theorem queuePeek_links (h : LinksAt st t own) (hc : t.read a = some c) (hkind : c.kind = .queue) :
    queuePeek (some a) st = some c.values.head?.join := by
  obtain ⟨q, hq, -, hsize, hline, -⟩ := h.queue hc hkind
  unfold queuePeek
  rw [queueEmpty_links hq hsize]
  cases hvalues : c.values with
  | nil => rfl
  | cons v vs =>
    rw [hvalues] at hline
    obtain ⟨b, l', next, -, hhead, hread, -⟩ := front hline
    simp only [Option.bind_some, List.isEmpty_cons, Bool.false_eq_true, if_false, hq, hhead, hread, Option.map_some]
    rfl

theorem stackPeek_links (h : LinksAt st t own) (hc : t.read a = some c) (hkind : c.kind = .stack) :
    stackPeek (some a) st = some c.values.head?.join := by
  obtain ⟨s, hs, -, hsize, hline⟩ := h.stack hc hkind
  unfold stackPeek
  rw [stackEmpty_links hs hsize]
  cases hvalues : c.values with
  | nil => rfl
  | cons v vs =>
    rw [hvalues] at hline
    obtain ⟨b, l', next, -, hhead, hread, -⟩ := front hline
    simp only [Option.bind_some, List.isEmpty_cons, Bool.false_eq_true, if_false, hs, hhead, hread, Option.map_some]
    rfl

theorem queueRemove_links (h : LinksAt st t own) (hc : t.read a = some c) (hkind : c.kind = .queue) :
    ∃ st', queueRemove (some a) st = some (c.values.head?.join, st') ∧
      Links st' (t.write a { c with values := c.values.tail }) := by
  obtain ⟨q, hq, hcleanup, hsize, hline, htail⟩ := h.queue hc hkind
  unfold queueRemove
  rw [queueEmpty_links hq hsize]
  cases hvalues : c.values with
  | nil =>
    have hsame : ({ c with values := [] } : Contents β) = c := by rw [← hvalues]
    refine ⟨st, rfl, own, ?_⟩
    rw [List.tail_nil, hsame, Cells.write_self hc]
    exact h
  | cons v vs =>
    rw [hvalues] at hline
    obtain ⟨b, l', next, hown, hhead, hread, hb, hnext, hrest⟩ := front hline
    simp only [Option.bind_some, List.isEmpty_cons, Bool.false_eq_true, if_false, hq, hhead, hread, Option.map_some]
    have hsize' : q.size - 1 = (vs.length : Int) := by simp [hsize, hvalues]
    subst hnext
    -- the tail is taken back with the last item
    cases l' with
    | nil => exact ⟨_, rfl, h.pop hc hown hb ⟨hkind, hcleanup, hsize', hrest, rfl⟩⟩
    | cons b' l' =>
      refine ⟨_, rfl, h.pop hc hown hb ⟨hkind, hcleanup, hsize', hrest, ?_⟩⟩
      rw [hown, List.getLast?_cons_cons] at htail
      exact htail

theorem stackPop_links (h : LinksAt st t own) (hc : t.read a = some c) (hkind : c.kind = .stack) :
    ∃ st', stackPop (some a) st = some (c.values.head?.join, st') ∧
      Links st' (t.write a { c with values := c.values.tail }) := by
  obtain ⟨s, hs, hcleanup, hsize, hline⟩ := h.stack hc hkind
  unfold stackPop
  rw [stackEmpty_links hs hsize]
  cases hvalues : c.values with
  | nil =>
    have hsame : ({ c with values := [] } : Contents β) = c := by rw [← hvalues]
    refine ⟨st, rfl, own, ?_⟩
    rw [List.tail_nil, hsame, Cells.write_self hc]
    exact h
  | cons v vs =>
    rw [hvalues] at hline
    obtain ⟨b, l', next, hown, hhead, hread, hb, -, hrest⟩ := front hline
    simp only [Option.bind_some, List.isEmpty_cons, Bool.false_eq_true, if_false, hs, hhead, hread, Option.map_some]
    exact ⟨_, rfl, h.pop hc hown hb ⟨hkind, hcleanup, by simp [hsize, hvalues], hrest⟩⟩

/-! ### Clearing -/

theorem clearItems_line {s : Option Nat} {vs : List (Option β)} (n : Nat) (hn : l.length ≤ n)
    (hline : Line items s l vs) :
    ∃ items', clearItems n s items = some (vs, items') ∧ ∀ b, items'.read b = if b ∈ l then none else items.read b := by
  induction l generalizing n s vs items with
  | nil =>
    cases vs with
    | nil =>
      cases hline
      cases n <;> exact ⟨items, rfl, fun b => by simp⟩
    | cons v vs => exact hline.elim
  | cons a l ih =>
    cases vs with
    | nil => exact hline.elim
    | cons v vs =>
      obtain ⟨b, l', next, heq, rfl, hread, -, -, hrest⟩ := front hline
      cases heq
      cases n with
      | zero => simp at hn
      | succ n =>
        obtain ⟨items', hclear, hitems⟩ := ih n (Nat.le_of_succ_le_succ hn) hrest
        refine ⟨items', ?_, fun x => ?_⟩
        · rw [clearItems]
          simp only [hread, Option.bind_some, hclear, Option.map_some]
        · rw [hitems, Cells.read_free]
          by_cases hx : x = a <;> simp [hx]

/-- There are not more items in a line than on the heap. -/
theorem line_length_le {s : Option Nat} {vs : List (Option β)} (hline : Line items s l vs) : l.length ≤ items.length := by
  have hsub : l ⊆ List.range items.length := fun a ha => List.mem_range.2 (Cells.lt_of_read (hline.read_mem ha))
  have hle := (List.subperm_of_subset hline.nodup hsub).length_le
  rwa [List.length_range] at hle

/-- All items of an object are freed. -/
theorem LinksAt.empty (h : LinksAt st t own) (hc : t.read a = some c)
    (hitems : ∀ b, items'.read b = if b ∈ own a then none else st.items.read b) {o : LinkObject} {c' : Contents β}
    (hstands : Stands items' [] (some o) (some c')) :
    LinksAt ⟨items', st.objects.write a o⟩ (t.write a c') (Function.update own a []) := by
  refine h.change hc [] (fun b hb _ => ?_) (fun b hb _ => ?_) (fun b hb => by cases hb) hstands
  · rw [hitems, if_neg hb]
  · rw [hitems, if_pos hb]

theorem queueClear_links (h : LinksAt st t own) (hc : t.read a = some c) (hkind : c.kind = .queue) :
    ∃ st', queueClear (some a) st = some (if c.cleanup then c.values else [], st') ∧
      LinksAt st' (t.write a { c with values := [] }) (Function.update own a []) := by
  obtain ⟨q, hq, hcleanup, -, hline, -⟩ := h.queue hc hkind
  obtain ⟨items', hclear, hitems⟩ := clearItems_line st.items.length (line_length_le hline) hline
  unfold queueClear
  simp only [hq, Option.bind_some, hclear, Option.map_some, hcleanup]
  exact ⟨_, rfl, h.empty hc hitems ⟨hkind, rfl, rfl, rfl, rfl⟩⟩

theorem stackClear_links (h : LinksAt st t own) (hc : t.read a = some c) (hkind : c.kind = .stack) :
    ∃ st', stackClear (some a) st = some (if c.cleanup then c.values else [], st') ∧
      LinksAt st' (t.write a { c with values := [] }) (Function.update own a []) := by
  obtain ⟨s, hs, hcleanup, -, hline⟩ := h.stack hc hkind
  obtain ⟨items', hclear, hitems⟩ := clearItems_line st.items.length (line_length_le hline) hline
  unfold stackClear
  simp only [hs, Option.bind_some, hclear, Option.map_some, hcleanup]
  exact ⟨_, rfl, h.empty hc hitems ⟨hkind, rfl, rfl, rfl⟩⟩

/-- An object without items is freed. -/
theorem LinksAt.free (h : LinksAt st t own) (hnil : own a = []) :
    Links ⟨st.items, st.objects.free a⟩ (t.free a) := by
  have hown : Function.update own a [] = own := by rw [← hnil, Function.update_eq_self]
  refine ⟨own, hown ▸ h.exchange a [] (fun _ _ _ => rfl) ?_ (fun b hb => by cases hb) ?_ ?_ ?_ ?_⟩
  · rw [hnil]
    intro b hb
    cases hb
  · intro j hj
    rw [Cells.read_free, if_neg hj]
  · intro j hj
    rw [Cells.read_free, if_neg hj]
  · rw [Cells.length_free, Cells.length_free, h.length_eq]
  · rw [Cells.read_free, Cells.read_free, if_pos rfl, if_pos rfl]
    rfl

/-- A new object. -/
theorem LinksAt.create (h : LinksAt st t own) {o : LinkObject} {c : Contents β}
    (hstands : ∀ items : Cells (LinkItem β), Stands items [] (some o) (some c)) :
    Links ⟨st.items, st.objects.alloc o⟩ (t.alloc c) := by
  have hnil : own st.objects.length = [] := by
    have := h.stands st.objects.length
    rw [Cells.read_length, h.length_eq, Cells.read_length] at this
    rw [h.length_eq]
    exact this
  have hown : Function.update own st.objects.length [] = own := by
    rw [← hnil, Function.update_eq_self]
  refine ⟨own, hown ▸ h.exchange st.objects.length [] (fun _ _ _ => rfl) ?_ (fun b hb => by cases hb) ?_ ?_ ?_ ?_⟩
  · rw [hnil]
    intro b hb
    cases hb
  · intro j hj
    rw [Cells.read_alloc, if_neg hj]
  · intro j hj
    rw [h.length_eq] at hj
    rw [Cells.read_alloc, if_neg hj]
  · rw [Cells.length_alloc, Cells.length_alloc, h.length_eq]
  · rw [Cells.read_alloc, if_pos rfl, h.length_eq, Cells.read_alloc, if_pos rfl]
    exact hstands _

end

/-! ### Runs -/

section
variable {st : LinkStore β} {t : Shelf β} {a : Nat} {c : Contents β}

theorem change_at (hc : t.read a = some c) (f : Contents β → List (Option β)) :
    t.change (some a) f = t.write a { c with values := f c } := by
  unfold Shelf.change
  simp only [hc]

theorem values_at (hc : t.read a = some c) : t.values (some a) = c.values := by
  simp [Shelf.values, hc]

theorem cleaned_at (hc : t.read a = some c) : t.cleaned (some a) = if c.cleanup then c.values else [] := by
  simp [Shelf.cleaned, hc]

theorem linkStep_steps (o : LinkKind × LinkOp β) (h : Links st t) (hlegal : LinkLegal t o) (hfits : LinkFits t o) :
    Follow.Steps linkStep linkSpec Links st t o := by
  obtain ⟨own, h⟩ := h
  obtain ⟨kind, op⟩ := o
  unfold Follow.Steps
  cases op with
  | create cleanup =>
    cases kind with
    | queue =>
      have hlinks := h.create (o := .queue ⟨0, none, none, cleanup⟩) (c := ⟨.queue, cleanup, []⟩) fun _ =>
        ⟨rfl, rfl, rfl, rfl, rfl⟩
      exact ⟨_, by rw [linkStep, pclQueue, h.length_eq]; rfl, hlinks⟩
    | stack =>
      have hlinks := h.create (o := .stack ⟨none, 0, cleanup⟩) (c := ⟨.stack, cleanup, []⟩) fun _ => ⟨rfl, rfl, rfl, rfl⟩
      exact ⟨_, by rw [linkStep, pclStack, h.length_eq]; rfl, hlinks⟩
  | add hd v =>
    cases hd with
    | none => cases kind <;> exact ⟨st, rfl, own, h⟩
    | some a =>
      obtain ⟨c, hc, hkind⟩ := hlegal a rfl
      unfold LinkFits Shelf.sizeFor at hfits
      simp only [values_at hc] at hfits
      simp only [linkSpec, change_at hc]
      cases kind with
      | queue =>
        have hput : Shelf.Contents.put v c = c.values ++ [v] := by simp only [Shelf.Contents.put, hkind]
        rw [hput]
        obtain ⟨st', hrun, hlinks⟩ := queueAdd_links h hc hkind hfits v
        exact ⟨st', by rw [linkStep, hrun]; rfl, hlinks⟩
      | stack =>
        have hput : Shelf.Contents.put v c = v :: c.values := by simp only [Shelf.Contents.put, hkind]
        rw [hput]
        obtain ⟨st', hrun, hlinks⟩ := stackPush_links h hc hkind hfits v
        exact ⟨st', by rw [linkStep, hrun]; rfl, hlinks⟩
  | peek hd =>
    cases hd with
    | none => cases kind <;> exact ⟨st, rfl, own, h⟩
    | some a =>
      obtain ⟨c, hc, hkind⟩ := hlegal a rfl
      simp only [linkSpec, values_at hc]
      cases kind with
      | queue => exact ⟨st, by rw [linkStep, queuePeek_links h hc hkind]; rfl, own, h⟩
      | stack => exact ⟨st, by rw [linkStep, stackPeek_links h hc hkind]; rfl, own, h⟩
  | remove hd =>
    cases hd with
    | none => cases kind <;> exact ⟨st, rfl, own, h⟩
    | some a =>
      obtain ⟨c, hc, hkind⟩ := hlegal a rfl
      simp only [linkSpec, change_at hc, values_at hc]
      cases kind with
      | queue =>
        obtain ⟨st', hrun, hlinks⟩ := queueRemove_links h hc hkind
        exact ⟨st', by rw [linkStep, hrun]; rfl, hlinks⟩
      | stack =>
        obtain ⟨st', hrun, hlinks⟩ := stackPop_links h hc hkind
        exact ⟨st', by rw [linkStep, hrun]; rfl, hlinks⟩
  | size hd =>
    cases hd with
    | none => cases kind <;> exact ⟨st, rfl, own, h⟩
    | some a =>
      obtain ⟨c, hc, hkind⟩ := hlegal a rfl
      simp only [linkSpec, values_at hc]
      cases kind with
      | queue =>
        obtain ⟨q, hq, -, hsize, -⟩ := h.queue hc hkind
        exact ⟨st, by rw [linkStep, queueSize, hq, Option.map_some, hsize]; rfl, own, h⟩
      | stack =>
        obtain ⟨s, hs, -, hsize, -⟩ := h.stack hc hkind
        exact ⟨st, by rw [linkStep, stackSize, hs, Option.map_some, hsize]; rfl, own, h⟩
  | empty hd =>
    cases hd with
    | none => cases kind <;> exact ⟨st, rfl, own, h⟩
    | some a =>
      obtain ⟨c, hc, hkind⟩ := hlegal a rfl
      simp only [linkSpec, values_at hc]
      cases kind with
      | queue =>
        obtain ⟨q, hq, -, hsize, -⟩ := h.queue hc hkind
        exact ⟨st, by rw [linkStep, queueEmpty_links hq hsize]; rfl, own, h⟩
      | stack =>
        obtain ⟨s, hs, -, hsize, -⟩ := h.stack hc hkind
        exact ⟨st, by rw [linkStep, stackEmpty_links hs hsize]; rfl, own, h⟩
  | clear hd =>
    cases hd with
    | none => cases kind <;> exact ⟨st, rfl, own, h⟩
    | some a =>
      obtain ⟨c, hc, hkind⟩ := hlegal a rfl
      simp only [linkSpec, change_at hc, cleaned_at hc]
      cases kind with
      | queue =>
        obtain ⟨st', hrun, hlinks⟩ := queueClear_links h hc hkind
        exact ⟨st', by rw [linkStep, hrun]; rfl, _, hlinks⟩
      | stack =>
        obtain ⟨st', hrun, hlinks⟩ := stackClear_links h hc hkind
        exact ⟨st', by rw [linkStep, hrun]; rfl, _, hlinks⟩
  | free hd =>
    cases hd with
    | none => cases kind <;> exact ⟨st, rfl, own, h⟩
    | some a =>
      obtain ⟨c, hc, hkind⟩ := hlegal a rfl
      simp only [linkSpec, cleaned_at hc]
      cases kind with
      | queue =>
        obtain ⟨st', hrun, hlinks⟩ := queueClear_links h hc hkind
        have hfree := hlinks.free (Function.update_self a [] own)
        rw [Cells.free_write] at hfree
        exact ⟨_, by rw [linkStep, queueFree, hrun]; rfl, hfree⟩
      | stack =>
        obtain ⟨st', hrun, hlinks⟩ := stackClear_links h hc hkind
        have hfree := hlinks.free (Function.update_self a [] own)
        rw [Cells.free_write] at hfree
        exact ⟨_, by rw [linkStep, stackFree, hrun]; rfl, hfree⟩

theorem linkStep_fits (o : LinkKind × LinkOp β) (h : Links st t) (hlegal : LinkLegal t o)
    (hsteps : Follow.Steps linkStep linkSpec Links st t o) : LinkFits t o := by
  obtain ⟨own, h⟩ := h
  obtain ⟨kind, op⟩ := o
  obtain ⟨st', hrun, -⟩ := hsteps
  unfold LinkFits Shelf.sizeFor
  split
  · next a v heq =>
    simp only at heq
    subst heq
    obtain ⟨c, hc, hkind⟩ := hlegal a rfl
    rw [values_at hc]
    intro hmax
    cases kind with
    | queue =>
      obtain ⟨q, hq, -, hsize, -⟩ := h.queue hc hkind
      rw [linkStep, queueAdd] at hrun
      simp [hq, hsize, hmax] at hrun
    | stack =>
      obtain ⟨s, hs, -, hsize, -⟩ := h.stack hc hkind
      rw [linkStep, stackPush] at hrun
      simp [hs, hsize, hmax] at hrun
  · decide

end

/-- A run of operations on any number of queues and stacks, each called on objects in use, does what the lists say and
leaves just the items of the objects in use on the heap, exactly if no size would have to go beyond `INT_MAX`. -/
theorem links_follow (os : List (LinkKind × LinkOp β)) (hlegal : (linkSpec (β := β)).All LinkLegal [] os) :
    Follow.Follows linkStep linkSpec Links ⟨[], []⟩ [] os ↔ linkSpec.All LinkFits [] os := by
  have hstart : Links (⟨[], []⟩ : LinkStore β) [] := by
    refine ⟨fun _ => [], .nil _ Cells.read_nil, rfl, fun i => ?_⟩
    rw [Cells.read_nil, Cells.read_nil]
    rfl
  exact Follow.follows_iff (fun _ _ h => h) (fun _ _ o h => linkStep_steps o h) (fun _ _ o h => linkStep_fits o h) hstart
    hlegal

/-- Two values into a queue, and one of them from there into a stack; the queue is freed with the other in it. -/
theorem links_follow_mixed : ∃ st : LinkStore Nat,
    Follow.run linkStep ⟨[], []⟩
      [(.queue, .create true), (.queue, .add (some 0) (some 7)), (.queue, .add (some 0) (some 8)),
      (.stack, .create false), (.queue, .remove (some 0)), (.stack, .add (some 1) (some 7)), (.queue, .free (some 0))] =
      some ([.handle 0, .done, .done, .handle 1, .value (some 7), .done, .cleaned [some 8]], st) ∧
    Links st [none, some ⟨.stack, false, [some 7]⟩] :=
  (links_follow _ (by decide)).2 (by decide) _ List.prefix_rfl

end Pcl

import Mathlib.Data.List.Count
import Mathlib.Algebra.BigOperators.Group.List.Basic
import Mathlib.Algebra.GroupWithZero.Nat
import Mathlib.Data.Fintype.EquivFin
import Mathlib.Order.WellFounded
import Mathlib.Logic.Relation
import Mathlib.Tactic.Common

/-!
# Heaps of counted blocks

A block has a count and a body, and the body refers to other blocks. `release` gives one reference to a block up: where
it was the last one, those in the body are given up one after the other, and then the block is freed. A block whose
count is zero is being freed; it counts for nothing.

`Counted`: the count of each block is the number of references to it, from outside and from the bodies of other blocks.
A release keeps that, meets no freed block, and leaves alone whatever is reachable from outside. Where no block refers to
itself through others, the converse holds too: nothing is left but what is reachable.
-/

namespace Pcl

structure CountedBlock (β : Type) where
  count : Int
  body : β

/-- The blocks at their addresses; a freed one leaves its place empty. -/
abbrev RefHeap (β : Type) := List (Option (CountedBlock β))

namespace RefHeap
variable {β : Type}

/-- The block at an address. -/
def read (h : RefHeap β) (a : Nat) : Option (CountedBlock β) := (h[a]?).join

def setBody (h : RefHeap β) (a : Nat) (body : β) : RefHeap β := h.modify a fun b => b.map fun b => { b with body }

/-- Add `amt` to the count of a block. -/
def addRefs (h : RefHeap β) (a : Nat) (amt : Int) : RefHeap β :=
  h.modify a fun b => b.map fun b => { b with count := b.count + amt }

def free (h : RefHeap β) (a : Nat) : RefHeap β := h.set a none

variable (kids : β → List Nat)

/-- Give up a reference to the block at `a`. -/
def release : Nat → Nat → RefHeap β → Option (RefHeap β)
  | 0, _, _ => none
  | n + 1, a, h =>
    (h.read a).bind fun b =>
      if b.count - 1 > 0 then some (h.addRefs a (-1))
      else ((kids b.body).foldlM (fun h c => release n c h) (h.addRefs a (-1))).map fun h => h.free a

/-! ### Counting -/

/-- The references to a block, as its count has them. -/
def weight : Option (CountedBlock β) → Nat
  | some b => b.count.toNat
  | none => 0

/-- The references from a block to `a`. -/
def outTo (a : Nat) (b : Option (CountedBlock β)) : Nat :=
  match b with
  | some b => if 0 < b.count then (kids b.body).count a else 0
  | none => 0

def refs (h : RefHeap β) (a : Nat) : Nat := weight (h.read a)

/-- The references to `a` from the bodies of the blocks. -/
def inner (h : RefHeap β) (a : Nat) : Nat := (h.map (outTo kids a)).sum

/-- All references. -/
def total (h : RefHeap β) : Nat := (h.map weight).sum

/-- The counts are those of the references from outside, `ext`, and from the blocks. -/
def Counted (h : RefHeap β) (ext : Nat → Nat) : Prop := ∀ a, h.refs a = ext a + h.inner kids a

/-- No block is being freed. -/
def Settled (h : RefHeap β) : Prop := ∀ a b, h.read a = some b → 0 < b.count

/-- `a` is in use and refers to `c`. -/
def Edge (h : RefHeap β) (a c : Nat) : Prop := ∃ b, h.read a = some b ∧ 0 < b.count ∧ c ∈ kids b.body

/-- What references from outside lead to. -/
inductive Reach (h : RefHeap β) (ext : Nat → Nat) : Nat → Prop
  | root {a : Nat} (ha : 0 < ext a) : Reach h ext a
  | step {a c : Nat} (ha : Reach h ext a) (hc : h.Edge kids a c) : Reach h ext c

/-- No block refers to itself through others. -/
def Acyclic (h : RefHeap β) : Prop := ∀ a, ¬ Relation.TransGen (h.Edge kids) a a

/-- From `h` to `h'` blocks lost references or were freed, and nothing else. -/
structure Shrinks (h h' : RefHeap β) : Prop where
  kept : ∀ a b', h'.read a = some b' → ∃ b, h.read a = some b ∧ b.body = b'.body ∧ b'.count ≤ b.count
  waiting : ∀ a, h.refs a = 0 → h'.read a = h.read a

section
variable {kids} {h h' h'' : RefHeap β} {a c : Nat} {b b' : CountedBlock β} {ext ext' : Nat → Nat} {body : β}

theorem read_eq_some : h.read a = some b ↔ h[a]? = some (some b) := by
  unfold read
  rw [Option.join_eq_some_iff]

theorem sum_map_set {α : Type} (f : α → Nat) {l : List α} {i : Nat} {x : α} (hx : l[i]? = some x) (y : α) :
    ((l.set i y).map f).sum + f x = (l.map f).sum + f y := by
  induction l generalizing i with
  | nil => cases hx
  | cons z l ih =>
    cases i with
    | zero =>
      cases hx
      simp only [List.set_cons_zero, List.map_cons, List.sum_cons]
      omega
    | succ i =>
      have := ih hx
      simp only [List.set_cons_succ, List.map_cons, List.sum_cons]
      omega

theorem le_sum_map {α : Type} (f : α → Nat) {l : List α} {x : α} (hx : x ∈ l) : f x ≤ (l.map f).sum := by
  induction l with
  | nil => cases hx
  | cons y l ih =>
    rw [List.map_cons, List.sum_cons]
    rcases List.mem_cons.1 hx with rfl | hx
    · omega
    · have := ih hx
      omega

theorem exists_of_sum_pos {α : Type} (f : α → Nat) {l : List α} (h : 0 < (l.map f).sum) : ∃ x ∈ l, 0 < f x := by
  induction l with
  | nil => cases h
  | cons y l ih =>
    rw [List.map_cons, List.sum_cons] at h
    by_cases hy : 0 < f y
    · exact ⟨y, List.mem_cons_self, hy⟩
    · obtain ⟨x, hx, hpos⟩ := ih (by omega)
      exact ⟨x, List.mem_cons_of_mem _ hx, hpos⟩

/-- What an operation on one block does to the heap. -/
theorem modify_eq_set (hb : h.read a = some b) (f : CountedBlock β → CountedBlock β) :
    h.modify a (Option.map f) = h.set a (some (f b)) := by
  rw [List.modify_eq_set, read_eq_some.1 hb]
  rfl

theorem setBody_eq (hb : h.read a = some b) (body : β) : h.setBody a body = h.set a (some ⟨b.count, body⟩) :=
  modify_eq_set hb _

theorem addRefs_eq (hb : h.read a = some b) (amt : Int) :
    h.addRefs a amt = h.set a (some ⟨b.count + amt, b.body⟩) :=
  modify_eq_set hb _

theorem read_set (hb : h.read a = some b) (o : Option (CountedBlock β)) (x : Nat) :
    RefHeap.read (h.set a o) x = if x = a then o else h.read x := by
  have hlt : a < h.length := (List.getElem?_eq_some_iff.1 (read_eq_some.1 hb)).1
  unfold read
  by_cases hx : x = a
  · rw [if_pos hx, hx, List.getElem?_set_self hlt]
    rfl
  · rw [if_neg hx, List.getElem?_set_ne (Ne.symm hx)]

theorem refs_set (hb : h.read a = some b) (o : Option (CountedBlock β)) (x : Nat) :
    RefHeap.refs (h.set a o) x = if x = a then weight o else h.refs x := by
  unfold refs
  rw [read_set hb]
  split <;> rfl

theorem inner_set (hb : h.read a = some b) (o : Option (CountedBlock β)) (x : Nat) :
    RefHeap.inner kids (h.set a o) x + outTo kids x (some b) = h.inner kids x + outTo kids x o :=
  sum_map_set (outTo kids x) (read_eq_some.1 hb) o

theorem total_set (hb : h.read a = some b) (o : Option (CountedBlock β)) :
    RefHeap.total (h.set a o) + b.count.toNat = h.total + weight o :=
  sum_map_set weight (read_eq_some.1 hb) o

theorem refs_pos : 0 < h.refs a ↔ ∃ b, h.read a = some b ∧ 0 < b.count := by
  unfold refs weight
  cases ha : h.read a with
  | none => simp
  | some b =>
    simp only [Option.some.injEq, exists_eq_left']
    omega

theorem Edge.inner_pos (he : h.Edge kids a c) : 0 < h.inner kids c := by
  obtain ⟨b, hb, hpos, hc⟩ := he
  have hle := le_sum_map (outTo kids c) (List.mem_of_getElem? (read_eq_some.1 hb))
  have hout : outTo kids c (some b) = (kids b.body).count c := if_pos hpos
  have hcount := List.count_pos_iff.2 hc
  rw [hout] at hle
  exact hcount.trans_le hle

/-- A block that is referred to from inside has a block in use that does so. -/
theorem exists_edge (hpos : 0 < h.inner kids c) : ∃ a, h.Edge kids a c := by
  obtain ⟨o, ho, hout⟩ := exists_of_sum_pos _ hpos
  obtain ⟨a, ha⟩ := List.getElem?_of_mem ho
  cases o with
  | none => cases hout
  | some b =>
    unfold outTo at hout
    simp only at hout
    split at hout
    · next hb => exact ⟨a, b, read_eq_some.2 ha, hb, List.count_pos_iff.1 hout⟩
    · cases hout

namespace Shrinks

theorem refl (h : RefHeap β) : Shrinks h h := ⟨fun _ b hb => ⟨b, hb, rfl, le_refl _⟩, fun _ _ => rfl⟩

theorem refs_le (hs : Shrinks h h') (a : Nat) : h'.refs a ≤ h.refs a := by
  unfold refs
  cases ha : h'.read a with
  | none => exact Nat.zero_le _
  | some b' =>
    obtain ⟨b, hb, -, hle⟩ := hs.kept a b' ha
    rw [hb]
    exact Int.toNat_le_toNat hle

theorem trans (hs : Shrinks h h') (hs' : Shrinks h' h'') : Shrinks h h'' where
  kept a b'' hb'' := by
    obtain ⟨b', hb', hbody', hle'⟩ := hs'.kept a b'' hb''
    obtain ⟨b, hb, hbody, hle⟩ := hs.kept a b' hb'
    exact ⟨b, hb, hbody.trans hbody', hle'.trans hle⟩
  waiting a ha := by
    have ha' : h'.refs a = 0 := Nat.le_zero.1 (ha ▸ hs.refs_le a)
    rw [hs'.waiting a ha', hs.waiting a ha]

/-- A step that only changes one block. -/
theorem of_set (hb : h.read a = some b) (hpos : 0 < b.count) {o : Option (CountedBlock β)}
    (ho : ∀ b', o = some b' → b'.body = b.body ∧ b'.count ≤ b.count) : Shrinks h (h.set a o) where
  kept x b' hx := by
    rw [read_set hb] at hx
    split at hx
    · next heq =>
      obtain ⟨hbody, hle⟩ := ho b' hx
      exact ⟨b, heq ▸ hb, hbody.symm, hle⟩
    · exact ⟨b', hx, rfl, le_refl _⟩
  waiting x hx := by
    have hne : x ≠ a := by
      rintro rfl
      have := refs_pos.2 ⟨b, hb, hpos⟩
      omega
    rw [read_set hb, if_neg hne]

end Shrinks

/-! ### Releases -/

theorem Counted.congr (hc : Counted kids h ext) (heq : ∀ x, ext' x = ext x) : Counted kids h ext' := by
  intro x
  rw [hc x, heq x]

/-- What has to hold of the references when one block is changed. -/
theorem Counted.set (hc : Counted kids h ext) (hb : h.read a = some b) {o : Option (CountedBlock β)}
    (heq : ∀ x, ext' x + outTo kids x o + (if x = a then weight (some b) else 0) =
      ext x + outTo kids x (some b) + if x = a then weight o else 0) : Counted kids (h.set a o) ext' := by
  intro x
  have hx := hc x
  have hin : RefHeap.inner kids (h.set a o) x + outTo kids x (some b) = h.inner kids x + outTo kids x o := inner_set hb o x
  have heqx := heq x
  rw [refs_set hb]
  split
  · next hxa =>
    have hr : h.refs x = weight (some b) := by rw [refs, hxa, hb]
    rw [if_pos hxa, if_pos hxa] at heqx
    omega
  · next hxa =>
    rw [if_neg hxa, if_neg hxa] at heqx
    omega

/-- References from outside, and those of a list. -/
def plus (ext : Nat → Nat) (l : List Nat) (x : Nat) : Nat := ext x + l.count x

theorem plus_cons (ext : Nat → Nat) (c : Nat) (l : List Nat) (x : Nat) :
    plus ext (c :: l) x = plus (plus ext l) [c] x := by
  unfold plus
  rw [List.count_cons, List.count_cons, List.count_nil]
  omega

theorem plus_singleton (ext : Nat → Nat) (a x : Nat) : plus ext [a] x = ext x + if x = a then 1 else 0 := by
  unfold plus
  rw [List.count_singleton]
  by_cases h : x = a
  · simp [h]
  · simp [h, Ne.symm h]

/-- A reference less where others stay. -/
theorem Counted.dec (hc : Counted kids h (plus ext [a])) (hb : h.read a = some b) (hmore : 0 < b.count - 1) :
    Counted kids (h.addRefs a (-1)) ext := by
  rw [addRefs_eq hb]
  refine hc.set hb fun x => ?_
  have hout : outTo kids x (some ⟨b.count + -1, b.body⟩) = outTo kids x (some b) := by
    unfold outTo
    simp only
    rw [if_pos (by omega), if_pos (by omega)]
  rw [hout, plus_singleton]
  unfold weight
  simp only
  split <;> omega

/-- The last reference: those of the body take its place. -/
theorem Counted.last (hc : Counted kids h (plus ext [a])) (hb : h.read a = some b) (hpos : 0 < b.count)
    (hlast : ¬ 0 < b.count - 1) : Counted kids (h.addRefs a (-1)) (plus ext (kids b.body)) := by
  rw [addRefs_eq hb]
  refine hc.set hb fun x => ?_
  have hout : outTo kids x (some ⟨b.count + -1, b.body⟩) = 0 := by
    unfold outTo
    simp only
    rw [if_neg (by omega)]
  have hout' : outTo kids x (some b) = (kids b.body).count x := if_pos hpos
  rw [hout, hout', plus_singleton]
  unfold weight plus
  simp only
  split <;> omega

/-- A block that counts for nothing is freed. -/
theorem Counted.free (hc : Counted kids h ext) (hb : h.read a = some b) (hzero : ¬ 0 < b.count) :
    Counted kids (h.free a) ext := by
  refine hc.set hb fun x => ?_
  have hout : outTo kids x (some b) = 0 := if_neg hzero
  have hnone : outTo kids x (none : Option (CountedBlock β)) = 0 := rfl
  rw [hout, hnone]
  unfold weight
  simp only
  split <;> omega

/-- What a release does. -/
structure Released (kids : β → List Nat) (h : RefHeap β) (ext : Nat → Nat) (h' : RefHeap β) : Prop where
  counted : Counted kids h' ext
  shrinks : Shrinks h h'
  unsettled : ∀ a b, h'.read a = some b → ¬ 0 < b.count → h.read a = some b
  total_le : h'.total ≤ h.total

theorem foldlM_release {n : Nat}
    (ih : ∀ (a : Nat) (h : RefHeap β) (ext : Nat → Nat), Counted kids h (plus ext [a]) → h.total < n →
      ∃ h', release kids n a h = some h' ∧ Released kids h ext h')
    (l : List Nat) (hc : Counted kids h (plus ext l)) (hn : h.total < n) :
    ∃ h', l.foldlM (fun h c => release kids n c h) h = some h' ∧ Released kids h ext h' := by
  induction l generalizing h with
  | nil => exact ⟨h, rfl, ⟨hc, .refl h, fun _ _ hb _ => hb, le_refl _⟩⟩
  | cons c l ihl =>
    obtain ⟨h₁, hrel, hr₁⟩ := ih c h _ (hc.congr fun x => (plus_cons ext c l x).symm) hn
    obtain ⟨h', hfold, hr'⟩ := ihl hr₁.counted (hr₁.total_le.trans_lt hn)
    refine ⟨h', ?_, ⟨hr'.counted, hr₁.shrinks.trans hr'.shrinks, ?_, hr'.total_le.trans hr₁.total_le⟩⟩
    · rw [List.foldlM_cons, hrel]
      exact hfold
    · intro a b hb hzero
      exact hr₁.unsettled a b (hr'.unsettled a b hb hzero) hzero

/-- A counted reference can be released. -/
theorem release_spec (n : Nat) (a : Nat) (h : RefHeap β) (ext : Nat → Nat) (hc : Counted kids h (plus ext [a]))
    (hn : h.total < n) : ∃ h', release kids n a h = some h' ∧ Released kids h ext h' := by
  induction n generalizing a h ext with
  | zero => omega
  | succ n ih =>
    have hrefs : 0 < h.refs a := by
      have := hc a
      rw [plus_singleton, if_pos rfl] at this
      omega
    obtain ⟨b, hb, hpos⟩ := refs_pos.1 hrefs
    have hdec : h.addRefs a (-1) = h.set a (some ⟨b.count + -1, b.body⟩) := addRefs_eq hb _
    have hw : weight (some ⟨b.count + -1, b.body⟩ : Option (CountedBlock β)) = (b.count + -1).toNat := rfl
    have htotal : (h.addRefs a (-1)).total < h.total := by
      have := total_set hb (some ⟨b.count + -1, b.body⟩)
      rw [hdec]
      omega
    have hshrinks : Shrinks h (h.addRefs a (-1)) := by
      rw [hdec]
      refine .of_set hb hpos ?_
      rintro b' ⟨⟩
      exact ⟨rfl, by show b.count + -1 ≤ b.count; omega⟩
    by_cases hmore : b.count - 1 > 0
    · refine ⟨h.addRefs a (-1), ?_, ⟨hc.dec hb hmore, hshrinks, ?_, htotal.le⟩⟩
      · rw [release, hb, Option.bind_some, if_pos hmore]
      · intro x b' hx hzero
        rw [hdec, read_set hb] at hx
        split at hx
        · cases hx
          simp only at hzero
          omega
        · exact hx
    · obtain ⟨h₁, hfold, hr₁⟩ := foldlM_release ih (kids b.body) (hc.last hb hpos hmore) (by omega)
      -- the block itself is still there, and counts for nothing
      have hself : h₁.read a = some ⟨b.count + -1, b.body⟩ := by
        have hread : (h.addRefs a (-1)).read a = some ⟨b.count + -1, b.body⟩ := by
          rw [hdec, read_set hb, if_pos rfl]
        rw [hr₁.shrinks.waiting a (by rw [refs, hread, hw]; omega), hread]
      have hfree : ∀ x, RefHeap.read (h₁.free a) x = if x = a then none else h₁.read x := read_set hself none
      have hmid := hshrinks.trans hr₁.shrinks
      refine ⟨h₁.free a, ?_, ⟨hr₁.counted.free hself (by simp only; omega), ⟨?_, ?_⟩, ?_, ?_⟩⟩
      · rw [release, hb, Option.bind_some, if_neg hmore, hfold]
        rfl
      · intro x b' hx
        rw [hfree] at hx
        split at hx
        · cases hx
        · exact hmid.kept x b' hx
      · intro x hx
        have hne : x ≠ a := fun heq => by rw [heq] at hx; omega
        rw [hfree, if_neg hne, hmid.waiting x hx]
      · intro x b' hx hzero
        rw [hfree] at hx
        split at hx
        · cases hx
        · next hne =>
          have hx₁ := hr₁.unsettled x b' hx hzero
          rwa [hdec, read_set hb, if_neg hne] at hx₁
      · have hset := total_set hself none
        have hle := hr₁.total_le
        have hnone : weight (none : Option (CountedBlock β)) = 0 := rfl
        unfold free
        omega

theorem Released.settled (hr : Released kids h ext h') (hs : h.Settled) : h'.Settled := by
  intro a b hb
  by_contra hzero
  exact hzero (hs a b (hr.unsettled a b hb hzero))

/-! ### The other operations -/

theorem read_append (h : RefHeap β) (b : CountedBlock β) (x : Nat) :
    RefHeap.read (h ++ [some b]) x = if x = h.length then some b else h.read x := by
  unfold read
  rcases Nat.lt_trichotomy x h.length with hlt | heq | hgt
  · rw [if_neg (by omega), List.getElem?_append_left hlt]
  · rw [if_pos heq, heq, List.getElem?_concat_length]
    rfl
  · rw [if_neg (by omega), List.getElem?_eq_none (by rw [List.length_append]; exact hgt), List.getElem?_eq_none hgt.le]

theorem read_length (h : RefHeap β) : h.read h.length = none := by
  unfold read
  rw [List.getElem?_eq_none (le_refl _)]
  rfl

/-- A new block with one reference. -/
theorem Counted.alloc (hc : Counted kids h ext) (hkids : kids body = []) :
    Counted kids (h ++ [some ⟨1, body⟩]) (plus ext [h.length]) := by
  intro x
  have hx := hc x
  have hin : RefHeap.inner kids (h ++ [some ⟨1, body⟩]) x = h.inner kids x := by
    unfold inner
    rw [List.map_append, List.sum_append]
    have hout : outTo kids x (some ⟨1, body⟩) = 0 := by
      unfold outTo
      simp only [hkids, List.count_nil, ite_self]
    rw [List.map_singleton, List.sum_singleton, hout, Nat.add_zero]
  rw [hin, plus_singleton]
  unfold refs at hx ⊢
  rw [read_append]
  split
  · next heq =>
    rw [heq, read_length] at hx
    rw [heq]
    have hzero : weight (none : Option (CountedBlock β)) = 0 := rfl
    have hone : weight (some ⟨1, body⟩ : Option (CountedBlock β)) = 1 := rfl
    omega
  · omega

theorem Settled.alloc (hs : h.Settled) (body : β) : RefHeap.Settled (h ++ [some ⟨1, body⟩]) := by
  intro x b hb
  rw [read_append] at hb
  split at hb
  · cases hb
    exact Int.one_pos
  · exact hs x b hb

theorem Counted.addRefs (hc : Counted kids h ext) (hb : h.read a = some b) (hpos : 0 < b.count) (amt : Nat) :
    Counted kids (h.addRefs a amt) (plus ext (List.replicate amt a)) := by
  rw [addRefs_eq hb]
  refine hc.set hb fun x => ?_
  have hout : outTo kids x (some ⟨b.count + amt, b.body⟩) = outTo kids x (some b) := by
    unfold outTo
    simp only
    rw [if_pos (by omega), if_pos hpos]
  rw [hout]
  unfold weight plus
  simp only [List.count_replicate]
  by_cases hx : x = a
  · simp only [hx, beq_self_eq_true, if_true]
    omega
  · simp only [hx, if_false, beq_iff_eq, Ne.symm hx]
    omega

theorem Settled.addRefs (hs : h.Settled) (hb : h.read a = some b) (amt : Nat) : RefHeap.Settled (h.addRefs a amt) := by
  intro x b' hx
  rw [addRefs_eq hb, read_set hb] at hx
  split at hx
  · cases hx
    have := hs a b hb
    simp only
    omega
  · exact hs x b' hx

/-- A body is changed: what it refers to more comes from outside, what it refers to less goes there. -/
theorem Counted.setBody (hc : Counted kids h ext) (hb : h.read a = some b) (hpos : 0 < b.count)
    (heq : ∀ x, ext' x + (kids body).count x = ext x + (kids b.body).count x) : Counted kids (h.setBody a body) ext' := by
  rw [setBody_eq hb]
  refine hc.set hb fun x => ?_
  have hout : outTo kids x (some ⟨b.count, body⟩) = (kids body).count x := if_pos hpos
  have hout' : outTo kids x (some b) = (kids b.body).count x := if_pos hpos
  rw [hout, hout', heq]
  rfl

theorem Settled.setBody (hs : h.Settled) (hb : h.read a = some b) (body : β) : RefHeap.Settled (h.setBody a body) := by
  intro x b' hx
  rw [setBody_eq hb, read_set hb] at hx
  split at hx
  · cases hx
    exact hs a b hb
  · exact hs x b' hx

/-! ### What is reachable -/

/-- Nothing that is reachable was freed. -/
theorem Counted.refs_of_reach (hc : Counted kids h ext) (ha : h.Reach kids ext a) : 0 < h.refs a := by
  induction ha with
  | root ha =>
    rw [hc]
    omega
  | step _ hedge _ =>
    have := hedge.inner_pos
    rw [hc]
    omega

/-- What stays reachable is left alone. -/
theorem Counted.frame (hc : Counted kids h' ext) (hs : Shrinks h h') (ha : h.Reach kids ext a) :
    ∃ b b', h.read a = some b ∧ h'.read a = some b' ∧ b'.body = b.body ∧ h'.Reach kids ext a := by
  have keep {x : Nat} (hx : h'.Reach kids ext x) :
      ∃ b b', h.read x = some b ∧ h'.read x = some b' ∧ 0 < b'.count ∧ b'.body = b.body := by
    obtain ⟨b', hb', hpos⟩ := refs_pos.1 (hc.refs_of_reach hx)
    obtain ⟨b, hb, hbody, -⟩ := hs.kept x b' hb'
    exact ⟨b, b', hb, hb', hpos, hbody.symm⟩
  have hreach : h'.Reach kids ext a := by
    induction ha with
    | root ha => exact .root ha
    | step _ hedge ih =>
      obtain ⟨b, b', hb, hb', hpos, hbody⟩ := keep ih
      obtain ⟨b₁, hb₁, -, hmem⟩ := hedge
      cases hb.symm.trans hb₁
      exact .step ih ⟨b', hb', hpos, hbody ▸ hmem⟩
  obtain ⟨b, b', hb, hb', -, hbody⟩ := keep hreach
  exact ⟨b, b', hb, hb', hbody, hreach⟩

theorem Reach.mono (ha : h.Reach kids ext a) (hle : ∀ x, 0 < ext x → 0 < ext' x) : h.Reach kids ext' a := by
  induction ha with
  | root ha => exact .root (hle _ ha)
  | step _ hedge ih => exact .step ih hedge

/-! ### Leaks -/

/-- One more pair does not close a cycle unless it leads back. -/
theorem acyclic_insert {r r' : Nat → Nat → Prop} (hr : ∀ x, ¬ Relation.TransGen r x x)
    (hstep : ∀ x y, r' x y → r x y ∨ x = a ∧ y = c) (hback : ¬ Relation.ReflTransGen r c a) (x : Nat) :
    ¬ Relation.TransGen r' x x := by
  have hsplit {y : Nat} (h : Relation.TransGen r' x y) :
      Relation.TransGen r x y ∨ Relation.ReflTransGen r x a ∧ Relation.ReflTransGen r c y := by
    induction h with
    | single h =>
      rcases hstep _ _ h with h | ⟨rfl, rfl⟩
      · exact .inl (.single h)
      · exact .inr ⟨.refl, .refl⟩
    | tail _ h ih =>
      rcases ih with ih | ⟨hxa, hcy⟩ <;> rcases hstep _ _ h with h | ⟨rfl, rfl⟩
      · exact .inl (ih.tail h)
      · exact .inr ⟨ih.to_reflTransGen, .refl⟩
      · exact .inr ⟨hxa, hcy.tail h⟩
      · exact .inr ⟨hxa, .refl⟩
  intro h
  rcases hsplit h with h | ⟨hxa, hcx⟩
  · exact hr x h
  · exact hback (hcx.trans hxa)

theorem Edge.lt (he : h.Edge kids a c) : a < h.length := by
  obtain ⟨b, hb, -⟩ := he
  exact (List.getElem?_eq_some_iff.1 (read_eq_some.1 hb)).1

/-- Without cycles every block in use is reachable. -/
theorem Counted.reach_of_acyclic (hc : Counted kids h ext) (hacyc : h.Acyclic kids) (ha : 0 < h.refs a) :
    h.Reach kids ext a := by
  let before (i j : Fin h.length) : Prop := Relation.TransGen (h.Edge kids) i j
  have : IsTrans (Fin h.length) before := ⟨fun _ _ _ hij hjk => hij.trans hjk⟩
  have : Std.Irrefl before := ⟨fun i => hacyc i⟩
  have hwf : WellFounded before := Finite.wellFounded_of_trans_of_irrefl before
  have hlt {x : Nat} (hx : 0 < h.refs x) : x < h.length := by
    obtain ⟨b, hb, -⟩ := refs_pos.1 hx
    exact (List.getElem?_eq_some_iff.1 (read_eq_some.1 hb)).1
  have hall (i : Fin h.length) : 0 < h.refs i → h.Reach kids ext i := by
    induction i using hwf.induction with
    | _ i ih =>
      intro hi
      by_cases hext : 0 < ext i
      · exact .root hext
      · rw [hc] at hi
        obtain ⟨p, hp⟩ := exists_edge (show 0 < h.inner kids i by omega)
        obtain ⟨b, hb, hpos, -⟩ := id hp
        exact .step (ih ⟨p, hp.lt⟩ (.single hp) (refs_pos.2 ⟨b, hb, hpos⟩)) hp
  exact hall ⟨a, hlt ha⟩ ha

/-- Without cycles and without references from outside, everything is freed. -/
theorem Counted.all_freed (hc : Counted kids h fun _ => 0) (hacyc : h.Acyclic kids) (hs : h.Settled) (a : Nat) :
    h.read a = none := by
  cases ha : h.read a with
  | none => rfl
  | some b =>
    have hreach := hc.reach_of_acyclic hacyc (refs_pos.2 ⟨b, ha, hs a b ha⟩)
    have hno {x : Nat} (hx : h.Reach kids (fun _ => 0) x) : False := by
      induction hx with
      | root hx => cases hx
      | step _ _ ih => exact ih
    exact (hno hreach).elim

end
end RefHeap
end Pcl

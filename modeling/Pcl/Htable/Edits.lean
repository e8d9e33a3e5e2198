import Pcl.Htable.Geometry
import Pcl.Lib.Slots

/-!
# The slots of a table

What each call does to the used slots of `entries`, in the words of `Slots`: a removed entry leaves its slot empty, a new
one gets a slot behind the others, and a rehash moves the live ones together. A slot stands for the class of the key in
it, since a put of an equal key replaces the key.
-/

namespace Pcl

open HTable Shape

variable {K V : Type}

namespace HTable

/-- The used slots, with the class of the key of each. -/
def slots (ht : HTable K V) : List (Option (K → Bool)) :=
  (List.range ht.countUsed).map fun i => (liveAt ht.entries i).map fun c => ht.eqv c.2.1

section
variable {ht ht' : HTable K V}

@[simp] theorem slots_length (ht : HTable K V) : ht.slots.length = ht.countUsed := by
  unfold slots
  rw [List.length_map, List.length_range]

theorem slots_reduceOption (ht : HTable K V) : ht.slots.reduceOption = ht.cores.map fun c => ht.eqv c.2.1 := by
  unfold slots List.reduceOption cores
  rw [List.filterMap_map, List.map_filterMap]
  rfl

theorem map_live (ht : HTable K V) : (ht.live.map Prod.fst).map ht.eqv = ht.slots.reduceOption := by
  rw [live_eq, List.map_map, List.map_map, slots_reduceOption]
  rfl

theorem slots_getElem? {i : Nat} (hi : i < ht.countUsed) :
    ht.slots[i]? = some ((liveAt ht.entries i).map fun c => ht.eqv c.2.1) := by
  unfold slots
  rw [List.getElem?_map, List.getElem?_range hi]
  rfl

/-- In a table with no deleted slot. -/
theorem Shape.slots_compact (h : ht.Shape) (hused : ht.countUsed = ht.count) :
    ht.slots = (ht.cores.map fun c => ht.eqv c.2.1).map some := by
  have hlen : ht.slots.reduceOption.length = ht.slots.length := by
    rw [slots_reduceOption, List.length_map, slots_length, hused, h.count_eq]
  have hall := List.reduceOption_length_eq_iff.1 hlen
  rw [← slots_reduceOption]
  generalize ht.slots = s at hall
  induction s with
  | nil => rfl
  | cons x s ih =>
    obtain ⟨x, rfl⟩ := Option.isSome_iff_exists.1 (hall _ List.mem_cons_self)
    rw [List.reduceOption_cons_of_some, List.map_cons, ← ih fun y hy => hall y (List.mem_cons_of_mem _ hy)]

end

/-! ### What a call does to the slots -/

namespace Shape
variable {ht ht' : HTable K V}

theorem add_slots (h : ht.Shape) (hroom : ht.countUsed < ht.capacity) (key : K) (value : Option V) (code : UInt64) :
    ∃ ht', addEntry ht key value code = some ht' ∧ ht'.slots = ht.slots ++ [some (ht.eqv key)] := by
  obtain ⟨es, lk, hlink, -, hcore⟩ :
      ∃ es lk, linkEntry ht.entries ht.entryLookup (ht.hashIdx code) ht.countUsed ⟨none, code, some key, value⟩ =
          some (es, lk) ∧ Linked es lk ht.tableMask ht.capacity (ht.countUsed + 1) ∧
        LinkedCore ht.entries es ht.countUsed ⟨none, code, some key, value⟩ :=
    h.linked.link ⟨none, code, some key, value⟩ hroom rfl (h.hashIdx_lt code)
  refine ⟨{ ht with entries := es, entryLookup := lk, count := ht.count + 1, countUsed := ht.countUsed + 1 }, ?_, ?_⟩
  · unfold addEntry
    rw [hlink, Option.map_some]
  · show (List.range (ht.countUsed + 1)).map (fun i => (liveAt es i).map fun c => ht.eqv c.2.1) = _
    rw [List.range_succ, List.map_append]
    have hnew : liveAt es ht.countUsed = some (code, key, value) := liveAt_eq_some.2 hcore.new
    congr 1
    · refine List.map_congr_left fun i hi => ?_
      unfold liveAt
      rw [hcore.old i (Nat.ne_of_lt (List.mem_range.1 hi))]
    · rw [List.map_singleton, hnew]
      rfl

theorem replace_slots (h : ht.Shape) (hc : ht.Callbacks) {key : K} {prev : Option Nat} {i : Nat} {ent : Entry K V}
    (hw : ht.walkChain key = some (some (prev, i, ent))) (value : Option V) :
    (replaceEntry ht i key value).1.slots = ht.slots := by
  obtain ⟨-, hi, -, k, hk, heq, hli⟩ := (h.walkChain_some hw).liveAt
  obtain ⟨-, hlive, -⟩ := h.replace hi hk key value
  have hclass : ht.eqv key = ht.eqv k := by
    funext x
    rw [Bool.eq_iff_iff]
    constructor
    · intro hx
      exact hc.equiv.trans heq hx
    · intro hx
      exact hc.equiv.trans (hc.equiv.symm heq) hx
  show (List.range ht.countUsed).map (fun j => (liveAt (replaceEntry ht i key value).1.entries j).map
    fun c => ht.eqv c.2.1) = _
  refine List.map_congr_left fun j _ => ?_
  rw [hlive]
  split
  · subst j
    rw [hli, Option.map_some, Option.map_some, hclass]
  · rfl

theorem unlinked_slots (h : ht.Shape) {key : K} {prev : Option Nat} {i : Nat} {ent : Entry K V}
    (hw : ht.walkChain key = some (some (prev, i, ent))) : (ht.unlinked key prev i ent).slots = ht.slots.set i none := by
  obtain ⟨-, hlive, hcfg⟩ := h.unlink (h.walkChain_some hw)
  obtain ⟨-, hused, -⟩ := unlinked_eq ht key prev i ent
  change ∀ j, liveAt (ht.unlinked key prev i ent).entries j = _ at hlive
  change ht.SameConfig (ht.unlinked key prev i ent) at hcfg
  refine List.ext_getElem? fun j => ?_
  rw [List.getElem?_set, slots_length]
  by_cases hj : j < ht.countUsed
  · rw [slots_getElem? (hused.symm ▸ hj), hlive, slots_getElem? hj, hcfg.eqv_eq]
    by_cases hij : i = j
    · subst hij
      rw [if_pos rfl, if_pos rfl, if_pos hj]
      rfl
    · rw [if_neg hij, if_neg (Ne.symm hij)]
  · have hnone : ∀ t : HTable K V, t.countUsed = ht.countUsed → t.slots[j]? = none := by
      intro t ht
      rw [List.getElem?_eq_none_iff, slots_length, ht]
      omega
    rw [hnone _ hused, hnone _ rfl]
    split
    · rw [if_neg (by omega)]
    · rfl

end Shape

/-- A call of the application, and the tables before and after it. -/
structure HStep (K V : Type) where
  before : HTable K V
  call : HCall K V
  after : HTable K V

/-- The keys the call added to the table. -/
def HStep.added (s : HStep K V) : List K :=
  match s.call with
  | .put (some key) _ _ => if s.before.count < s.after.count then [key] else []
  | _ => []

/-- The call did not clear the table, and no rehash moved its entries. -/
def HStep.Quiet (s : HStep K V) : Prop :=
  (∀ shrink, s.call ≠ .clear shrink) ∧ s.after.capacity = s.before.capacity

/-- What a call does to the slots. -/
structure HStep.Edits (s : HStep K V) (es : List (Slots.Edit (K → Bool))) : Prop where
  slots : s.after.slots = Slots.apply s.before.slots es
  added : Slots.added es = s.added.map s.before.eqv
  stays : s.Quiet → ∀ d ∈ es, d.Stays
  config : s.before.SameConfig s.after

/-- A call that leaves the slots and their number as they are. -/
theorem HStep.Edits.of_eq {ht ht' : HTable K V} {c : HCall K V} (hslots : ht'.slots = ht.slots)
    (hcount : ht'.count = ht.count) (hcfg : ht.SameConfig ht') : (HStep.mk ht c ht').Edits [] := by
  refine ⟨hslots, ?_, fun _ d hd => absurd hd List.not_mem_nil, hcfg⟩
  unfold HStep.added
  rw [hcount]
  split <;> simp [Slots.added]

/-- A put of a new key. -/
theorem HStep.added_put {ht ht' : HTable K V} {key : K} {value : Option V} {unique : Bool}
    (hcount : ht'.count = ht.count + 1) : (HStep.mk ht (.put (some key) value unique) ht').added = [key] := by
  show (if ht.count < ht'.count then [key] else []) = [key]
  rw [if_pos (by omega)]

namespace Sized
variable {ht ht' : HTable K V}

theorem count_append (h : ht.Sized) (hs : ht'.Shape) {c : UInt64 × K × Option V} (hcores : ht'.cores = ht.cores ++ [c]) :
    ht'.count = ht.count + 1 := by
  rw [cores_count hs hcores, List.length_append, ← h.count_eq, List.length_singleton]

theorem put_edits {key : K} {value : Option V} {unique : Bool} {e e' : ErrState} {r : Int} {l : List (K × Option V)}
    (h : ht.Sized) (hc : ht.Callbacks) (hput : htablePut ht (some key) value unique e = some ((r, ht', l), e')) :
    ∃ es, (HStep.mk ht (.put (some key) value unique) ht').Edits es := by
  obtain ⟨found, hw, hwalk⟩ := h.walkChain key
  cases hwalk with
  | absent hno =>
    by_cases hg : ht.growsOnPut
    · by_cases hcap : ht.capacity = maxTblSize
      · obtain ⟨_, hrun, -⟩ := put_limit hw hg hcap value unique e
        cases hrun.symm.trans hput
        exact ⟨[], .of_eq rfl rfl (.refl ht)⟩
      · obtain ⟨ht₁, hrun, hs, hcores, hcap₁, hused, hcfg⟩ := h.put_grow hw hg hcap value unique e
        cases hrun.symm.trans hput
        have hcount := h.count_append hs hcores
        refine ⟨[.together, .add (ht.eqv key)], ?_, ?_, ?_, hcfg⟩
        · rw [hs.slots_compact (by rw [hused, hcount]), hcores, hcfg.eqv_eq, List.map_append, ← slots_reduceOption,
            List.map_append]
          rfl
        · rw [HStep.added_put hcount]
          rfl
        · intro hq
          have hsame : ht'.capacity = ht.capacity := hq.2
          have hdouble : 2 * ht.capacity ≤ ht.resized true := le_max_left _ _
          have hpos := h.capacity_pos
          omega
    · by_cases hroom : ht.countUsed < ht.capacity
      · obtain ⟨ht₁, hadd, hslots⟩ := h.add_slots hroom key value (ht.hashcode key ht.keyLen)
        obtain ⟨ht₂, hadd', hs, hcores, -, -, hcfg⟩ := h.toShape.add hroom key value (ht.hashcode key ht.keyLen)
        rw [hadd] at hadd'
        cases hadd'
        have hcount := h.count_append hs hcores
        rw [htablePut_absent hw, if_neg hg, Option.bind_some] at hput
        simp only [ne_eq, not_true_eq_false, ↓reduceIte, hadd, Option.map_some] at hput
        cases hput
        refine ⟨[.add (ht.eqv key)], hslots, ?_, ?_, hcfg⟩
        · rw [HStep.added_put hcount]
          rfl
        · rintro - d hd
          rw [List.mem_singleton.1 hd]
          trivial
      · rw [h.put_full hw hg (Nat.not_lt.1 hroom)] at hput
        cases hput
  | found hs hch hl hi he =>
    obtain ⟨-, hi, -, k, hk, -, -⟩ := (Walk.found hs hch hl hi he).liveAt
    rw [htablePut_present hw] at hput
    cases unique with
    | true =>
      cases hput
      exact ⟨[], .of_eq rfl rfl (.refl ht)⟩
    | false =>
      cases hput
      obtain ⟨-, -, hcfg⟩ := h.toShape.replace hi hk key value
      exact ⟨[], .of_eq (h.replace_slots hc hw value) rfl hcfg⟩

/-- A remove that rehashes leaves a smaller table. -/
theorem resized_lt (h : ht.Sized) {n : Nat} (hs : ht.shrinksOnRemove n) : ht.resized false < ht.capacity := by
  obtain ⟨k, hk, -, hcap⟩ := h.geometry.capacity_eq
  have hne := hs.1
  have hmin := h.min_le
  have hpos := h.capacity_pos
  refine max_lt ?_ ?_
  · rw [if_neg (by decide)]
    omega
  · omega

/-- The outcomes of a remove, with the slots it leaves. -/
inductive Removal (ht : HTable K V) (key : K) : HTable K V → Prop
  | absent (hw : ht.walkChain key = some none) : Removal ht key ht
  | taken {ht' : HTable K V} {prev : Option Nat} {i : Nat} {ent : Entry K V}
      (hw : ht.walkChain key = some (some (prev, i, ent))) (hcfg : ht.SameConfig ht') (hcount : ht'.count = ht.count - 1)
      (hs : ¬ ht.shrinksOnRemove (ht.count - 1)) (hcap : ht'.capacity = ht.capacity)
      (hslots : ht'.slots = ht.slots.set i none) : Removal ht key ht'
  | shrunk {ht' : HTable K V} {prev : Option Nat} {i : Nat} {ent : Entry K V}
      (hw : ht.walkChain key = some (some (prev, i, ent))) (hcfg : ht.SameConfig ht') (hcount : ht'.count = ht.count - 1)
      (hs : ht.shrinksOnRemove (ht.count - 1)) (hcap : ht'.capacity < ht.capacity)
      (hslots : ht'.slots = (ht.slots.set i none).reduceOption.map some) : Removal ht key ht'

theorem removal {key : K} {e e' : ErrState} {r : Int} {l : List (K × Option V)} (h : ht.Sized)
    (hrem : htableRemove ht (some key) e = some ((r, ht', l), e')) : Removal ht key ht' := by
  obtain ⟨found, hw, hwalk⟩ := h.walkChain key
  cases hwalk with
  | absent hno =>
    rw [htableRemove_absent hw] at hrem
    cases hrem
    exact .absent hw
  | @found s l₁ l₂ i ent hs hch hl hi he =>
    obtain ⟨hcap, hused, hcount⟩ := unlinked_eq ht key l₁.getLast? i ent
    have hu := h.unlinked hw
    obtain ⟨-, -, hcfg⟩ := h.unlink (h.walkChain_some hw)
    change ht.SameConfig (ht.unlinked key l₁.getLast? i ent) at hcfg
    have hslots := h.unlinked_slots hw
    rw [htableRemove_present hw] at hrem
    by_cases hshrink : ht.shrinksOnRemove (ht.count - 1)
    · have hless := h.resized_lt hshrink
      have hres : (ht.unlinked key l₁.getLast? i ent).resized false = ht.resized false := by
        unfold resized
        rw [hcap]
      have hmax : (ht.unlinked key l₁.getLast? i ent).resized false ≤ maxTblSize := by
        have := h.capacity_le
        omega
      have hroom := shrink_room h.sound.factor hshrink
      obtain ⟨ht₂, hre, hs₂, hcores, hcap₂, hused₂, hcfg₂⟩ := hu.toShape.rehash hmax (by omega) e
      have hcount₂ := cores_count hs₂ hcores
      rw [← hu.count_eq, hcount] at hcount₂
      rw [if_pos hshrink, hre] at hrem
      cases hrem
      refine .shrunk hw (hcfg.trans hcfg₂) hcount₂ hshrink ((hcap₂.trans hres).trans_lt hless) ?_
      rw [hs₂.slots_compact (by omega), hcores, hcfg₂.eqv_eq, ← slots_reduceOption, hslots]
    · rw [if_neg hshrink] at hrem
      cases hrem
      exact .taken hw hcfg hcount hshrink hcap hslots

theorem remove_edits {key : K} {e e' : ErrState} {r : Int} {l : List (K × Option V)} (h : ht.Sized)
    (hrem : htableRemove ht (some key) e = some ((r, ht', l), e')) :
    ∃ es, (HStep.mk ht (.remove (some key)) ht').Edits es := by
  cases h.removal hrem with
  | absent hw => exact ⟨[], .of_eq rfl rfl (.refl ht)⟩
  | @taken _ prev i ent hw hcfg hcount hs hcap hslots =>
    refine ⟨[.take i], hslots, rfl, ?_, hcfg⟩
    rintro - d hd
    rw [List.mem_singleton.1 hd]
    trivial
  | @shrunk _ prev i ent hw hcfg hcount hs hcap hslots =>
    refine ⟨[.take i, .together], hslots, rfl, ?_, hcfg⟩
    intro hq
    exact absurd hq.2 (Nat.ne_of_lt hcap)

theorem exec_edits (h : ht.Sized) (hc : ht.Callbacks) {c : HCall K V} {e e' : ErrState}
    (hexec : c.exec ht e = some (ht', e')) : ∃ es, (HStep.mk ht c ht').Edits es := by
  obtain ⟨hput, ⟨e₁, hrem⟩, ⟨e₂, hlook⟩⟩ := exec_null ht e
  match c with
  | .put none value unique =>
    obtain ⟨e₀, hp⟩ := hput value unique
    cases hp.symm.trans hexec
    exact ⟨[], .of_eq rfl rfl (.refl ht)⟩
  | .put (some key) value unique =>
    obtain ⟨⟨⟨r, ht₁, l⟩, e₀⟩, hp, heq⟩ := Option.bind_eq_some_iff.1 hexec
    cases heq
    exact h.put_edits hc hp
  | .remove none =>
    cases hrem.symm.trans hexec
    exact ⟨[], .of_eq rfl rfl (.refl ht)⟩
  | .remove (some key) =>
    obtain ⟨⟨⟨r, ht₁, l⟩, e₀⟩, hp, heq⟩ := Option.bind_eq_some_iff.1 hexec
    cases heq
    exact h.remove_edits hp
  | .clear shrink =>
    cases hexec
    refine ⟨[.clear], rfl, rfl, ?_, (h.toShape.clear shrink).2.2⟩
    intro hq
    exact absurd rfl (hq.1 shrink)
  | .lookup none =>
    cases hlook.symm.trans hexec
    exact ⟨[], .of_eq rfl rfl (.refl ht)⟩
  | .lookup (some key) =>
    obtain ⟨e₀, hl⟩ := h.sound.exec_lookup key e
    cases hl.symm.trans hexec
    exact ⟨[], .of_eq rfl rfl (.refl ht)⟩

end Sized
end HTable
end Pcl

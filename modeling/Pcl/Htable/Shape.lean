import Pcl.Htable.Linked
import Pcl.Htable.Capacity

/-!
# The shape of a table

`HTable.Shape`: the capacity is a power of two, the chains are in order and `count` counts the live
entries. It asks nothing of the callbacks, so it holds along every run; each operation that changes
the table is shown to keep it, and what it does to `cores`, the live entries with their hash codes.
-/

namespace Pcl

open LinkedStore

variable {K V : Type}

/-- The hash code, key and value of the live entry at an index. -/
def liveAt (es : Array (Entry K V)) (i : Nat) : Option (UInt64 × K × Option V) :=
  (coreAt es i).bind fun c => c.2.1.map fun k => (c.1, k, c.2.2)

theorem liveAt_eq_some {es : Array (Entry K V)} {i : Nat} {c : UInt64} {k : K} {v : Option V} :
    liveAt es i = some (c, k, v) ↔ coreAt es i = some (c, some k, v) := by
  unfold liveAt
  cases h : coreAt es i with
  | none => simp
  | some d =>
    obtain ⟨c', k', v'⟩ := d
    cases k' <;> simp

namespace HTable

/-- The live entries with their hash codes, in the order of `entries`. -/
def cores (ht : HTable K V) : List (UInt64 × K × Option V) :=
  (List.range ht.countUsed).filterMap (liveAt ht.entries)

theorem pairAt_eq_liveAt (es : Array (Entry K V)) (i : Nat) : pairAt es i = (liveAt es i).map Prod.snd := by
  rw [pairAt_eq]
  unfold liveAt
  cases coreAt es i with
  | none => rfl
  | some c => cases h : c.2.1 <;> simp [h]

theorem live_eq (ht : HTable K V) : ht.live = ht.cores.map Prod.snd := by
  unfold live cores
  rw [List.map_filterMap]
  exact List.filterMap_congr fun i _ => pairAt_eq_liveAt _ i

/-- The parts of a table that the application sets. -/
structure SameConfig (ht ht' : HTable K V) : Prop where
  keyLen : ht'.keyLen = ht.keyLen
  minLoadfac : ht'.minLoadfac = ht.minLoadfac
  maxLoadfac : ht'.maxLoadfac = ht.maxLoadfac
  removeEntry : ht'.removeEntry = ht.removeEntry
  keyEquals : ht'.keyEquals = ht.keyEquals
  hashcode : ht'.hashcode = ht.hashcode

theorem SameConfig.refl (ht : HTable K V) : ht.SameConfig ht := ⟨rfl, rfl, rfl, rfl, rfl, rfl⟩

theorem SameConfig.trans {ht₁ ht₂ ht₃ : HTable K V} (h : ht₁.SameConfig ht₂) (h' : ht₂.SameConfig ht₃) :
    ht₁.SameConfig ht₃ :=
  ⟨h'.keyLen.trans h.keyLen, h'.minLoadfac.trans h.minLoadfac, h'.maxLoadfac.trans h.maxLoadfac,
    h'.removeEntry.trans h.removeEntry, h'.keyEquals.trans h.keyEquals, h'.hashcode.trans h.hashcode⟩

/-- The invariant of every table, whatever its callbacks do. -/
structure Shape (ht : HTable K V) : Prop where
  capacity_eq : ∃ k ≤ 30, ht.capacity = 2 ^ k
  mask_eq : ht.tableMask = ht.capacity - 1
  linked : Linked ht.entries ht.entryLookup ht.tableMask ht.capacity ht.countUsed
  count_eq : ht.count = ht.cores.length

namespace Shape
variable {ht : HTable K V}

theorem capacity_le (h : ht.Shape) : ht.capacity ≤ maxTblSize := by
  obtain ⟨k, hk, hc⟩ := h.capacity_eq
  rw [hc]
  exact Nat.pow_le_pow_right (by decide) hk

theorem capacity_pos (h : ht.Shape) : 0 < ht.capacity := by
  obtain ⟨k, -, hc⟩ := h.capacity_eq
  rw [hc]
  exact Nat.two_pow_pos k

theorem hashIdx_lt (h : ht.Shape) (c : UInt64) : ht.hashIdx c < ht.capacity := by
  obtain ⟨k, -, hc⟩ := h.capacity_eq
  unfold hashIdx
  rw [h.mask_eq, hc]
  exact and_mask_lt c k

theorem count_le (h : ht.Shape) : ht.count ≤ ht.countUsed := by
  rw [h.count_eq]
  exact (List.length_filterMap_le _ _).trans_eq List.length_range

theorem live_length (h : ht.Shape) : ht.live.length = ht.count := by
  rw [live_eq, List.length_map, h.count_eq]

/-- The two outcomes of the walk along the chain of a key. -/
inductive Walk (ht : HTable K V) (key : K) : Option (Option Nat × Nat × Entry K V) → Prop
  | absent (h : ∀ i < ht.countUsed, LiveIn ht.entries ht.tableMask (ht.hashIdx (ht.hashcode key ht.keyLen)) i →
      ∀ e, ht.entries[i]? = some e → ht.isEntryOf (ht.hashcode key ht.keyLen) key e = false) :
      Walk ht key none
  | found {s : Option Nat} {l₁ l₂ : List Nat} {i : Nat} {e : Entry K V}
      (hs : ht.entryLookup[ht.hashIdx (ht.hashcode key ht.keyLen)]? = some s)
      (hc : Chain (fun i => ht.entries[i]?) Entry.next s (l₁ ++ i :: l₂))
      (hl : ∀ j, j ∈ l₁ ++ i :: l₂ ↔ j < ht.countUsed ∧
        LiveIn ht.entries ht.tableMask (ht.hashIdx (ht.hashcode key ht.keyLen)) j)
      (hi : ht.entries[i]? = some e) (he : ht.isEntryOf (ht.hashcode key ht.keyLen) key e = true) :
      Walk ht key (some (l₁.getLast?, i, e))

theorem walkChain (h : ht.Shape) (key : K) : ∃ r, ht.walkChain key = some r ∧ Walk ht key r := by
  set code := ht.hashcode key ht.keyLen with hcode
  obtain ⟨s, l, hs, hc, hl⟩ := h.linked.chain _ (h.hashIdx_lt code)
  have hlen := h.linked.chain_length hc hl
  unfold HTable.walkChain
  simp only [← hcode, hs, Option.bind_some]
  by_cases hex : ∀ i ∈ l, ∀ e, ht.entries[i]? = some e → ht.isEntryOf code key e = false
  · refine ⟨none, search_none hc hex hlen, .absent fun i hi hli => hex i ((hl i).2 ⟨hi, hli⟩)⟩
  · -- the first node of the chain that passes the test
    have hany : ∃ i ∈ l, ∃ e, ht.entries[i]? = some e ∧ ht.isEntryOf code key e = true := by
      by_contra hno
      refine hex fun i hi e he => ?_
      cases ht : ht.isEntryOf code key e with
      | false => rfl
      | true => exact absurd ⟨i, hi, e, he, ht⟩ hno
    have hdec : ∃ x ∈ l, (ht.entries[x]?.any (ht.isEntryOf code key)) = true := by
      obtain ⟨i, hi, e, he, hte⟩ := hany
      exact ⟨i, hi, by simp [he, hte]⟩
    obtain ⟨l₁, i, l₂, rfl, hi, hbefore⟩ : ∃ l₁ i l₂, l = l₁ ++ i :: l₂ ∧
        (ht.entries[i]?.any (ht.isEntryOf code key)) = true ∧
        ∀ j ∈ l₁, (ht.entries[j]?.any (ht.isEntryOf code key)) = false := by
      have hf : (l.find? fun i => ht.entries[i]?.any (ht.isEntryOf code key)).isSome := by
        rw [List.find?_isSome]; exact hdec
      obtain ⟨i, hf⟩ := Option.isSome_iff_exists.1 hf
      obtain ⟨hi, l₁, l₂, rfl, hb⟩ := List.find?_eq_some_iff_append.1 hf
      exact ⟨l₁, i, l₂, rfl, hi, fun j hj => by simpa using hb j hj⟩
    obtain ⟨e, he, hte⟩ := (Option.any_eq_true _ _).1 hi
    refine ⟨some (l₁.getLast?, i, e), ?_, .found hs hc hl he hte⟩
    rw [search_some hc he hte (fun j hj ej hej => ?_) (by simp at hlen; omega), Option.or_none]
    have := hbefore j hj
    rwa [hej, Option.any_some] at this

theorem walkChain_some (h : ht.Shape) {key : K} {prev : Option Nat} {i : Nat} {e : Entry K V}
    (hw : ht.walkChain key = some (some (prev, i, e))) : Walk ht key (some (prev, i, e)) := by
  obtain ⟨r, hr, hw'⟩ := h.walkChain key
  rw [hw] at hr
  cases hr
  exact hw'

/-- The entry a walk finds is live, and passes the test on its code and key. -/
theorem Walk.liveAt {key : K} {prev : Option Nat} {i : Nat} {e : Entry K V}
    (h : Walk ht key (some (prev, i, e))) :
    i < ht.countUsed ∧ ht.entries[i]? = some e ∧ e.code = ht.hashcode key ht.keyLen ∧
      ∃ k, e.key = some k ∧ ht.keyEquals k key ht.keyLen = true ∧
        Pcl.liveAt ht.entries i = some (e.code, k, e.value) := by
  cases h with
  | @found s l₁ l₂ i e hs hc hl hi he =>
    unfold isEntryOf at he
    rw [Bool.and_eq_true, beq_iff_eq, Option.any_eq_true] at he
    obtain ⟨hcode, k, hk, heq⟩ := he
    refine ⟨((hl i).1 (by simp)).1, hi, hcode, k, hk, heq, liveAt_eq_some.2 ?_⟩
    unfold coreAt
    rw [hi, Option.map_some, hk]

end Shape
end HTable

/-! ### Rehashing -/

theorem ipclHtableChkcapacity_run (k : Nat) (hk : k ≤ 30) (e : ErrState) :
    ipclHtableChkcapacity (2 ^ k) e = some (((max (2 ^ k) minTblSize : Nat) : Int), e) := by
  have hle : max (2 ^ k) minTblSize ≤ maxTblSize :=
    max_le (Nat.pow_le_pow_right (by decide) hk) (by decide)
  unfold ipclHtableChkcapacity
  rw [roundCapacity_two_pow]
  simp only [Nat.not_lt.2 hle, ↓reduceIte, ErrM.pure_run]

/-- The capacity a rehash asks for. -/
def HTable.resized (ht : HTable K V) (grow : Bool) : Nat :=
  max (if grow then 2 * ht.capacity else ht.capacity / 2) minTblSize

namespace HTable.Shape
variable {ht : HTable K V}

theorem resized_pow (h : ht.Shape) {grow : Bool} (hcap : ht.resized grow ≤ maxTblSize) :
    ∃ k ≤ 30, ht.resized grow = 2 ^ k ∧ ∀ e, ipclHtableChkcapacity
      (if grow then ht.capacity <<< 1 else ht.capacity >>> 1) e = some ((ht.resized grow : Int), e) := by
  obtain ⟨k, hk, hc⟩ := h.capacity_eq
  have hmax : ∀ n ≤ 30, ∃ m ≤ 30, max (2 ^ n) minTblSize = 2 ^ m := fun n hn => by
    rcases Nat.le_total (2 ^ n) minTblSize with hle | hle
    · exact ⟨3, by omega, by rw [max_eq_right hle]; rfl⟩
    · exact ⟨n, hn, max_eq_left hle⟩
  cases grow with
  | true =>
    simp only [resized, ↓reduceIte] at hcap ⊢
    have hpow : 2 * ht.capacity = 2 ^ (k + 1) := by rw [hc, Nat.pow_succ]; omega
    have hk1 : k + 1 ≤ 30 := by
      have hle : 2 ^ (k + 1) ≤ 2 ^ 30 := by
        rw [← hpow]
        exact (le_max_left _ _).trans hcap
      exact (Nat.pow_le_pow_iff_right (by decide)).1 hle
    have hshift : ht.capacity <<< 1 = 2 ^ (k + 1) := by rw [Nat.shiftLeft_eq]; omega
    rw [hshift, hpow]
    obtain ⟨m, hm, hmx⟩ := hmax (k + 1) hk1
    exact ⟨m, hm, hmx, fun e => ipclHtableChkcapacity_run (k + 1) hk1 e⟩
  | false =>
    simp only [resized, Bool.false_eq_true, ↓reduceIte] at hcap ⊢
    rw [Nat.shiftRight_eq_div_pow, Nat.pow_one]
    cases k with
    | zero =>
      -- half of the smallest capacity is none at all, and rounded up to `minTblSize`
      rw [hc]
      exact ⟨3, by omega, rfl, fun e => rfl⟩
    | succ k =>
      have hpow : ht.capacity / 2 = 2 ^ k := by rw [hc, Nat.pow_succ]; omega
      rw [hpow]
      obtain ⟨m, hm, hmx⟩ := hmax k (by omega)
      exact ⟨m, hm, hmx, fun e => ipclHtableChkcapacity_run k (by omega) e⟩

/-- The used part of `entries`, as the rehash loop reads it. -/
theorem map_coreAt_take (h : ht.Shape) : (List.range ht.countUsed).map (coreAt ht.entries) =
    (ht.entries.toList.take ht.countUsed).map fun e => some (e.code, e.key, e.value) := by
  have hle : ht.countUsed ≤ ht.entries.size := by
    rw [h.linked.entries_size]; exact h.linked.used_le
  refine List.ext_getElem (by simp [hle]) fun i h1 h2 => ?_
  have hi : i < ht.countUsed := by simpa using h1
  simp [coreAt, Nat.lt_of_lt_of_le hi hle]

theorem cores_take (h : ht.Shape) : ht.cores.map (fun c => some (c.1, some c.2.1, c.2.2)) =
    ((ht.entries.toList.take ht.countUsed).filter Entry.isLive).map
      fun e => some (e.code, e.key, e.value) := by
  have hcores : ht.cores = ((List.range ht.countUsed).map (coreAt ht.entries)).filterMap
      (·.bind fun c => c.2.1.map fun k => (c.1, k, c.2.2)) := by
    rw [List.filterMap_map]; rfl
  rw [hcores, h.map_coreAt_take]
  induction ht.entries.toList.take ht.countUsed with
  | nil => rfl
  | cons e l ih => cases hk : e.key <;> simp_all [Entry.isLive]

theorem countP_take (h : ht.Shape) :
    (ht.entries.toList.take ht.countUsed).countP Entry.isLive = ht.count := by
  have := congrArg List.length h.cores_take
  simp only [List.length_map] at this
  rw [List.countP_eq_length_filter, ← this, h.count_eq]

/-- Rehashing into a capacity with room for the live entries moves exactly these. -/
theorem rehash (h : ht.Shape) {grow : Bool} (hcap : ht.resized grow ≤ maxTblSize)
    (hroom : ht.count ≤ ht.resized grow) (e : ErrState) :
    ∃ ht', ipclHtableRehash ht grow e = some ((0, ht'), e) ∧ ht'.Shape ∧ ht'.cores = ht.cores ∧
      ht'.capacity = ht.resized grow ∧ ht'.countUsed = ht.count ∧ ht.SameConfig ht' := by
  obtain ⟨k, hk, hres, hchk⟩ := h.resized_pow hcap
  have hmask : ∀ c : UInt64, c.toNat &&& (ht.resized grow - 1) < ht.resized grow := fun c => by
    rw [hres]; exact and_mask_lt c k
  obtain ⟨es, lk, hloop, hlinked, hmap⟩ := Linked.rehash hmask (ht.entries.toList.take ht.countUsed)
    (Linked.init _ (ht.resized grow)) (by rw [Nat.zero_add, h.countP_take]; exact hroom)
  rw [Nat.zero_add, h.countP_take] at hlinked hmap
  have hcores : (List.range ht.count).filterMap (liveAt es) = ht.cores := by
    have hcomp : (List.range ht.count).filterMap (liveAt es) =
        ((List.range ht.count).map (coreAt es)).filterMap
          (·.bind fun c => c.2.1.map fun k => (c.1, k, c.2.2)) := by
      rw [List.filterMap_map]; rfl
    rw [hcomp, hmap, List.range_zero, List.map_nil, List.nil_append, ← h.cores_take, List.filterMap_map]
    simp
  refine ⟨{ ht with
      capacity := ht.resized grow, tableMask := ht.resized grow - 1, entries := es, entryLookup := lk
      countUsed := ht.count }, ?_, ⟨⟨k, hk, hres⟩, rfl, hlinked, ?_⟩, hcores, rfl, rfl,
    ⟨rfl, rfl, rfl, rfl, rfl, rfl⟩⟩
  · simp only [ipclHtableRehash, ErrM.bind_run, hchk, Option.bind_some]
    rw [if_neg (by omega), Int.toNat_natCast, hloop]
    rfl
  · show ht.count = _
    unfold cores
    rw [hcores, ← h.count_eq]

/-- Without room for the live entries a rehash writes past the new array. -/
theorem rehash_overflow (h : ht.Shape) {grow : Bool} (hcap : ht.resized grow ≤ maxTblSize)
    (hover : ht.resized grow < ht.count) (e : ErrState) : ipclHtableRehash ht grow e = none := by
  obtain ⟨k, hk, hres, hchk⟩ := h.resized_pow hcap
  have hmask : ∀ c : UInt64, c.toNat &&& (ht.resized grow - 1) < ht.resized grow := fun c => by
    rw [hres]; exact and_mask_lt c k
  have hloop := Linked.rehash_overflow hmask (ht.entries.toList.take ht.countUsed)
    (Linked.init _ (ht.resized grow)) (by rw [Nat.zero_add, h.countP_take]; exact hover)
  simp only [ipclHtableRehash, ErrM.bind_run, hchk, Option.bind_some]
  rw [if_neg (by omega), Int.toNat_natCast, hloop]
  rfl

/-- At the largest capacity a table cannot grow. -/
theorem rehash_limit (hcap : ht.capacity = maxTblSize) (e : ErrState) (he : e.frozen = false) :
    ∃ e', ipclHtableRehash ht true e = some ((-1, ht), e') ∧ e'.frozen = false ∧ e'.err = eRange := by
  have hchk : ipclHtableChkcapacity (ht.capacity <<< 1) e =
      some (-1, e.raised (loc "htable_chkcapacity.c" "ipcl_htable_chkcapacity" 76) eRange 0 none) := by
    have hround : roundCapacity (ht.capacity <<< 1) = 2 ^ 31 := by rw [hcap]; decide
    unfold ipclHtableChkcapacity
    rw [hround, if_pos (by decide), setErr, errVset_run _ _ _ _ _ (by decide), he]
    rfl
  refine ⟨(e.raised (loc "htable_chkcapacity.c" "ipcl_htable_chkcapacity" 76) eRange 0 none).traced
    (loc "htable_rehash.c" "ipcl_htable_rehash" 46) none, ?_, ?_, ?_⟩
  · simp only [ipclHtableRehash, ErrM.bind_run, ↓reduceIte, hchk, Option.bind_some, trc]
    rw [if_pos (by decide)]
    simp only [ErrM.bind_run, errVtrace_run, raised_frozen, he, raised_err _ _ _ _ _ he, Option.bind_some,
      ErrM.pure_run]
    rfl
  · rw [traced_frozen, raised_frozen, he]
  · rw [traced_err, raised_err _ _ _ _ _ he]

end HTable.Shape

/-! ### Insertion, replacement, removal -/

namespace HTable.Shape
variable {ht : HTable K V}

theorem init (c : Nat) (hc : ∃ k ≤ 30, c = 2 ^ k) (h : ht.entries = initEntries c)
    (hl : ht.entryLookup = initLookup c) (hcap : ht.capacity = c) (hm : ht.tableMask = c - 1)
    (h0 : ht.count = 0) (hu : ht.countUsed = 0) : ht.Shape ∧ ht.cores = [] := by
  have hcores : ht.cores = [] := by unfold cores; rw [hu]; rfl
  refine ⟨⟨hcap ▸ hc, by rw [hm, hcap], ?_, by rw [h0, hcores]; rfl⟩, hcores⟩
  rw [h, hl, hcap, hu]
  exact Linked.init _ _

/-- An insertion below the capacity appends to `cores`. -/
theorem add (h : ht.Shape) (hroom : ht.countUsed < ht.capacity) (key : K) (value : Option V)
    (code : UInt64) : ∃ ht', addEntry ht key value code = some ht' ∧ ht'.Shape ∧
      ht'.cores = ht.cores ++ [(code, key, value)] ∧ ht'.capacity = ht.capacity ∧
      ht'.countUsed = ht.countUsed + 1 ∧ ht.SameConfig ht' := by
  obtain ⟨es, lk, hlink, hlinked, hcore⟩ :
      ∃ es lk, linkEntry ht.entries ht.entryLookup (ht.hashIdx code) ht.countUsed
          ⟨none, code, some key, value⟩ = some (es, lk) ∧
        Linked es lk ht.tableMask ht.capacity (ht.countUsed + 1) ∧
        LinkedCore ht.entries es ht.countUsed ⟨none, code, some key, value⟩ :=
    h.linked.link ⟨none, code, some key, value⟩ hroom rfl (h.hashIdx_lt code)
  have hcores : (List.range (ht.countUsed + 1)).filterMap (liveAt es) =
      ht.cores ++ [(code, key, value)] := by
    rw [List.range_succ, List.filterMap_append]
    congr 1
    · refine List.filterMap_congr fun i hi => ?_
      unfold liveAt
      rw [hcore.old i (Nat.ne_of_lt (List.mem_range.1 hi))]
    · have hnew : liveAt es ht.countUsed = some (code, key, value) := liveAt_eq_some.2 hcore.new
      simp [hnew]
  refine ⟨{ ht with
      entries := es, entryLookup := lk, count := ht.count + 1, countUsed := ht.countUsed + 1 }, ?_,
    ⟨h.capacity_eq, h.mask_eq, hlinked, ?_⟩, hcores, rfl, rfl, ⟨rfl, rfl, rfl, rfl, rfl, rfl⟩⟩
  · unfold addEntry
    rw [hlink, Option.map_some]
  · show ht.count + 1 = _
    unfold cores
    rw [hcores, List.length_append, ← h.count_eq]
    rfl

/-- An insertion at the capacity has no place in the array. -/
theorem add_none (h : ht.Shape) (hfull : ht.capacity ≤ ht.countUsed) (key : K) (value : Option V)
    (code : UInt64) : addEntry ht key value code = none := by
  have : ¬ ht.countUsed < ht.entries.size := by rw [h.linked.entries_size]; omega
  simp [addEntry, linkEntry, this]

/-- Two entry arrays with the same codes, and the same slots live, have the same chains. -/
theorem linked_congr {es es' : Array (Entry K V)} {lk : Array (Option Nat)} {mask cap used : Nat}
    (h : Linked es lk mask cap used) (hsz : es'.size = es.size)
    (hnext : ∀ i : Nat, (es'[i]?).map Entry.next = (es[i]?).map Entry.next)
    (hlive : ∀ b i, LiveIn es' mask b i ↔ LiveIn es mask b i) : Linked es' lk mask cap used := by
  refine ⟨hsz.trans h.entries_size, h.lookup_size, h.used_le, ?_⟩
  intro b hb
  obtain ⟨s, l, hs, hc, hl⟩ := h.chain b hb
  refine ⟨s, l, hs, hc.congr fun i _ => hnext i, ?_⟩
  intro i
  rw [hl, hlive]

theorem coreAt_replace {es : Array (Entry K V)} {i : Nat} {e : Entry K V} (hi : es[i]? = some e) (key : K)
    (value : Option V) (j : Nat) :
    coreAt (es.modify i fun e => { e with key := some key, value := value }) j =
      if i = j then some (e.code, some key, value) else coreAt es j := by
  unfold coreAt
  rw [Array.getElem?_modify]
  by_cases hij : i = j
  · subst hij
    rw [if_pos rfl, if_pos rfl, hi]
    rfl
  · rw [if_neg hij, if_neg hij]

theorem replace (h : ht.Shape) {i : Nat} {e : Entry K V} {k : K} (hi : ht.entries[i]? = some e)
    (hk : e.key = some k) (key : K) (value : Option V) :
    (replaceEntry ht i key value).1.Shape ∧
      (∀ j, Pcl.liveAt (replaceEntry ht i key value).1.entries j =
        if i = j then some (e.code, key, value) else Pcl.liveAt ht.entries j) ∧
      ht.SameConfig (replaceEntry ht i key value).1 := by
  have hlive : ∀ j, Pcl.liveAt (replaceEntry ht i key value).1.entries j =
      if i = j then some (e.code, key, value) else Pcl.liveAt ht.entries j := by
    intro j
    show Pcl.liveAt (ht.entries.modify i _) j = _
    unfold Pcl.liveAt
    rw [coreAt_replace hi]
    split <;> rfl
  refine ⟨⟨h.capacity_eq, h.mask_eq, ?_, ?_⟩, hlive, ⟨rfl, rfl, rfl, rfl, rfl, rfl⟩⟩
  · refine linked_congr h.linked (by simp [replaceEntry]) ?_ ?_
    · intro j
      show ((ht.entries.modify i _)[j]?).map Entry.next = _
      rw [Array.getElem?_modify]
      split
      · rw [Option.map_map]; rfl
      · rfl
    · intro b j
      show LiveIn (ht.entries.modify i _) _ b j ↔ _
      unfold LiveIn
      rw [coreAt_replace hi]
      by_cases hij : i = j
      · subst hij
        have hci : coreAt ht.entries i = some (e.code, some k, e.value) := by
          unfold coreAt; rw [hi, Option.map_some, hk]
        rw [if_pos rfl, hci]
        simp
      · rw [if_neg hij]
  · show ht.count = ((List.range ht.countUsed).filterMap _).length
    rw [h.count_eq, cores, List.length_filterMap_eq_countP, List.length_filterMap_eq_countP]
    refine List.countP_congr fun j _ => ?_
    rw [hlive]
    split
    · subst j
      simp [liveAt_eq_some.2 (show coreAt ht.entries i = some (e.code, some k, e.value) by
        unfold coreAt; rw [hi, Option.map_some, hk])]
    · rfl

theorem unlink (h : ht.Shape) {key : K} {prev : Option Nat} {i : Nat} {e : Entry K V}
    (hw : Walk ht key (some (prev, i, e))) :
    (unlinkEntry ht (ht.hashIdx (ht.hashcode key ht.keyLen)) prev i e).Shape ∧
      (∀ j, Pcl.liveAt (unlinkEntry ht (ht.hashIdx (ht.hashcode key ht.keyLen)) prev i e).entries j =
        if j = i then none else Pcl.liveAt ht.entries j) ∧
      ht.SameConfig (unlinkEntry ht (ht.hashIdx (ht.hashcode key ht.keyLen)) prev i e) := by
  obtain ⟨hiu, hi, -, k, hk, -, hli⟩ := hw.liveAt
  rw [unlinkEntry_eq]
  have hsz : i < ht.entries.size := by
    have := h.linked.used_le
    have := h.linked.entries_size
    omega
  have hlive : ∀ j, Pcl.liveAt (unlinkedEntries ht.entries prev i e.next) j =
      if j = i then none else Pcl.liveAt ht.entries j := by
    intro j
    unfold Pcl.liveAt
    rw [coreAt_unlinked hsz]
    split <;> rfl
  refine ⟨⟨h.capacity_eq, h.mask_eq, ?_, ?_⟩, hlive, ⟨rfl, rfl, rfl, rfl, rfl, rfl⟩⟩
  · cases hw with
    | found hs hc hl hi he => exact h.linked.unlink (h.hashIdx_lt _) hs hc hi hl
  · show ht.count - 1 = ((List.range ht.countUsed).filterMap _).length
    -- the range without `i` holds the same live entries
    have hperm : (List.range ht.countUsed).Perm (i :: (List.range ht.countUsed).erase i) :=
      List.perm_cons_erase (List.mem_range.2 hiu)
    have hold : ht.cores.length = (((List.range ht.countUsed).erase i).filterMap (Pcl.liveAt ht.entries)).length + 1 := by
      rw [cores, (hperm.filterMap _).length_eq, List.filterMap_cons, hli, List.length_cons]
    rw [h.count_eq, hold, (hperm.filterMap _).length_eq, List.filterMap_cons, hlive, if_pos rfl,
      Nat.add_sub_cancel]
    congr 1
    refine List.filterMap_congr fun j hj => ?_
    have hji : j ≠ i := fun hji => by
      subst hji
      exact List.nodup_range.not_mem_erase hj
    rw [hlive, if_neg hji]

end HTable.Shape
end Pcl

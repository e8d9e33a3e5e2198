import Pcl.Htable.Ops
import Pcl.Lib.OMap

/-!
# A table is an insertion-ordered map

For callbacks that keep their contract, a well-formed table denotes the insertion-ordered map `live`,
and each operation is the one of `OMap` of the same kind. Well-formed means: in shape, with the cached
hash codes those of the keys, and no two live entries with equal keys.
-/

namespace Pcl

open HTable Shape

variable {K V : Type}

namespace HTable

/-- `key_equals` at the table's key length. -/
def eqv (ht : HTable K V) (a b : K) : Bool := ht.keyEquals a b ht.keyLen

/-- The contract of the callbacks: equal keys are equivalent and hash equally. -/
structure Callbacks (ht : HTable K V) : Prop where
  equiv : OMap.IsEquiv ht.eqv
  hash_eq : ∀ {a b}, ht.eqv a b = true → ht.hashcode a ht.keyLen = ht.hashcode b ht.keyLen

structure WellFormed (ht : HTable K V) : Prop extends Shape ht where
  codes : ∀ c ∈ ht.cores, c.1 = ht.hashcode c.2.1 ht.keyLen
  distinct : OMap.Distinct ht.eqv ht.live

/-- `ht'` is a well-formed table with the callbacks of `ht`, and denotes `m`. -/
structure Becomes (ht ht' : HTable K V) (m : List (K × Option V)) : Prop where
  wf : ht'.WellFormed
  config : ht.SameConfig ht'
  live : ht'.live = m

theorem SameConfig.eqv_eq {ht ht' : HTable K V} (h : ht.SameConfig ht') : ht'.eqv = ht.eqv := by
  unfold eqv
  rw [h.keyEquals, h.keyLen]

theorem SameConfig.callbacks {ht ht' : HTable K V} (h : ht.SameConfig ht') (hc : ht.Callbacks) :
    ht'.Callbacks := by
  refine ⟨h.eqv_eq ▸ hc.equiv, ?_⟩
  intro a b hab
  rw [h.eqv_eq] at hab
  rw [h.hashcode, h.keyLen]
  exact hc.hash_eq hab

theorem live_eq_filterMap (ht : HTable K V) :
    ht.live = (List.range ht.countUsed).filterMap fun i => (liveAt ht.entries i).map Prod.snd := by
  unfold live
  exact List.filterMap_congr fun i _ => pairAt_eq_liveAt _ i

theorem mem_cores {ht : HTable K V} {c : UInt64 × K × Option V} :
    c ∈ ht.cores ↔ ∃ i < ht.countUsed, liveAt ht.entries i = some c := by
  simp [cores, List.mem_filterMap]

theorem mem_live {ht : HTable K V} {p : K × Option V} :
    p ∈ ht.live ↔ ∃ i < ht.countUsed, ∃ c, liveAt ht.entries i = some (c, p) := by
  rw [live_eq, List.mem_map]
  constructor
  · rintro ⟨⟨c, q⟩, hc, rfl⟩
    obtain ⟨i, hi, h⟩ := mem_cores.1 hc
    exact ⟨i, hi, c, h⟩
  · rintro ⟨i, hi, c, h⟩
    exact ⟨(c, p), mem_cores.2 ⟨i, hi, h⟩, rfl⟩

namespace WellFormed
variable {ht : HTable K V}

/-- Equal keys live in one slot. -/
theorem index_unique (h : ht.WellFormed) (hc : ht.Callbacks) {i j : Nat} {c d : UInt64} {p q : K × Option V}
    (hi : i < ht.countUsed) (hj : j < ht.countUsed) (hpi : liveAt ht.entries i = some (c, p))
    (hqj : liveAt ht.entries j = some (d, q)) (heq : ht.eqv p.1 q.1 = true) : i = j := by
  have hd := h.distinct
  rw [OMap.Distinct, live_eq_filterMap, List.pairwise_filterMap] at hd
  have hlt : ∀ {a b : Nat} {x y : UInt64} {r s : K × Option V}, a < b → b < ht.countUsed →
      liveAt ht.entries a = some (x, r) → liveAt ht.entries b = some (y, s) → ht.eqv r.1 s.1 = false := by
    intro a b x y r s hab hb hr hs
    have hrel := List.pairwise_iff_getElem.1 hd a b (by simp; omega) (by simpa using hb) hab
    simp only [List.getElem_range] at hrel
    exact hrel r (by rw [hr]; rfl) s (by rw [hs]; rfl)
  rcases Nat.lt_trichotomy i j with hij | hij | hij
  · rw [hlt hij hj hpi hqj] at heq
    exact absurd heq (by decide)
  · exact hij
  · have heq' := hc.equiv.symm heq
    rw [hlt hij hi hqj hpi] at heq'
    exact absurd heq' (by decide)

/-- Where a key is found in one slot, every other slot holds another key. -/
theorem key_ne (h : ht.WellFormed) (hc : ht.Callbacks) {i j : Nat} {c d : UInt64} {p q : K × Option V} {key : K}
    (hi : i < ht.countUsed) (hj : j < ht.countUsed) (hpi : liveAt ht.entries i = some (c, p))
    (hqj : liveAt ht.entries j = some (d, q)) (heq : ht.eqv p.1 key = true) (hij : i ≠ j) : ht.eqv q.1 key = false := by
  by_contra hqk
  rw [Bool.not_eq_false] at hqk
  have hpq := hc.equiv.trans heq (hc.equiv.symm hqk)
  exact hij (h.index_unique hc hi hj hpi hqj hpq)

/-- The walk along a chain finds what the map holds. -/
theorem find (h : ht.WellFormed) (hc : ht.Callbacks) (key : K) :
    (ht.walkChain key = some none ∧ OMap.find ht.eqv ht.live key = none) ∨
    ∃ prev i ent k, ht.walkChain key = some (some (prev, i, ent)) ∧ ent.key = some k ∧
      pairAt ht.entries i = some (k, ent.value) ∧ OMap.find ht.eqv ht.live key = some (k, ent.value) := by
  obtain ⟨r, hr, hw⟩ := h.walkChain key
  cases hw with
  | absent hno =>
    refine .inl ⟨hr, OMap.find_eq_none.2 ?_⟩
    intro p hp
    obtain ⟨i, hi, c, hli⟩ := mem_live.1 hp
    have hcode := h.codes _ (mem_cores.2 ⟨i, hi, hli⟩)
    simp only at hcode
    by_contra heq
    rw [Bool.not_eq_false] at heq
    rw [hc.hash_eq heq] at hcode
    have hcore := liveAt_eq_some.1 hli
    obtain ⟨e, he, hce⟩ := Option.map_eq_some_iff.1 hcore
    have htest := hno i hi ⟨c, p.1, p.2, hcore, by rw [hcode]; rfl⟩ e he
    have hpass : ht.isEntryOf (ht.hashcode key ht.keyLen) key e = true := by
      rw [Prod.mk.injEq, Prod.mk.injEq] at hce
      unfold isEntryOf
      rw [hce.1, hce.2.1, hcode, beq_self_eq_true, Bool.true_and, Option.any_some]
      exact heq
    rw [hpass] at htest
    exact absurd htest (by decide)
  | @found s l₁ l₂ i ent hs hch hl hi he =>
    obtain ⟨hiu, -, -, k, hk, heq, hli⟩ := (Walk.found hs hch hl hi he).liveAt
    refine .inr ⟨_, i, ent, k, hr, hk, by rw [pairAt_eq_liveAt, hli]; rfl, ?_⟩
    exact OMap.find_eq_some hc.equiv h.distinct (mem_live.2 ⟨i, hiu, _, hli⟩) heq

end WellFormed

/-! ### The operations -/

namespace WellFormed
variable {ht ht' : HTable K V}

theorem of_cores (h : ht.WellFormed) (hs : ht'.Shape) (hcfg : ht.SameConfig ht') (hcores : ht'.cores = ht.cores) :
    ht.Becomes ht' ht.live := by
  have hlive : ht'.live = ht.live := by rw [live_eq, live_eq, hcores]
  refine ⟨⟨hs, ?_, ?_⟩, hcfg, hlive⟩
  · rw [hcores, hcfg.hashcode, hcfg.keyLen]
    exact h.codes
  · rw [hlive, hcfg.eqv_eq]
    exact h.distinct

theorem append (h : ht.WellFormed) {key : K} {value : Option V}
    (hnew : OMap.find ht.eqv ht.live key = none) (hs : ht'.Shape) (hcfg : ht.SameConfig ht')
    (hcores : ht'.cores = ht.cores ++ [(ht.hashcode key ht.keyLen, key, value)]) :
    ht.Becomes ht' (ht.live ++ [(key, value)]) := by
  have hlive : ht'.live = ht.live ++ [(key, value)] := by
    rw [live_eq, live_eq, hcores, List.map_append]
    rfl
  refine ⟨⟨hs, ?_, ?_⟩, hcfg, hlive⟩
  · rw [hcores, hcfg.hashcode, hcfg.keyLen]
    intro c hc
    rcases List.mem_append.1 hc with hc | hc
    · exact h.codes c hc
    · rw [List.mem_singleton.1 hc]
  · rw [hlive, hcfg.eqv_eq]
    exact h.distinct.append hnew

theorem replace (h : ht.WellFormed) (hc : ht.Callbacks) {key : K} {prev : Option Nat} {i : Nat}
    {ent : Entry K V} (hw : ht.walkChain key = some (some (prev, i, ent))) (value : Option V) :
    ht.Becomes (replaceEntry ht i key value).1 (OMap.replace ht.eqv ht.live key value) := by
  obtain ⟨hiu, hi, hcode, k, hk, heq, hli⟩ := (h.walkChain_some hw).liveAt
  obtain ⟨hs, hlive, hcfg⟩ := h.toShape.replace hi hk key value
  have hused : (replaceEntry ht i key value).1.countUsed = ht.countUsed := rfl
  have hmap : (replaceEntry ht i key value).1.live = OMap.replace ht.eqv ht.live key value := by
    rw [live_eq_filterMap, live_eq_filterMap, OMap.replace, List.map_filterMap, hused]
    refine List.filterMap_congr fun j hj => ?_
    rw [hlive]
    by_cases hij : i = j
    · subst hij
      have heq' : ht.eqv k key = true := heq
      rw [if_pos rfl, hli]
      simp [heq']
    · rw [if_neg hij]
      cases hlj : liveAt ht.entries j with
      | none => rfl
      | some c =>
        obtain ⟨c, q⟩ := c
        have hne := h.key_ne hc hiu (List.mem_range.1 hj) hli hlj heq hij
        simp [hne]
  refine ⟨⟨hs, ?_, ?_⟩, hcfg, hmap⟩
  · intro c hcm
    obtain ⟨j, hj, hlj⟩ := mem_cores.1 hcm
    rw [hlive] at hlj
    rw [hcfg.hashcode, hcfg.keyLen]
    by_cases hij : i = j
    · rw [if_pos hij] at hlj
      cases hlj
      exact hcode
    · rw [if_neg hij] at hlj
      exact h.codes c (mem_cores.2 ⟨j, hj, hlj⟩)
  · rw [hmap, hcfg.eqv_eq]
    exact h.distinct.replace hc.equiv

theorem unlinked (h : ht.WellFormed) (hc : ht.Callbacks) {key : K} {prev : Option Nat} {i : Nat}
    {ent : Entry K V} (hw : ht.walkChain key = some (some (prev, i, ent))) :
    ht.Becomes (ht.unlinked key prev i ent) (OMap.erase ht.eqv ht.live key) := by
  obtain ⟨hiu, hi, hcode, k, hk, heq, hli⟩ := (h.walkChain_some hw).liveAt
  obtain ⟨hs, hlive, hcfg⟩ := h.toShape.unlink (h.walkChain_some hw)
  obtain ⟨-, hused, -⟩ := unlinked_eq ht key prev i ent
  change (ht.unlinked key prev i ent).Shape at hs
  change ∀ j, liveAt (ht.unlinked key prev i ent).entries j = _ at hlive
  change ht.SameConfig (ht.unlinked key prev i ent) at hcfg
  have hmap : (ht.unlinked key prev i ent).live = OMap.erase ht.eqv ht.live key := by
    rw [live_eq_filterMap, live_eq_filterMap, OMap.erase, List.filter_filterMap, hused]
    refine List.filterMap_congr fun j hj => ?_
    rw [hlive]
    by_cases hij : j = i
    · subst hij
      have heq' : ht.eqv k key = true := heq
      rw [if_pos rfl, hli]
      simp [Option.filter, heq']
    · rw [if_neg hij]
      cases hlj : liveAt ht.entries j with
      | none => rfl
      | some c =>
        obtain ⟨c, q⟩ := c
        have hne := h.key_ne hc hiu (List.mem_range.1 hj) hli hlj heq (Ne.symm hij)
        simp [Option.filter, hne]
  refine ⟨⟨hs, ?_, ?_⟩, hcfg, hmap⟩
  · intro c hcm
    obtain ⟨j, hj, hlj⟩ := mem_cores.1 hcm
    rw [hlive] at hlj
    rw [hcfg.hashcode, hcfg.keyLen]
    by_cases hij : j = i
    · rw [if_pos hij] at hlj
      cases hlj
    · rw [if_neg hij] at hlj
      exact h.codes c (mem_cores.2 ⟨j, hused ▸ hj, hlj⟩)
  · rw [hmap, hcfg.eqv_eq]
    exact h.distinct.erase

end WellFormed
end HTable
end Pcl

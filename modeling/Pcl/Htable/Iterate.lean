import Pcl.Htable.Edits

/-!
# Iterating over a table that is changed

`pcl_htable_iter` keeps nothing but an index into `entries`, so the application may make any call in the body of its loop.
In whatever way it changes the table, the loop gets the keys in the order in which they were put, each of them once at
most for each time it was put. It misses none of those in the table when no call cleared the table or rehashed it.
-/

namespace Pcl

open HTable Shape

variable {K V : Type}

namespace HTable

/-- Calls of the application, one after the other. What it does to the error state between them is left open. -/
inductive Calls : HTable K V → List (HStep K V) → HTable K V → Prop
  | nil (ht : HTable K V) : Calls ht [] ht
  | cons {ht ht₁ ht' : HTable K V} {steps : List (HStep K V)} {c : HCall K V} {e e' : ErrState}
      (hexec : c.exec ht e = some (ht₁, e')) (h : Calls ht₁ steps ht') : Calls ht (⟨ht, c, ht₁⟩ :: steps) ht'

/-- `while((ent = pcl_htable_iter(ht, &index)))` up to the end of a turn: the keys of the entries it got, the calls made
in its body, the index and the table. -/
inductive Iterates : HTable K V → Int → List K → List (HStep K V) → Int → HTable K V → Prop
  | start (ht : HTable K V) (index : Int) : Iterates ht index [] [] index ht
  | turn {ht ht₁ ht' : HTable K V} {index index₁ index' : Int} {i : Nat} {key : K} {keys : List K}
      {steps steps' : List (HStep K V)} (hiter : htableIter ht index = (some i, index₁))
      (hkey : ht.entries[i]?.bind Entry.key = some key) (hbody : Calls ht steps ht₁)
      (h : Iterates ht₁ index₁ keys steps' index' ht') : Iterates ht index (key :: keys) (steps ++ steps') index' ht'

section
variable {ht ht' : HTable K V} {steps : List (HStep K V)} {keys : List K} {index : Int}

/-- What a slot holds. -/
theorem slots_drop (ht : HTable K V) (n : Nat) : ht.slots.drop n =
    (List.range' n (ht.countUsed - n)).map fun i => (liveAt ht.entries i).map fun c => ht.eqv c.2.1 := by
  unfold slots
  rw [List.range_eq_range', ← List.map_drop, List.drop_range', Nat.mul_one, Nat.zero_add]

theorem liveAt_isSome (es : Array (Entry K V)) (i : Nat) : (liveAt es i).isSome = (es[i]?.bind Entry.key).isSome := by
  unfold liveAt coreAt
  cases es[i]? with
  | none => rfl
  | some ent => cases hkey : ent.key <;> simp [hkey]

theorem liveAt_of_key {es : Array (Entry K V)} {i : Nat} {key : K} (hkey : es[i]?.bind Entry.key = some key) :
    ∃ code value, liveAt es i = some (code, key, value) := by
  obtain ⟨ent, hent, hk⟩ := Option.bind_eq_some_iff.1 hkey
  exact ⟨ent.code, ent.value, by rw [liveAt_eq_some, coreAt, hent, Option.map_some, hk]⟩

/-- An entry that the iteration gets has a key. -/
theorem iter_key {index₁ : Int} {i : Nat} (hiter : htableIter ht index = (some i, index₁)) :
    ∃ key, ht.entries[i]?.bind Entry.key = some key := by
  unfold htableIter at hiter
  split at hiter
  · cases hiter
  · split at hiter
    · rename_i j hfind
      cases hiter
      have hsome := List.find?_some hfind
      exact Option.isSome_iff_exists.1 hsome
    · cases hiter

/-- The next entry is in the first slot that is not empty. -/
theorem iter_some {n i : Nat} {key : K} (hiter : htableIter ht n = (some i, index))
    (hkey : ht.entries[i]?.bind Entry.key = some key) : ∃ k rest, index = ((n + k + 1 : Nat) : Int) ∧ i = n + k ∧
      i < ht.countUsed ∧ ht.slots.drop n = List.replicate k none ++ some (ht.eqv key) :: rest := by
  unfold htableIter at hiter
  split at hiter
  · cases hiter
  · rw [Int.toNat_natCast] at hiter
    split at hiter
    · rename_i j hfind
      cases hiter
      obtain ⟨hlive, hmem, hbefore⟩ := List.find?_range'_eq_some.1 hfind
      rw [List.mem_range'_1] at hmem
      obtain ⟨code, value, hslot⟩ := liveAt_of_key hkey
      have hsplit : List.range' n (ht.countUsed - n) =
          List.range' n (i - n) ++ i :: List.range' (i + 1) (ht.countUsed - (i + 1)) := by
        have hlen : ht.countUsed - n = (i - n) + (ht.countUsed - (i + 1) + 1) := by omega
        rw [hlen, ← List.range'_append_1, show n + (i - n) = i by omega, List.range'_succ]
      refine ⟨i - n, ((List.range' (i + 1) (ht.countUsed - (i + 1))).map fun j =>
        (liveAt ht.entries j).map fun c => ht.eqv c.2.1), ?_, by omega, by omega, ?_⟩
      · rw [show n + (i - n) = i by omega]
        rfl
      · rw [slots_drop, hsplit, List.map_append, List.map_cons, hslot]
        congr 1
        rw [List.eq_replicate_iff]
        refine ⟨by simp, fun b hb => ?_⟩
        obtain ⟨j, hj, rfl⟩ := List.mem_map.1 hb
        rw [List.mem_range'_1] at hj
        have hnone := hbefore j hj.1 (by omega)
        rw [← liveAt_isSome] at hnone
        cases hl : liveAt ht.entries j with
        | none => rfl
        | some c => simp [hl] at hnone
    · cases hiter

theorem iter_none {n : Nat} (hiter : (htableIter ht n).1 = none) : (ht.slots.drop n).reduceOption = [] := by
  unfold htableIter at hiter
  rw [slots_drop]
  split at hiter
  · rename_i hn
    rw [show ht.countUsed - n = 0 by omega]
    rfl
  · rw [Int.toNat_natCast] at hiter
    split at hiter
    · cases hiter
    · rename_i hfind
      rw [List.reduceOption, List.filterMap_map, List.filterMap_eq_nil_iff]
      intro j hj
      have hnone := List.find?_eq_none.1 hfind j hj
      rw [← liveAt_isSome, Option.not_isSome_iff_eq_none] at hnone
      simp [hnone]

/-- What the calls of a body do to the slots. -/
theorem Calls.edits (h : ht.Sized) (hc : ht.Callbacks) (hcalls : Calls ht steps ht') :
    ht'.Sized ∧ ht.SameConfig ht' ∧ ∃ es, ht'.slots = Slots.apply ht.slots es ∧
      Slots.added es = (steps.flatMap HStep.added).map ht.eqv ∧ ((∀ s ∈ steps, s.Quiet) → ∀ d ∈ es, d.Stays) := by
  induction hcalls with
  | nil ht => exact ⟨h, .refl ht, [], rfl, rfl, fun _ d hd => absurd hd List.not_mem_nil⟩
  | @cons ht ht₁ ht' steps c e e' hexec _ ih =>
    obtain ⟨es, hedits⟩ := h.exec_edits hc hexec
    have hcfg := hedits.config
    obtain ⟨h', hcfg', es', hslots', hadded', hstays'⟩ := ih (h.exec hexec) (hcfg.callbacks hc)
    refine ⟨h', hcfg.trans hcfg', es ++ es', ?_, ?_, ?_⟩
    · rw [Slots.apply_append, ← hedits.slots]
      exact hslots'
    · rw [Slots.added_append, hedits.added, hadded', List.flatMap_cons, List.map_append, hcfg.eqv_eq]
    · intro hquiet d hd
      rcases List.mem_append.1 hd with hd | hd
      · exact hedits.stays (hquiet _ List.mem_cons_self) d hd
      · exact hstays' (fun s hs => hquiet s (List.mem_cons_of_mem _ hs)) d hd

/-- The loop walks over the slots. -/
theorem Iterates.walk (h : ht.Sized) (hc : ht.Callbacks) {index' : Int} (hit : Iterates ht index keys steps index' ht')
    {n : Nat} (hn : index = n) : ht'.Sized ∧ ht.SameConfig ht' ∧ ∃ (j : Nat) (es : List (Slots.Edit (K → Bool))),
      index' = j ∧ Slots.Walk n ht.slots (keys.map ht.eqv) es j ht'.slots ∧
      Slots.added es = (steps.flatMap HStep.added).map ht.eqv ∧ ((∀ s ∈ steps, s.Quiet) → ∀ d ∈ es, d.Stays) := by
  induction hit generalizing n with
  | start ht index =>
    exact ⟨h, .refl ht, n, [], hn, .start n ht.slots, rfl, fun _ d hd => absurd hd List.not_mem_nil⟩
  | @turn ht ht₁ ht' index index₁ index' i key keys steps steps' hiter hkey hbody _ ih =>
    subst hn
    obtain ⟨k, rest, hindex, -, -, hdrop⟩ := iter_some hiter hkey
    obtain ⟨h₁, hcfg, es, hslots, hadded, hstays⟩ := hbody.edits h hc
    obtain ⟨h', hcfg', j, es', hj, hwalk, hadded', hstays'⟩ := ih h₁ (hcfg.callbacks hc) hindex
    rw [hcfg.eqv_eq] at hwalk hadded'
    refine ⟨h', hcfg.trans hcfg', j, es ++ es', hj, ?_, ?_, ?_⟩
    · rw [hslots] at hwalk
      exact .step k (ht.eqv key) rest hdrop hwalk
    · rw [Slots.added_append, hadded, hadded', List.flatMap_append, List.map_append]
    · intro hquiet d hd
      rcases List.mem_append.1 hd with hd | hd
      · exact hstays (fun s hs => hquiet s (List.mem_append_left _ hs)) d hd
      · exact hstays' (fun s hs => hquiet s (List.mem_append_right _ hs)) d hd

theorem calls_of_run {cs : List (HCall K V)} {e e' : ErrState} (hrun : ht.run cs e = some (ht', e')) :
    ∃ steps, Calls ht steps ht' := by
  induction cs generalizing ht e with
  | nil =>
    cases hrun
    exact ⟨[], .nil _⟩
  | cons c cs ih =>
    obtain ⟨⟨ht₁, e₁⟩, hexec, hrest⟩ := Option.bind_eq_some_iff.1 hrun
    obtain ⟨steps, hcalls⟩ := ih hrest
    exact ⟨_, .cons hexec hcalls⟩

end

/-- A loop over a table that a run of a new one reached, whatever the calls in its body: it gets keys that were in the
table or were put meanwhile, each of them once at most, in the order of `entries`. Those that are in the table when it ends
were all got, if no call cleared the table or changed its capacity. -/
theorem htable_iterates {capacity : Int} (hcap : Accepted capacity) {keyLen : Nat} (removeEntry : Bool)
    {keyEquals : K → K → Nat → Bool} {hashcode : K → Nat → UInt64}
    (hequiv : OMap.IsEquiv fun a b => keyEquals a b keyLen)
    (hhash : ∀ {a b}, keyEquals a b keyLen = true → hashcode a keyLen = hashcode b keyLen) (e : ErrState) :
    ∃ ht : HTable K V, htable capacity keyLen removeEntry keyEquals hashcode e = some (some ht, e) ∧
      ∀ cs ht₁ e₁, ht.run cs e = some (ht₁, e₁) →
        ∀ keys steps index ht₂, Iterates ht₁ 0 keys steps index ht₂ →
          (keys.map ht.eqv).Sublist ((ht₁.live.map Prod.fst ++ steps.flatMap HStep.added).map ht.eqv) ∧
          ((htableIter ht₂ index).1 = none → (∀ s ∈ steps, s.Quiet) →
            ((ht₂.live.map Prod.fst).map ht.eqv).Sublist (keys.map ht.eqv)) := by
  refine ⟨_, htable_run hcap keyLen removeEntry keyEquals hashcode e, ?_⟩
  intro cs ht₁ e₁ hrun keys steps index ht₂ hit
  set ht : HTable K V := freshTable (roundCapacity capacity.toNat) keyLen removeEntry keyEquals hashcode
  have hc : ht.Callbacks := ⟨hequiv, hhash⟩
  obtain ⟨before, hcalls⟩ := calls_of_run hrun
  obtain ⟨h₁, hcfg₁, -⟩ := hcalls.edits (fresh_sized hcap keyLen removeEntry keyEquals hashcode) hc
  obtain ⟨-, hcfg₂, j, es, rfl, hwalk, hadded, hstays⟩ := hit.walk h₁ (hcfg₁.callbacks hc) (n := 0) rfl
  rw [hcfg₁.eqv_eq] at hwalk hadded
  constructor
  · have hsub := (List.sublist_append_left _ _).trans hwalk.sublist
    rw [List.drop_zero, ← map_live, hcfg₁.eqv_eq, hadded, ← List.map_append] at hsub
    exact hsub
  · intro hend hquiet
    have hall := hwalk.sees_all (hstays hquiet)
    have hrest := iter_none hend
    rw [List.take_zero, List.reduceOption_nil, List.nil_append] at hall
    rw [← hcfg₁.eqv_eq, ← hcfg₂.eqv_eq, map_live, ← List.take_append_drop j ht₂.slots, List.reduceOption_append, hrest,
      List.append_nil, hcfg₂.eqv_eq, hcfg₁.eqv_eq]
    exact hall

theorem htable_iterates_eight : ∃ ht : HTable Nat Nat,
    htable 0 0 false natEquals natHashcode .zero = some (some ht, .zero) ∧
      ∀ cs ht₁ e₁, ht.run cs .zero = some (ht₁, e₁) →
        ∀ keys steps index ht₂, Iterates ht₁ 0 keys steps index ht₂ →
          (keys.map ht.eqv).Sublist ((ht₁.live.map Prod.fst ++ steps.flatMap HStep.added).map ht.eqv) ∧
          ((htableIter ht₂ index).1 = none → (∀ s ∈ steps, s.Quiet) →
            ((ht₂.live.map Prod.fst).map ht.eqv).Sublist (keys.map ht.eqv)) :=
  htable_iterates (show Accepted 0 from Nat.le_of_ble_eq_true rfl) false OMap.IsEquiv.beq
    (fun h => by rw [beq_iff_eq.1 h]) .zero

end HTable
end Pcl

import Pcl.Htable.Iterate
import Pcl.Htable.Denotes

/-!
# Removing what the iteration finds

A loop that removes each entry it gets. As long as nothing is moved it takes out every entry. The first rehash moves what
is left to the first slots, which the index has passed, and the loop does not get to it. So it empties a table of the
smallest capacity, or of one entry, and no other.
-/

namespace Pcl

open HTable Shape

variable {K V : Type}

/-- `while((ent = pcl_htable_iter(ht, &index))) pcl_htable_remove(ht, ent->key)`, `n` turns at most. -/
def drainLoop (ht : HTable K V) : Nat → Int → ErrM (HTable K V)
  | 0, _ => return ht
  | n + 1, index =>
    match htableIter ht index with
    | (none, _) => return ht
    | (some i, index) => do
      let (_, ht, _) ← htableRemove ht (ht.entries[i]?.bind Entry.key)
      drainLoop ht n index

namespace HTable
variable {ht ht₁ : HTable K V}

/-- A table along the loop. -/
structure Draining (ht : HTable K V) : Prop where
  sized : ht.Sized
  wf : ht.WellFormed
  callbacks : ht.Callbacks

/-- A turn of the loop at slot `n + k`: the entry is taken out, and the rest moved together if the table shrinks. -/
structure Turn (ht : HTable K V) (n k : Nat) (ht₁ : HTable K V) : Prop where
  seen : ∃ x rest, ht.slots.drop n = List.replicate k none ++ some x :: rest
  draining : ht₁.Draining
  count : ht₁.count = ht.count - 1
  slots : (¬ ht.shrinksOnRemove (ht.count - 1) ∧ ht₁.capacity = ht.capacity ∧ ht₁.slots = ht.slots.set (n + k) none) ∨
    (ht.shrinksOnRemove (ht.count - 1) ∧ ht₁.slots = (ht.slots.set (n + k) none).reduceOption.map some)

theorem Draining.turn (h : ht.Draining) {n i : Nat} {index : Int} (hiter : htableIter ht n = (some i, index))
    (e : ErrState) : ∃ k r ht₁ l, index = ((n + k + 1 : Nat) : Int) ∧ n + k < ht.countUsed ∧
      htableRemove ht (ht.entries[i]?.bind Entry.key) e = some ((r, ht₁, l), e) ∧ ht.Turn n k ht₁ := by
  obtain ⟨key, hkey⟩ := iter_key hiter
  obtain ⟨k, rest, hindex, rfl, hlt, hdrop⟩ := iter_some hiter hkey
  obtain ⟨code, value, hlive⟩ := liveAt_of_key hkey
  obtain ⟨r, ht₁, l, hrem, hb⟩ := h.sized.remove_denotes h.wf h.callbacks key e
  have hdraining : ht₁.Draining := ⟨h.sized.remove hrem, hb.wf, hb.config.callbacks h.callbacks⟩
  rw [hkey]
  refine ⟨k, r, ht₁, l, hindex, hlt, hrem, ?_⟩
  -- the walk along the chain finds the same entry
  have hsame : ∀ {prev j ent}, ht.walkChain key = some (some (prev, j, ent)) → j = n + k := by
    intro prev j ent hw
    obtain ⟨hj, -, -, key', -, heq, hlive'⟩ := (h.sized.walkChain_some hw).liveAt
    exact h.wf.index_unique h.callbacks hj hlt hlive' hlive heq
  cases h.sized.removal hrem with
  | absent hw =>
    rcases h.wf.find h.callbacks key with ⟨-, hno⟩ | ⟨_, _, _, _, hw', -⟩
    · have hne := OMap.find_eq_none.1 hno _ (mem_live.2 ⟨n + k, hlt, code, hlive⟩)
      rw [h.callbacks.equiv.refl key] at hne
      cases hne
    · rw [hw] at hw'
      cases hw'
  | taken hw _ hcount hs hcap hslots =>
    rw [hsame hw] at hslots
    exact ⟨⟨_, rest, hdrop⟩, hdraining, hcount, .inl ⟨hs, hcap, hslots⟩⟩
  | shrunk hw _ hcount hs _ hslots =>
    rw [hsame hw] at hslots
    exact ⟨⟨_, rest, hdrop⟩, hdraining, hcount, .inr ⟨hs, hslots⟩⟩

theorem Turn.used_le {n k : Nat} (h : ht.Turn n k ht₁) : ht₁.countUsed ≤ ht.countUsed := by
  rw [← slots_length, ← slots_length ht]
  rcases h.slots with ⟨-, -, hslots⟩ | ⟨-, hslots⟩
  · rw [hslots, List.length_set]
  · rw [hslots, List.length_map]
    refine (List.reduceOption_length_le _).trans ?_
    rw [List.length_set]

/-- The loop ends, with what every turn keeps. -/
theorem Draining.ends {P : HTable K V → Nat → Prop}
    (hkeep : ∀ {ht ht₁ : HTable K V} {n k : Nat}, ht.Draining → P ht n → ht.Turn n k ht₁ → P ht₁ (n + k + 1))
    (h : ht.Draining) {n : Nat} (hP : P ht n) (e : ErrState) : ∃ ht' j, ht'.Draining ∧ P ht' j ∧
      (ht'.slots.drop j).reduceOption = [] ∧ ∀ fuel > ht.countUsed - n, drainLoop ht fuel n e = some (ht', e) := by
  induction hm : ht.countUsed - n using Nat.strong_induction_on generalizing ht n with
  | _ m ih =>
    cases hiter : htableIter ht n with
    | mk found index =>
      cases found with
      | none =>
        refine ⟨ht, n, h, hP, iter_none (by rw [hiter]), fun fuel hfuel => ?_⟩
        obtain ⟨fuel, rfl⟩ := Nat.exists_eq_succ_of_ne_zero (Nat.ne_zero_of_lt hfuel)
        simp only [drainLoop, hiter]
        rfl
      | some i =>
        obtain ⟨k, r, ht₁, l, hindex, hlt, hrem, hturn⟩ := h.turn hiter e
        have hused := hturn.used_le
        obtain ⟨ht', j, h', hP', hend, hrun⟩ := ih (ht₁.countUsed - (n + k + 1)) (by omega) hturn.draining
          (hkeep h hP hturn) rfl
        refine ⟨ht', j, h', hP', hend, fun fuel hfuel => ?_⟩
        obtain ⟨fuel, rfl⟩ := Nat.exists_eq_succ_of_ne_zero (Nat.ne_zero_of_lt hfuel)
        simp only [drainLoop, hiter, ErrM.bind_run, hrem, Option.bind_some]
        rw [hindex]
        exact hrun fuel (by omega)

theorem Shape.count_slots (h : ht.Shape) : ht.count = ht.slots.reduceOption.length := by
  rw [slots_reduceOption, List.length_map, h.count_eq]

/-- Nothing is left behind the index. -/
def Clean (ht : HTable K V) (n : Nat) : Prop := (ht.slots.take n).reduceOption = []

theorem Turn.clean_iff {n k : Nat} (h : ht.Turn n k ht₁) (hstay : ¬ ht.shrinksOnRemove (ht.count - 1)) :
    ht₁.Clean (n + k + 1) ↔ ht.Clean n := by
  obtain ⟨x, rest, hx⟩ := h.seen
  rcases h.slots with ⟨-, -, hslots⟩ | ⟨hs, -⟩
  · unfold Clean
    rw [hslots, Slots.take_set_seen hx]
  · exact absurd hs hstay

theorem Turn.count_set {n k : Nat} (h : ht.Turn n k ht₁) :
    ht₁.count = (ht.slots.set (n + k) none).reduceOption.length := by
  rw [h.draining.sized.toShape.count_slots]
  rcases h.slots with ⟨-, -, hslots⟩ | ⟨-, hslots⟩
  · rw [hslots]
  · rw [hslots, Slots.reduceOption_map_some]

/-- A table that shrinks with an entry left keeps it behind the index. -/
theorem Turn.not_clean {n k : Nat} (h : ht.Turn n k ht₁) (hs : ht.shrinksOnRemove (ht.count - 1))
    (hleft : 0 < ht₁.count) : ¬ ht₁.Clean (n + k + 1) := by
  rcases h.slots with ⟨hstay, -⟩ | ⟨-, hslots⟩
  · exact absurd hs hstay
  · have hcount := h.count_set
    unfold Clean
    rw [hslots, ← List.map_take, Slots.reduceOption_map_some, List.take_eq_nil_iff]
    rintro (hno | hnil)
    · omega
    · rw [hnil, List.length_nil] at hcount
      omega

/-- What is behind the index stays behind it. -/
theorem Turn.keeps {n k : Nat} (h : ht.Turn n k ht₁) (hn : ¬ ht.Clean n) : ¬ ht₁.Clean (n + k + 1) := by
  by_cases hs : ht.shrinksOnRemove (ht.count - 1)
  · refine h.not_clean hs ?_
    obtain ⟨x, rest, hx⟩ := h.seen
    rw [h.count_set, List.length_pos_iff, ← List.take_append_drop (n + k + 1) (ht.slots.set (n + k) none),
      List.reduceOption_append, Slots.take_set_seen hx]
    exact fun hnil => hn (List.append_eq_nil_iff.1 hnil).1
  · rwa [h.clean_iff hs]

/-- When the loop has ended. -/
theorem Draining.count_end (h : ht.Draining) {j : Nat} (hend : (ht.slots.drop j).reduceOption = []) :
    ht.count = 0 ↔ ht.Clean j := by
  have hall : ht.slots.reduceOption = (ht.slots.take j).reduceOption := by
    conv_lhs => rw [← List.take_append_drop j ht.slots, List.reduceOption_append, hend, List.append_nil]
  unfold Clean
  rw [h.sized.toShape.count_slots, List.length_eq_zero_iff, hall]

/-- A table of more than the smallest capacity keeps two entries at least before it shrinks. -/
theorem Sized.two_le (h : ht.Sized) (hcap : ht.capacity ≠ minTblSize) {n : Nat} (hstay : ¬ ht.shrinksOnRemove n) :
    2 ≤ n := by
  obtain ⟨k, hk, -, hpow⟩ := h.geometry.capacity_eq
  have hk4 : 4 ≤ k := by
    rcases Nat.lt_or_eq_of_le hk with hlt | rfl
    · exact hlt
    · exact absurd hpow hcap
  have h16 : 2 ^ 4 ≤ 2 ^ k := Nat.pow_le_pow_right (by decide) hk4
  rw [← hpow] at h16
  by_contra hlt
  refine hstay ⟨hcap, ?_⟩
  rw [h.min_eq]
  show n < 13421773 * ht.capacity / 2 ^ 26
  omega

/-- A table of the smallest capacity does not shrink. -/
theorem Turn.smallest {n k : Nat} (h : ht.Turn n k ht₁) (hP : ht.capacity = minTblSize ∧ ht.Clean n) :
    ht₁.capacity = minTblSize ∧ ht₁.Clean (n + k + 1) := by
  have hstay : ¬ ht.shrinksOnRemove (ht.count - 1) := fun hs => hs.1 hP.1
  refine ⟨?_, (h.clean_iff hstay).2 hP.2⟩
  rcases h.slots with ⟨-, hsame, -⟩ | ⟨hs, -⟩
  · exact hsame.trans hP.1
  · exact absurd hs hstay

theorem Turn.last {n k : Nat} (h : ht.Turn n k ht₁) (hone : ht.count ≤ 1) : ht₁.count ≤ 1 ∧ ht₁.Clean (n + k + 1) := by
  have hcount := h.count
  have hslots := h.draining.sized.toShape.count_slots
  refine ⟨by omega, ?_⟩
  have hnil : ht₁.slots.reduceOption = [] := List.length_eq_zero_iff.1 (by omega)
  refine List.sublist_nil.1 ?_
  rw [← hnil]
  exact (List.take_sublist _ _).filterMap _

/-- A turn in a larger table with two entries leaves two, or shrinks the table. -/
theorem Turn.leaves {n k : Nat} (h : ht.Turn n k ht₁) (hd : ht.Draining)
    (hP : ¬ ht.Clean n ∨ ht.capacity ≠ minTblSize ∧ 2 ≤ ht.count) :
    ¬ ht₁.Clean (n + k + 1) ∨ ht₁.capacity ≠ minTblSize ∧ 2 ≤ ht₁.count := by
  have hcount := h.count
  rcases hP with hn | ⟨hcap, htwo⟩
  · exact .inl (h.keeps hn)
  · by_cases hs : ht.shrinksOnRemove (ht.count - 1)
    · exact .inl (h.not_clean hs (by omega))
    · right
      rcases h.slots with ⟨-, hsame, -⟩ | ⟨hs', -⟩
      · exact ⟨hsame.trans_ne hcap, hcount ▸ hd.sized.two_le hcap hs⟩
      · exact absurd hs' hs

/-- The loop empties a table of the smallest capacity or of one entry, and no other. -/
theorem Draining.empties_iff (h : ht.Draining) (e : ErrState) :
    ∃ ht', ht'.Draining ∧ (∀ fuel > ht.countUsed, drainLoop ht fuel 0 e = some (ht', e)) ∧
      (ht'.count = 0 ↔ ht.capacity = minTblSize ∨ ht.count ≤ 1) := by
  have hclean : ht.Clean 0 := rfl
  by_cases hcap : ht.capacity = minTblSize
  · obtain ⟨ht', j, h', ⟨-, hj⟩, hend, hrun⟩ := h.ends (P := fun t n => t.capacity = minTblSize ∧ t.Clean n)
      (fun _ hP hturn => hturn.smallest hP) ⟨hcap, hclean⟩ e
    exact ⟨ht', h', hrun, iff_of_true ((h'.count_end hend).2 hj) (.inl hcap)⟩
  by_cases hone : ht.count ≤ 1
  · obtain ⟨ht', j, h', ⟨-, hj⟩, hend, hrun⟩ := h.ends (P := fun t n => t.count ≤ 1 ∧ t.Clean n)
      (fun _ hP hturn => hturn.last hP.1) ⟨hone, hclean⟩ e
    exact ⟨ht', h', hrun, iff_of_true ((h'.count_end hend).2 hj) (.inr hone)⟩
  · obtain ⟨ht', j, h', hj, hend, hrun⟩ := h.ends (P := fun t n => ¬ t.Clean n ∨ t.capacity ≠ minTblSize ∧ 2 ≤ t.count)
      (fun hd hP hturn => hturn.leaves hd hP) (n := 0) (.inr ⟨hcap, by omega⟩) e
    refine ⟨ht', h', hrun, iff_of_false ?_ (by omega)⟩
    rcases hj with hj | ⟨-, htwo⟩
    · rwa [h'.count_end hend]
    · omega

/-- A loop that removes each entry it gets from a table that a run of a new one reached: it ends, and it has emptied the
table if and only if no removal could shrink it before the last one. -/
theorem htable_drains {capacity : Int} (hcap : Accepted capacity) {keyLen : Nat} (removeEntry : Bool)
    {keyEquals : K → K → Nat → Bool} {hashcode : K → Nat → UInt64}
    (hequiv : OMap.IsEquiv fun a b => keyEquals a b keyLen)
    (hhash : ∀ {a b}, keyEquals a b keyLen = true → hashcode a keyLen = hashcode b keyLen) (e : ErrState) :
    ∃ ht : HTable K V, htable capacity keyLen removeEntry keyEquals hashcode e = some (some ht, e) ∧
      ∀ cs ht₁ e₁, ht.run cs e = some (ht₁, e₁) →
        ∃ ht₂, (∀ fuel > ht₁.countUsed, drainLoop ht₁ fuel 0 e₁ = some (ht₂, e₁)) ∧
          (ht₂.live = [] ↔ ht₁.capacity = minTblSize ∨ ht₁.live.length ≤ 1) := by
  refine ⟨_, htable_run hcap keyLen removeEntry keyEquals hashcode e, ?_⟩
  intro cs ht₁ e₁ hrun
  set ht : HTable K V := freshTable (roundCapacity capacity.toNat) keyLen removeEntry keyEquals hashcode
  have hc : ht.Callbacks := ⟨hequiv, hhash⟩
  obtain ⟨h₁, hb⟩ := (fresh_sized hcap keyLen removeEntry keyEquals hashcode).run_denotes
    (fresh_wellFormed hcap keyLen removeEntry keyEquals hashcode) hc hrun
  have hd : ht₁.Draining := ⟨h₁, hb.wf, hb.config.callbacks hc⟩
  obtain ⟨ht₂, h₂, hrun₂, hiff⟩ := hd.empties_iff e₁
  refine ⟨ht₂, hrun₂, ?_⟩
  rw [← List.length_eq_zero_iff, h₂.sized.live_length, h₁.live_length]
  exact hiff

theorem htable_drains_eight : ∃ ht : HTable Nat Nat,
    htable 0 0 false natEquals natHashcode .zero = some (some ht, .zero) ∧
      ∀ cs ht₁ e₁, ht.run cs .zero = some (ht₁, e₁) →
        ∃ ht₂, (∀ fuel > ht₁.countUsed, drainLoop ht₁ fuel 0 e₁ = some (ht₂, e₁)) ∧
          (ht₂.live = [] ↔ ht₁.capacity = minTblSize ∨ ht₁.live.length ≤ 1) :=
  htable_drains (show Accepted 0 from Nat.le_of_ble_eq_true rfl) false OMap.IsEquiv.beq
    (fun h => by rw [beq_iff_eq.1 h]) .zero

end HTable
end Pcl

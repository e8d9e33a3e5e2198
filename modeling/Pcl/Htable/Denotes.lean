import Pcl.Htable.Geometry

/-!
# Whole runs denote an ordered map

A table that a run of a new one reached holds what the calls of the run make of an empty insertion-ordered map. The one
limit is that of the capacity: a new key is refused when three quarters of the largest table are live.
-/

namespace Pcl

open HTable Shape

variable {K V : Type}

/-- What a call does to the map. -/
def HCall.denote (eqv : K → K → Bool) (m : List (K × Option V)) : HCall K V → List (K × Option V)
  | .put (some key) value unique =>
    match OMap.find eqv m key with
    | some _ => if unique then m else OMap.replace eqv m key value
    | none => if m.length < 3 * maxTblSize / 4 then m ++ [(key, value)] else m
  | .remove (some key) => OMap.erase eqv m key
  | .clear _ => []
  | .put none _ _ | .remove none | .lookup _ => m

namespace HTable
variable {ht ht' : HTable K V}

theorem WellFormed.becomes (h : ht.WellFormed) : ht.Becomes ht ht.live := ⟨h, .refl ht, rfl⟩

/-- A put is refused at three quarters of the largest capacity. -/
theorem Sized.limit_iff (h : ht.Sized) : (ht.growsOnPut ∧ ht.capacity = maxTblSize) ↔ 3 * maxTblSize / 4 ≤ ht.count := by
  have hload := h.load_le
  have hle := h.capacity_le
  rw [h.growsOnPut_iff]
  unfold maxTblSize at *
  constructor
  · rintro ⟨hg, hcap⟩
    omega
  · intro hcount
    omega

theorem Sized.put_denotes (h : ht.Sized) (hw : ht.WellFormed) (hc : ht.Callbacks) {key : K} {value : Option V}
    {unique : Bool} {e e' : ErrState} (hexec : (HCall.put (some key) value unique).exec ht e = some (ht', e')) :
    ht.Becomes ht' ((HCall.put (some key) value unique).denote ht.eqv ht.live) := by
  have hok := h.sound.stepOk_iff.1 (h.sound.stepOk_of_exec hexec)
  have hret : ∀ {r t l e₁}, htablePut ht (some key) value unique e = some ((r, t, l), e₁) → t = ht' := by
    intro r t l e₁ hput
    simp only [HCall.exec, ErrM.bind_run, hput, Option.bind_some, ErrM.pure_run] at hexec
    cases hexec
    rfl
  cases hfind : OMap.find ht.eqv ht.live key with
  | none =>
    have habsent : ht.walkChain key = some none := by
      rcases hw.find hc key with ⟨habsent, -⟩ | ⟨_, _, _, _, _, _, _, hfound⟩
      · exact habsent
      · rw [hfind] at hfound
        cases hfound
    have hslot : ht.HasSlot key := by
      by_cases hg : ht.growsOnPut
      · exact .inr (.inl hg)
      · exact .inr (.inr (hok habsent hg))
    simp only [HCall.denote, hfind]
    rw [← hw.count_eq_live]
    rcases hw.put_new hc hfind hslot value unique e with ⟨hg, hcap, _, hput, -⟩ | ⟨hno, t, hput, hb⟩
    · obtain rfl := hret hput
      rw [if_neg (Nat.not_lt.2 (h.limit_iff.1 ⟨hg, hcap⟩))]
      exact hw.becomes
    · obtain rfl := hret hput
      rw [h.limit_iff, Nat.not_le] at hno
      rw [if_pos hno]
      exact hb
  | some p =>
    obtain ⟨⟨_, hkeep, -⟩, t, hput, hb⟩ := hw.put_old hc hfind value e
    simp only [HCall.denote, hfind]
    cases unique with
    | true =>
      obtain rfl := hret hkeep
      exact hw.becomes
    | false =>
      obtain rfl := hret hput
      exact hb

theorem Sized.remove_denotes (h : ht.Sized) (hw : ht.WellFormed) (hc : ht.Callbacks) (key : K) (e : ErrState) :
    ∃ r ht' l, htableRemove ht (some key) e = some ((r, ht', l), e) ∧ ht.Becomes ht' (OMap.erase ht.eqv ht.live key) := by
  obtain ⟨ht', hrem, hb⟩ := hw.remove_spec hc (fun _ hs => shrink_room h.sound.factor hs) e
  exact ⟨_, ht', _, hrem, hb⟩

/-- One step. -/
theorem Sized.exec_denotes (h : ht.Sized) (hw : ht.WellFormed) (hc : ht.Callbacks) {c : HCall K V} {e e' : ErrState}
    (hexec : c.exec ht e = some (ht', e')) : ht.Becomes ht' (c.denote ht.eqv ht.live) := by
  obtain ⟨hput, ⟨e₁, hrem⟩, ⟨e₂, hlook⟩⟩ := exec_null ht e
  match c with
  | .put none value unique =>
    obtain ⟨e₀, hp⟩ := hput value unique
    cases hp.symm.trans hexec
    exact hw.becomes
  | .put (some key) value unique => exact h.put_denotes hw hc hexec
  | .remove none =>
    cases hrem.symm.trans hexec
    exact hw.becomes
  | .remove (some key) =>
    obtain ⟨r, t, l, hrun, hb⟩ := h.remove_denotes hw hc key e
    simp only [HCall.exec, ErrM.bind_run, hrun, Option.bind_some, ErrM.pure_run] at hexec
    cases hexec
    exact hb
  | .clear shrink =>
    cases hexec
    exact (hw.clear_spec shrink).2
  | .lookup none =>
    cases hlook.symm.trans hexec
    exact hw.becomes
  | .lookup (some key) =>
    obtain ⟨e₀, hl⟩ := h.sound.exec_lookup key e
    cases hl.symm.trans hexec
    exact hw.becomes

theorem Sized.run_denotes (h : ht.Sized) (hw : ht.WellFormed) (hc : ht.Callbacks) {cs : List (HCall K V)}
    {e e' : ErrState} (hrun : ht.run cs e = some (ht', e')) :
    ht'.Sized ∧ ht.Becomes ht' (cs.foldl (HCall.denote ht.eqv) ht.live) := by
  induction cs generalizing ht e with
  | nil =>
    cases hrun
    exact ⟨h, hw.becomes⟩
  | cons c cs ih =>
    obtain ⟨⟨ht₁, e₁⟩, hexec, hrest⟩ := Option.bind_eq_some_iff.1 hrun
    have hb := h.exec_denotes hw hc hexec
    obtain ⟨h', hb'⟩ := ih (h.exec hexec) hb.wf (hb.config.callbacks hc) hrest
    refine ⟨h', hb'.wf, hb.config.trans hb'.config, ?_⟩
    rw [hb'.live, hb.config.eqv_eq, hb.live, List.foldl_cons]

theorem fresh_wellFormed {capacity : Int} (hcap : Accepted capacity) (keyLen : Nat) (removeEntry : Bool)
    (keyEquals : K → K → Nat → Bool) (hashcode : K → Nat → UInt64) :
    (freshTable (V := V) (roundCapacity capacity.toNat) keyLen removeEntry keyEquals hashcode).WellFormed :=
  .of_empty (fresh_sized hcap keyLen removeEntry keyEquals hashcode).toShape rfl

/-- Every run of a new table that returns leaves the map of its calls, and from there on every operation does to the map
what the operation of its kind does. -/
theorem htable_denotes {capacity : Int} (hcap : Accepted capacity) {keyLen : Nat} (removeEntry : Bool)
    {keyEquals : K → K → Nat → Bool} {hashcode : K → Nat → UInt64}
    (hequiv : OMap.IsEquiv fun a b => keyEquals a b keyLen)
    (hhash : ∀ {a b}, keyEquals a b keyLen = true → hashcode a keyLen = hashcode b keyLen) (e : ErrState) :
    ∃ ht : HTable K V, htable capacity keyLen removeEntry keyEquals hashcode e = some (some ht, e) ∧
      ∀ cs ht' e', ht.run cs e = some (ht', e') →
        ht'.live = cs.foldl (HCall.denote fun a b => keyEquals a b keyLen) [] ∧
        iterLoop ht' (ht'.countUsed + 1) 0 = ht'.live ∧ ht'.Implements e' := by
  refine ⟨_, htable_run hcap keyLen removeEntry keyEquals hashcode e, ?_⟩
  intro cs ht' e' hrun
  set ht : HTable K V := freshTable (roundCapacity capacity.toNat) keyLen removeEntry keyEquals hashcode
  have hc : ht.Callbacks := ⟨hequiv, hhash⟩
  obtain ⟨-, hb⟩ := (fresh_sized hcap keyLen removeEntry keyEquals hashcode).run_denotes
    (fresh_wellFormed hcap keyLen removeEntry keyEquals hashcode) hc hrun
  exact ⟨hb.live, iter_spec ht', hb.wf.implements (hb.config.callbacks hc) e'⟩

theorem htable_denotes_eight : ∃ ht : HTable Nat Nat,
    htable 0 0 false natEquals natHashcode .zero = some (some ht, .zero) ∧
      ∀ cs ht' e', ht.run cs .zero = some (ht', e') →
        ht'.live = cs.foldl (HCall.denote fun a b => natEquals a b 0) [] ∧
        iterLoop ht' (ht'.countUsed + 1) 0 = ht'.live ∧ ht'.Implements e' :=
  htable_denotes (show Accepted 0 from Nat.le_of_ble_eq_true rfl) false OMap.IsEquiv.beq
    (fun h => by rw [beq_iff_eq.1 h]) .zero

end HTable
end Pcl

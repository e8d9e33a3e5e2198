import Pcl.Htable.Refine

/-!
# The operations of a table are those of its map

For every error state, what each exported operation of a well-formed table returns, which map the new
table denotes, and that keys and iteration list the map. The shrinking rehash needs room for the live
entries: a `min_loadfac` above one half can ask for one that has none (`remove_overflows`).
-/

namespace Pcl

open HTable Shape

variable {K V : Type}

namespace HTable

/-- A put of `key` has a place to insert at: the key is present, the table grows or has a slot left. -/
def HasSlot (ht : HTable K V) (key : K) : Prop :=
  (OMap.find ht.eqv ht.live key).isSome ∨ ht.growsOnPut ∨ ht.countUsed < ht.capacity

/-- A table that shrinks on removing `key` has room for the entries that stay. -/
def HasRoom (ht : HTable K V) (key : K) : Prop :=
  (OMap.find ht.eqv ht.live key).isSome → ht.shrinksOnRemove (ht.count - 1) →
    ht.count - 1 ≤ ht.resized false

namespace WellFormed
variable {ht ht' : HTable K V}

theorem count_eq_live (h : ht.WellFormed) : ht.count = ht.live.length := h.live_length.symm

/-- Every new key is appended, unless a full table of the largest capacity cannot grow. -/
theorem put_new (h : ht.WellFormed) (hc : ht.Callbacks) {key : K}
    (hnew : OMap.find ht.eqv ht.live key = none) (hslot : ht.HasSlot key) (value : Option V) (unique : Bool)
    (e : ErrState) :
    (ht.growsOnPut ∧ ht.capacity = maxTblSize ∧
      ∃ e', htablePut ht (some key) value unique e = some ((-1, ht, []), e') ∧ e'.err = eRange) ∨
    (¬ (ht.growsOnPut ∧ ht.capacity = maxTblSize) ∧
      ∃ ht', htablePut ht (some key) value unique e = some ((0, ht', []), e.thawed) ∧
        ht.Becomes ht' (ht.live ++ [(key, value)])) := by
  have hw : ht.walkChain key = some none := by
    rcases h.find hc key with ⟨hw, -⟩ | ⟨_, _, _, _, _, _, _, hf⟩
    · exact hw
    · rw [hnew] at hf
      cases hf
  by_cases hg : ht.growsOnPut
  · by_cases hcap : ht.capacity = maxTblSize
    · exact .inl ⟨hg, hcap, put_limit hw hg hcap value unique e⟩
    · obtain ⟨ht', hput, hs, hcores, -, -, hcfg⟩ := h.put_grow hw hg hcap value unique e
      exact .inr ⟨fun hl => hcap hl.2, ht', hput, h.append hnew hs hcfg hcores⟩
  · have hroom : ht.countUsed < ht.capacity := by
      rcases hslot with hs | hs | hs
      · rw [hnew] at hs
        cases hs
      · exact absurd hs hg
      · exact hs
    obtain ⟨ht', hput, hs, hcores, -, -, hcfg⟩ := h.put_add hw hg hroom value unique e
    exact .inr ⟨fun hl => hg hl.1, ht', hput, h.append hnew hs hcfg hcores⟩

/-- A present key is kept by a unique put, and replaced in its place by any other. -/
theorem put_old (h : ht.WellFormed) (hc : ht.Callbacks) {key : K} {p : K × Option V}
    (hold : OMap.find ht.eqv ht.live key = some p) (value : Option V) (e : ErrState) :
    (∃ e', htablePut ht (some key) value true e = some ((-1, ht, []), e') ∧ e'.err = eExist) ∧
    ∃ ht', htablePut ht (some key) value false e = some ((0, ht', ht.removed [p]), e.thawed) ∧
      ht.Becomes ht' (OMap.replace ht.eqv ht.live key value) := by
  rcases h.find hc key with ⟨-, hf⟩ | ⟨prev, i, ent, k, hw, hk, hpair, hf⟩
  · rw [hold] at hf
    cases hf
  · rw [hold] at hf
    cases hf
    refine ⟨⟨_, htablePut_present hw value true e, raised_err _ _ _ _ _ rfl⟩, ?_⟩
    refine ⟨(replaceEntry ht i key value).1, ?_, h.replace hc hw value⟩
    rw [htablePut_present hw]
    have hrem : ht.entries[i]?.bind (fun e => e.key.map (·, e.value)) = some (k, ent.value) := hpair
    show some ((0, (replaceEntry ht i key value).1, ht.removed (Option.toList _)), e.thawed) = _
    rw [hrem]
    rfl

theorem remove_spec (h : ht.WellFormed) (hc : ht.Callbacks) {key : K} (hroom : ht.HasRoom key) (e : ErrState) :
    ∃ ht', htableRemove ht (some key) e =
        some (((ht'.live.length : Int), ht', ht.removed (OMap.find ht.eqv ht.live key).toList), e) ∧
      ht.Becomes ht' (OMap.erase ht.eqv ht.live key) := by
  rcases h.find hc key with ⟨hw, hf⟩ | ⟨prev, i, ent, k, hw, hk, hpair, hf⟩
  · refine ⟨ht, ?_, ⟨h, SameConfig.refl ht, ?_⟩⟩
    · rw [htableRemove_absent hw, hf, h.count_eq_live]
      unfold removed
      split <;> rfl
    · refine (List.filter_eq_self.2 ?_).symm
      intro p hp
      rw [OMap.find_eq_none.1 hf p hp]
      rfl
  · obtain ⟨ht', hrem, hs, hcores, -, hcfg⟩ := h.remove hw (hroom (by rw [hf]; rfl)) e
    have hun := h.unlinked hc hw
    have hcfg' : (ht.unlinked key prev i ent).SameConfig ht' :=
      ⟨hcfg.keyLen.trans hun.config.keyLen.symm, hcfg.minLoadfac.trans hun.config.minLoadfac.symm,
        hcfg.maxLoadfac.trans hun.config.maxLoadfac.symm, hcfg.removeEntry.trans hun.config.removeEntry.symm,
        hcfg.keyEquals.trans hun.config.keyEquals.symm, hcfg.hashcode.trans hun.config.hashcode.symm⟩
    have hb := hun.wf.of_cores hs hcfg' hcores
    have hlen : ht'.live.length = ht.count - 1 := by
      obtain ⟨-, -, hcount⟩ := unlinked_eq ht key prev i ent
      rw [hb.live, ← hcount, hun.wf.count_eq_live]
    refine ⟨ht', ?_, ⟨hb.wf, hcfg, hb.live.trans hun.live⟩⟩
    rw [hrem, hk, hf, hlen]
    rfl

theorem lookup_spec (h : ht.WellFormed) (hc : ht.Callbacks) (key : K) (e : ErrState) :
    match OMap.find ht.eqv ht.live key with
    | some p => ∃ i, htableLookup ht (some key) e = some (some i, e) ∧ pairAt ht.entries i = some p
    | none => ∃ e', htableLookup ht (some key) e = some (none, e') ∧ (e.frozen = false → e'.err = eNotfound) := by
  rcases h.find hc key with ⟨hw, hf⟩ | ⟨prev, i, ent, k, hw, hk, hpair, hf⟩
  · rw [hf]
    refine ⟨_, htableLookup_absent hw e, ?_⟩
    intro he
    rw [traced_err, raised_err _ _ _ _ _ he]
  · rw [hf]
    exact ⟨i, htableLookup_found hw e, hpair⟩

theorem get_spec (h : ht.WellFormed) (hc : ht.Callbacks) (key : K) (e : ErrState) :
    ∃ e', htableGet ht (some key) e = some ((OMap.find ht.eqv ht.live key).bind Prod.snd, e') ∧
      (e.frozen = false →
        e'.err = if (OMap.find ht.eqv ht.live key).isSome then eOkay else eNotfound) := by
  rcases h.find hc key with ⟨hw, hf⟩ | ⟨prev, i, ent, k, hw, hk, hpair, hf⟩
  · obtain ⟨e', hget, herr⟩ := htableGet_absent hw e
    rw [hf]
    exact ⟨e', hget, herr⟩
  · obtain ⟨-, hi, -⟩ := (h.walkChain_some hw).liveAt
    refine ⟨e.cleared, ?_, ?_⟩
    · rw [htableGet_found hw hi, hf]
      rfl
    · intro he
      rw [hf]
      simp [ErrState.cleared, he]

theorem clear_spec (h : ht.WellFormed) (shrink : Bool) :
    (htableClear ht shrink).2 = ht.removed ht.live ∧ ht.Becomes (htableClear ht shrink).1 [] := by
  obtain ⟨hs, hcores, hcfg⟩ := h.clear shrink
  have hlive : (htableClear ht shrink).1.live = [] := by
    rw [live_eq, hcores]
    rfl
  refine ⟨rfl, ⟨hs, ?_, ?_⟩, hcfg, hlive⟩
  · rw [hcores]
    intro c hcm
    cases hcm
  · rw [hlive]
    exact List.Pairwise.nil

theorem rehash_spec (h : ht.WellFormed) {grow : Bool} (hcap : ht.resized grow ≤ maxTblSize)
    (hroom : ht.count ≤ ht.resized grow) (e : ErrState) :
    ∃ ht', ipclHtableRehash ht grow e = some ((0, ht'), e) ∧ ht.Becomes ht' ht.live := by
  obtain ⟨ht', hre, hs, hcores, -, -, hcfg⟩ := h.rehash hcap hroom e
  exact ⟨ht', hre, h.of_cores hs hcfg hcores⟩

end WellFormed

/-! ### Keys and iteration -/

variable {ht : HTable K V}

theorem keys_spec (h : ht.Shape) : htableKeys ht = ht.live.map Prod.fst := by
  have hkeys : (List.range ht.countUsed).filterMap (fun i => ht.entries[i]?.bind Entry.key) =
      ht.live.map Prod.fst := by
    unfold live
    rw [List.map_filterMap]
    refine List.filterMap_congr fun i _ => ?_
    unfold pairAt
    cases ht.entries[i]? with
    | none => rfl
    | some e => cases hk : e.key <;> simp [hk]
  unfold htableKeys
  by_cases h0 : ht.count = 0
  · have hnil : ht.live = [] := List.eq_nil_of_length_eq_zero (by rw [h.live_length, h0])
    rw [if_neg (by simpa using h0), hnil]
    rfl
  · rw [if_pos h0, hkeys]

theorem isSome_key (es : Array (Entry K V)) (i : Nat) :
    (es[i]?.bind Entry.key).isSome = (pairAt es i).isSome := by
  unfold pairAt
  cases es[i]? with
  | none => rfl
  | some e => simp

/-- The loop from index `i` visits the live entries from there on. -/
theorem iterLoop_eq (n i : Nat) (hn : ht.countUsed - i < n) :
    iterLoop ht n i = (List.range' i (ht.countUsed - i)).filterMap (pairAt ht.entries) := by
  induction n generalizing i with
  | zero => omega
  | succ n ih =>
    unfold iterLoop htableIter
    by_cases hi : (i : Int) < 0 ∨ (i : Int) ≥ ht.countUsed
    · have h0 : ht.countUsed - i = 0 := by omega
      rw [if_pos hi, h0]
      rfl
    · rw [if_neg hi, Int.toNat_natCast]
      simp only [isSome_key]
      cases hf : (List.range' i (ht.countUsed - i)).find? fun j => (pairAt ht.entries j).isSome with
      | none =>
        refine (List.filterMap_eq_nil_iff.2 ?_).symm
        intro j hj
        simpa using List.find?_eq_none.1 hf j hj
      | some j =>
        obtain ⟨hlive, hj, hbefore⟩ := List.find?_range'_eq_some.1 hf
        obtain ⟨p, hp⟩ := Option.isSome_iff_exists.1 hlive
        rw [List.mem_range'_1] at hj
        -- the slots before `j` are deleted, those behind it are left to the next turn
        have hnil : (List.range' i (j - i)).filterMap (pairAt ht.entries) = [] := by
          refine List.filterMap_eq_nil_iff.2 ?_
          intro x hx
          rw [List.mem_range'_1] at hx
          simpa using hbefore x hx.1 (by omega)
        have hsplit : List.range' i (ht.countUsed - i) =
            List.range' i (j - i) ++ j :: List.range' (j + 1) (ht.countUsed - (j + 1)) := by
          have hlen : ht.countUsed - i = (j - i) + (ht.countUsed - (j + 1) + 1) := by omega
          rw [hlen, ← List.range'_append_1, show i + (j - i) = j by omega, List.range'_succ]
        rw [hsplit, List.filterMap_append, hnil, List.filterMap_cons_some hp, ← ih (j + 1) (by omega)]
        show (pairAt ht.entries j).toList ++ iterLoop ht n ((j : Int) + 1) = _
        rw [hp]
        rfl

theorem iter_spec (ht : HTable K V) : iterLoop ht (ht.countUsed + 1) 0 = ht.live := by
  have h : iterLoop ht (ht.countUsed + 1) (0 : Nat) = _ := iterLoop_eq (ht.countUsed + 1) 0 (by omega)
  rw [Nat.sub_zero] at h
  unfold live
  rw [List.range_eq_range']
  exact h

/-! ### The refinement -/

/-- Every operation of the table does to the map `live` what the operation of its kind does. -/
structure Implements (ht : HTable K V) (e : ErrState) : Prop where
  put_new : ∀ key value unique, OMap.find ht.eqv ht.live key = none → ht.HasSlot key →
    ¬ (ht.growsOnPut ∧ ht.capacity = maxTblSize) →
    ∃ ht', htablePut ht (some key) value unique e = some ((0, ht', []), e.thawed) ∧
      ht.Becomes ht' (ht.live ++ [(key, value)])
  put_limit : ∀ key value unique, OMap.find ht.eqv ht.live key = none →
    ht.growsOnPut ∧ ht.capacity = maxTblSize →
    ∃ e', htablePut ht (some key) value unique e = some ((-1, ht, []), e') ∧ e'.err = eRange
  put_replace : ∀ key value p, OMap.find ht.eqv ht.live key = some p →
    ∃ ht', htablePut ht (some key) value false e = some ((0, ht', ht.removed [p]), e.thawed) ∧
      ht.Becomes ht' (OMap.replace ht.eqv ht.live key value)
  put_unique : ∀ key value p, OMap.find ht.eqv ht.live key = some p →
    ∃ e', htablePut ht (some key) value true e = some ((-1, ht, []), e') ∧ e'.err = eExist
  remove : ∀ key, ht.HasRoom key →
    ∃ ht', htableRemove ht (some key) e =
        some (((ht'.live.length : Int), ht', ht.removed (OMap.find ht.eqv ht.live key).toList), e) ∧
      ht.Becomes ht' (OMap.erase ht.eqv ht.live key)
  room : 2 * ht.minLoadfac.num ≤ 2 ^ ht.minLoadfac.shift → ∀ key, ht.HasRoom key
  lookup : ∀ key, match OMap.find ht.eqv ht.live key with
    | some p => ∃ i, htableLookup ht (some key) e = some (some i, e) ∧ pairAt ht.entries i = some p
    | none => ∃ e', htableLookup ht (some key) e = some (none, e') ∧ (e.frozen = false → e'.err = eNotfound)
  get : ∀ key, ∃ e', htableGet ht (some key) e = some ((OMap.find ht.eqv ht.live key).bind Prod.snd, e') ∧
    (e.frozen = false → e'.err = if (OMap.find ht.eqv ht.live key).isSome then eOkay else eNotfound)
  clear : ∀ shrink, (htableClear ht shrink).2 = ht.removed ht.live ∧ ht.Becomes (htableClear ht shrink).1 []
  rehash : ∀ grow, ht.resized grow ≤ maxTblSize → ht.count ≤ ht.resized grow →
    ∃ ht', ipclHtableRehash ht grow e = some ((0, ht'), e) ∧ ht.Becomes ht' ht.live
  keys : htableKeys ht = ht.live.map Prod.fst
  iter : iterLoop ht (ht.countUsed + 1) 0 = ht.live

theorem WellFormed.implements (h : ht.WellFormed) (hc : ht.Callbacks) (e : ErrState) : ht.Implements e where
  put_new key value unique hnew hslot hcap := by
    rcases h.put_new hc hnew hslot value unique e with ⟨hg, hl, -⟩ | ⟨-, hput⟩
    · exact absurd ⟨hg, hl⟩ hcap
    · exact hput
  put_limit key value unique hnew hl := by
    rcases h.put_new hc hnew (.inr (.inl hl.1)) value unique e with ⟨-, -, hput⟩ | ⟨hcap, -⟩
    · exact hput
    · exact absurd hl hcap
  put_replace key value p hold := (h.put_old hc hold value e).2
  put_unique key value p hold := (h.put_old hc hold value e).1
  remove key hroom := h.remove_spec hc hroom e
  room hf key _ hs := shrink_room hf hs
  lookup key := h.lookup_spec hc key e
  get key := h.get_spec hc key e
  clear shrink := h.clear_spec shrink
  rehash grow hcap hroom := h.rehash_spec hcap hroom e
  keys := keys_spec h.toShape
  iter := iter_spec ht

/-! ### New tables -/

theorem fresh_shape {c : Nat} (hc : ∃ k ≤ 30, c = 2 ^ k) (keyLen : Nat) (removeEntry : Bool)
    (keyEquals : K → K → Nat → Bool) (hashcode : K → Nat → UInt64) :
    (freshTable (V := V) c keyLen removeEntry keyEquals hashcode).Shape ∧
      (freshTable (V := V) c keyLen removeEntry keyEquals hashcode).cores = [] :=
  Shape.init c hc rfl rfl rfl rfl rfl rfl

theorem WellFormed.of_empty (h : ht.Shape) (hcores : ht.cores = []) : ht.WellFormed := by
  refine ⟨h, ?_, ?_⟩
  · rw [hcores]
    intro c hc
    cases hc
  · rw [live_eq, hcores]
    exact List.Pairwise.nil

/-- `key_equals` for keys that are numbers. -/
def natEquals (a b _keyLen : Nat) : Bool := a == b

/-- `hashcode` for keys that are numbers. -/
def natHashcode (a _keyLen : Nat) : UInt64 := UInt64.ofNat a

/-- A table keyed by numbers. -/
def numbers (factor : LoadFac) : HTable Nat Nat :=
  { freshTable 16 0 false natEquals natHashcode with minLoadfac := factor }

theorem numbers_callbacks (factor : LoadFac) : (numbers factor).Callbacks := by
  refine ⟨OMap.IsEquiv.beq, ?_⟩
  intro a b hab
  have hab' : (a == b) = true := hab
  rw [eq_of_beq hab']

theorem numbers_wellFormed (factor : LoadFac) : (numbers factor).WellFormed := by
  obtain ⟨hs, hcores⟩ : (numbers factor).Shape ∧ (numbers factor).cores = [] :=
    Shape.init 16 ⟨4, by decide, rfl⟩ rfl rfl rfl rfl rfl rfl
  exact .of_empty hs hcores

theorem numbers_implements : (numbers Pcl.minLoadfac).Implements ErrState.zero :=
  (numbers_wellFormed _).implements (numbers_callbacks _) _

/-- Below the load factor the first `n` numbers fit without a rehash. -/
theorem numbers_filled (factor : LoadFac) (n : Nat) (hn : n ≤ 12) : ∃ ht : HTable Nat Nat,
    ht.WellFormed ∧ (numbers factor).SameConfig ht ∧ ht.capacity = 16 ∧ ht.countUsed = n ∧
      ht.live = (List.range n).map fun i => (i, some i) := by
  induction n with
  | zero =>
    exact ⟨numbers factor, numbers_wellFormed factor, SameConfig.refl _, rfl, rfl, rfl⟩
  | succ n ih =>
    obtain ⟨ht, h, hcfg, hcap, hused, hlive⟩ := ih (by omega)
    have hcount : ht.count = n := by
      rw [h.count_eq_live, hlive, List.length_map, List.length_range]
    have hnew : OMap.find ht.eqv ht.live n = none := by
      refine OMap.find_eq_none.2 ?_
      rw [hlive]
      intro p hp
      obtain ⟨i, hi, rfl⟩ := List.mem_map.1 hp
      rw [hcfg.eqv_eq]
      exact beq_false_of_ne (Nat.ne_of_lt (List.mem_range.1 hi))
    have hw : ht.walkChain n = some none := by
      rcases h.find (hcfg.callbacks (numbers_callbacks factor)) n with ⟨hw, -⟩ | ⟨_, _, _, _, _, _, _, hf⟩
      · exact hw
      · rw [hnew] at hf
        cases hf
    have hg : ¬ ht.growsOnPut := by
      unfold growsOnPut
      rw [hcfg.maxLoadfac, hcap, hcount]
      show ¬ n ≥ Pcl.maxLoadfac.threshold 16
      rw [maxLoadfac_threshold]
      omega
    obtain ⟨ht', -, hs, hcores, hcap', hused', hcfg'⟩ :=
      h.put_add hw hg (by omega) (some n) false ErrState.zero
    have hb := h.append hnew hs hcfg' hcores
    refine ⟨ht', hb.wf, hcfg.trans hcfg', by rw [hcap', hcap], by rw [hused', hused], ?_⟩
    rw [hb.live, hlive, List.range_succ, List.map_append]
    rfl

/-- With `min_loadfac` one, twelve entries at capacity 16 shrink to a table of eight. -/
theorem remove_overflows : ∃ ht : HTable Nat Nat, ht.WellFormed ∧ ht.Callbacks ∧
    htableRemove ht (some 0) ErrState.zero = none := by
  obtain ⟨ht, h, hcfg, hcap, -, hlive⟩ := numbers_filled ⟨1, 0, by decide⟩ 12 (by decide)
  have hc := hcfg.callbacks (numbers_callbacks _)
  have hcount : ht.count = 12 := by
    rw [h.count_eq_live, hlive, List.length_map, List.length_range]
  refine ⟨ht, h, hc, ?_⟩
  rcases h.find hc 0 with ⟨-, hf⟩ | ⟨prev, i, ent, k, hw, -⟩
  · have h0 := OMap.find_eq_none.1 hf (0, some 0) (by rw [hlive]; decide)
    rw [hcfg.eqv_eq] at h0
    exact absurd h0 (by decide)
  · refine h.remove_overflow hw ?_ ?_ ErrState.zero
    · unfold shrinksOnRemove
      rw [hcap, hcount, hcfg.minLoadfac]
      decide
    · unfold resized
      rw [hcap, hcount]
      decide

end HTable
end Pcl

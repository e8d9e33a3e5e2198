import Pcl.Json.PathCompile

/-!
# The walk along a path

`calls` are the walks that a walk goes on with, and `results` what a walk appends when every loop over a
slice ends: a slice whose step is not positive, or whose index runs out of `int`, does not (`SliceEnds`).
One step of the walk is resolved into its calls (`walk_step`, `walk_step_defined`).
-/

namespace Pcl

variable {R : Type}

/-! ### What a node selects -/

/-- The element at an index of an array. -/
def elementAt {α : Type} (l : List α) (i : Int) : Option α := if i < 0 then none else l[i.toNat]?

/-- The indexes below `stop` that a loop with a positive step runs through, `n` of them at most. -/
def sliceIndexes (stop step : Int) : Nat → Int → List Int
  | 0, _ => []
  | n + 1, i => if i < stop then i :: sliceIndexes stop step n (i + step) else []

/-- The loop over a slice ends: it has nothing to do, or its step is positive and its index stays an `int`. -/
def SliceEnds (start stop step : Int) : Prop :=
  stop ≤ start ∨ 0 < step ∧ stop + (start - stop) % step ≤ intMax

instance (start stop step : Int) : Decidable (SliceEnds start stop step) := by unfold SliceEnds; infer_instance

/-- A wildcard stands on a value of another kind. -/
def Mismatch : PathNode → Json R → Prop
  | .wildcardMember, .obj _ => False
  | .wildcardMember, _ => True
  | .wildcardElement, .arr _ => False
  | .wildcardElement, _ => True
  | _, _ => False

instance (node : PathNode) (v : Json R) : Decidable (Mismatch node v) := by
  cases node <;> cases v <;> unfold Mismatch <;> infer_instance

/-- The values that a node selects, a recursive descent apart. -/
def selects : PathNode → Json R → List (Json R)
  | .root, v => [v]
  | .member name, .obj m => ((OMap.find Json.keyEq m name).map Prod.snd).toList
  | .wildcardMember, .obj m => m.map Prod.snd
  | .element index, .arr l => (elementAt l index).toList
  | .wildcardElement, .arr l => l
  | .elementList idxList, .arr l => idxList.filterMap (elementAt l)
  | .elementSlice start stop step, .arr l =>
    let start := sliceStart start l.length
    let stop := sliceStop stop l.length
    (sliceIndexes stop step (stop - start).toNat start).filterMap (elementAt l)
  | _, _ => []

/-- Where a recursive descent goes on for one entry. -/
def descend (next : List PathNode) (v : Json R) (hit : PathNode) (elem : Json R) : List PathNode × Json R :=
  if next.head? = some hit then (next, v) else (.recursiveDescent :: next, elem)

/-- The walks that a walk goes on with. -/
def calls (node : PathNode) (next : List PathNode) (v : Json R) : List (List PathNode × Json R) :=
  match node, v with
  | .recursiveDescent, .obj m => m.map fun ent => descend next v (.member ent.1) ent.2
  | .recursiveDescent, .arr l => l.zipIdx.map fun p => descend next v (.element p.2) p.1
  | .recursiveDescent, _ => []
  | node, v => (selects node v).map (next, ·)

/-- The loop over a slice at the head of the path ends. -/
def SliceOk : List PathNode → Json R → Prop
  | .elementSlice start stop step :: _, .arr l =>
    SliceEnds (sliceStart start l.length) (sliceStop stop l.length) step
  | _, _ => True

/-- A walk along the path visits a value with the rest of the path. -/
inductive Visits : List PathNode → Json R → List PathNode → Json R → Prop
  | refl (path : List PathNode) (v : Json R) : Visits path v path v
  | step {node : PathNode} {next path path' : List PathNode} {v u w : Json R} (h : (path, u) ∈ calls node next v)
      (hv : Visits path u path' w) : Visits (node :: next) v path' w

/-- All slices that a walk visits end. -/
def SlicesOk (path : List PathNode) (v : Json R) : Prop := ∀ path' u, Visits path v path' u → SliceOk path' u

theorem elementAt_mem {α : Type} {l : List α} {i : Int} {a : α} (h : elementAt l i = some a) : a ∈ l := by
  unfold elementAt at h
  split at h
  · cases h
  · exact List.mem_of_getElem? h

theorem sizeOf_member {m : List (CStr × Json R)} {p : CStr × Json R} (hp : p ∈ m) :
    sizeOf p.2 < sizeOf (Json.obj m) := by
  have h := List.sizeOf_lt_of_mem hp
  obtain ⟨k, v⟩ := p
  simp only [Prod.mk.sizeOf_spec] at h
  simp only [Json.obj.sizeOf_spec]
  omega

theorem sizeOf_element {l : List (Json R)} {v : Json R} (hv : v ∈ l) : sizeOf v < sizeOf (Json.arr l) := by
  have h := List.sizeOf_lt_of_mem hv
  simp only [Json.arr.sizeOf_spec]
  omega

/-- Only the root selects the value itself. -/
theorem selects_lt {node : PathNode} {v u : Json R} (h : u ∈ selects node v) :
    node = .root ∧ u = v ∨ sizeOf u < sizeOf v := by
  cases node with
  | root => exact .inl ⟨rfl, List.mem_singleton.1 h⟩
  | member name =>
    cases v with
    | obj m =>
      refine .inr ?_
      obtain ⟨p, hp, rfl⟩ := Option.map_eq_some_iff.1 (Option.mem_toList.1 h)
      exact sizeOf_member (OMap.find_mem hp).1
    | _ => cases h
  | recursiveDescent => cases v <;> cases h
  | wildcardMember =>
    cases v with
    | obj m =>
      obtain ⟨p, hp, rfl⟩ := List.mem_map.1 h
      exact .inr (sizeOf_member hp)
    | _ => cases h
  | element index =>
    cases v with
    | arr l => exact .inr (sizeOf_element (elementAt_mem (Option.mem_toList.1 h)))
    | _ => cases h
  | wildcardElement =>
    cases v with
    | arr l => exact .inr (sizeOf_element h)
    | _ => cases h
  | elementList idxList =>
    cases v with
    | arr l =>
      obtain ⟨i, -, hi⟩ := List.mem_filterMap.1 h
      exact .inr (sizeOf_element (elementAt_mem hi))
    | _ => cases h
  | elementSlice start stop step =>
    cases v with
    | arr l =>
      obtain ⟨i, -, hi⟩ := List.mem_filterMap.1 h
      exact .inr (sizeOf_element (elementAt_mem hi))
    | _ => cases h

/-- A walk goes on with a shorter path, or with a part of the value. -/
def Below (c d : List PathNode × Json R) : Prop :=
  c.1.length < d.1.length ∨ c.1.length = d.1.length ∧ sizeOf c.2 < sizeOf d.2

theorem below_wf : WellFounded (Below (R := R)) := by
  have h : WellFounded (Prod.Lex (· < ·) (· < ·) : Nat × Nat → Nat × Nat → Prop) :=
    (Prod.lex inferInstance inferInstance).wf
  refine Subrelation.wf (fun {c d} hcd => ?_) (InvImage.wf (fun c : List PathNode × Json R => (c.1.length, sizeOf c.2)) h)
  exact Prod.lex_def.2 hcd

/-- A walk goes on behind the node, in the value or in a part of it, or with the same descent in a part of it. -/
theorem calls_cases {node : PathNode} {next : List PathNode} {v : Json R} {c : List PathNode × Json R}
    (h : c ∈ calls node next v) : c.1 = next ∧ sizeOf c.2 ≤ sizeOf v ∨
      node = .recursiveDescent ∧ c.1 = node :: next ∧ sizeOf c.2 < sizeOf v := by
  have hdescend {hit : PathNode} {elem : Json R} (hlt : sizeOf elem < sizeOf v) (hc : descend next v hit elem = c) :
      c.1 = next ∧ sizeOf c.2 ≤ sizeOf v ∨ c.1 = .recursiveDescent :: next ∧ sizeOf c.2 < sizeOf v := by
    subst hc
    unfold descend
    split
    · exact .inl ⟨rfl, Nat.le_refl _⟩
    · exact .inr ⟨rfl, hlt⟩
  have hother (h : c ∈ (selects node v).map (next, ·)) : c.1 = next ∧ sizeOf c.2 ≤ sizeOf v := by
    obtain ⟨u, hu, rfl⟩ := List.mem_map.1 h
    rcases selects_lt hu with ⟨-, rfl⟩ | hlt
    · exact ⟨rfl, Nat.le_refl _⟩
    · exact ⟨rfl, Nat.le_of_lt hlt⟩
  cases node with
  | recursiveDescent =>
    cases v with
    | obj m =>
      obtain ⟨p, hp, hc⟩ := List.mem_map.1 h
      exact (hdescend (sizeOf_member hp) hc).imp_right fun h => ⟨rfl, h⟩
    | arr l =>
      obtain ⟨p, hp, hc⟩ := List.mem_map.1 h
      exact (hdescend (sizeOf_element (List.fst_mem_of_mem_zipIdx hp)) hc).imp_right fun h => ⟨rfl, h⟩
    | _ => cases h
  | _ => exact .inl (hother h)

theorem calls_below {node : PathNode} {next : List PathNode} {v : Json R} {c : List PathNode × Json R}
    (h : c ∈ calls node next v) : Below c (node :: next, v) := by
  rcases calls_cases h with ⟨hpath, -⟩ | ⟨-, hpath, hlt⟩
  · exact .inl (hpath ▸ Nat.lt_succ_self _)
  · exact .inr ⟨congrArg List.length hpath, hlt⟩

/-- What a walk appends: a value at the end of the path, and a value a wildcard does not fit. -/
def results (path : List PathNode) (v : Json R) : List (Json R) :=
  match path with
  | [] => [v]
  | node :: next =>
    if Mismatch node v then [v] else (calls node next v).attach.flatMap fun c => results c.1.1 c.1.2
termination_by (path.length, sizeOf v)
decreasing_by exact Prod.lex_def.2 (calls_below c.2)

theorem results_nil (v : Json R) : results [] v = [v] := by rw [results]

theorem results_cons (node : PathNode) (next : List PathNode) (v : Json R) : results (node :: next) v =
    if Mismatch node v then [v] else (calls node next v).flatMap fun c => results c.1 c.2 := by
  rw [results]
  congr 1
  conv_rhs => rw [← List.attach_map_subtype_val (calls node next v), List.flatMap_map]

/-! ### Thawing -/

/-- The walk thaws the error state at this value: it looks up an element of an array. -/
def ThawsHere : List PathNode → Json R → Prop
  | .element _ :: _, .arr _ => True
  | .elementList idxList :: _, .arr _ => idxList ≠ []
  | .elementSlice start stop _ :: _, .arr l => sliceStart start l.length < sliceStop stop l.length
  | _, _ => False

/-- The walk thaws the error state. -/
def WalkThaws (path : List PathNode) (v : Json R) : Prop := ∃ path' u, Visits path v path' u ∧ ThawsHere path' u

theorem walkThaws_cons (node : PathNode) (next : List PathNode) (v : Json R) : WalkThaws (node :: next) v ↔
    ThawsHere (node :: next) v ∨ ∃ c ∈ calls node next v, WalkThaws c.1 c.2 := by
  constructor
  · rintro ⟨path', u, hv, ht⟩
    cases hv with
    | refl => exact .inl ht
    | step h hv => exact .inr ⟨_, h, _, _, hv, ht⟩
  · rintro (ht | ⟨c, hc, path', u, hv, ht⟩)
    · exact ⟨_, _, .refl _ _, ht⟩
    · exact ⟨path', u, .step hc hv, ht⟩

theorem not_walkThaws_nil (v : Json R) : ¬ WalkThaws [] v := by
  rintro ⟨path', u, hv, ht⟩
  cases hv
  exact ht

theorem slicesOk_cons {node : PathNode} {next : List PathNode} {v : Json R} : SlicesOk (node :: next) v ↔
    SliceOk (node :: next) v ∧ ∀ c ∈ calls node next v, SlicesOk c.1 c.2 := by
  constructor
  · exact fun h => ⟨h _ _ (.refl _ _), fun c hc path' u hv => h path' u (.step hc hv)⟩
  · rintro ⟨h, hc⟩ path' u hv
    cases hv with
    | refl => exact h
    | step hm hv => exact hc _ hm path' u hv

/-! ### The primitives of the walk -/

namespace ErrM

/-- The computation is defined in some error state. -/
def Defined {α : Type} (x : ErrM α) : Prop := ∃ e p, x e = some p

theorem Defined.bind {α β : Type} {x : ErrM α} {f : α → ErrM β} (h : (x >>= f).Defined) :
    x.Defined ∧ ∃ e a e', x e = some (a, e') ∧ (f a).Defined := by
  obtain ⟨e, p, h⟩ := h
  rw [ErrM.bind_run] at h
  cases hx : x e with
  | none =>
    rw [hx] at h
    cases h
  | some q =>
    obtain ⟨a, e'⟩ := q
    rw [hx, Option.bind_some] at h
    exact ⟨⟨e, _, hx⟩, e, a, e', hx, e', p, h⟩

end ErrM

open ErrM

theorem objectGet_yields (m : List (CStr × Json R)) (key : CStr) :
    (objectGet m key).Yields ((OMap.find Json.keyEq m key).map Prod.snd) False := by
  intro e
  unfold objectGet
  cases OMap.find Json.keyEq m key with
  | some p => exact ⟨e.cleared, by simp only [ErrM.bind_run, errClear_run, Option.bind_some]; rfl, .cleared e⟩
  | none =>
    refine ⟨_, ?_, ((ErrState.Moves.raised e (loc "htable_lookup.c" "ipcl_htable_lookup" 71) eNotfound 0 none).trans
      ((ErrState.Moves.traced _ (loc "htable_lookup.c" "pcl_htable_lookup" 43) none).trans
        (ErrState.Moves.traced _ (loc "htable_get.c" "pcl_htable_get" 41) none))).congr (by simp)⟩
    simp only [ErrM.bind_run, setErr_run _ _ _ (show eNotfound ≠ eOkay by decide), Option.bind_some, trc_run,
      trcNull_run]
    rfl

theorem jsonObjget_yields (m : List (CStr × Json R)) (key : CStr) :
    (jsonObjget (.obj m) key).Yields ((OMap.find Json.keyEq m key).map Prod.snd) False := by
  intro e
  obtain ⟨e₁, h₁, hm₁⟩ := objectGet_yields m key e
  unfold jsonObjget
  simp only [ErrM.bind_run, h₁, Option.bind_some]
  cases (OMap.find Json.keyEq m key).map Prod.snd with
  | some val => exact ⟨e₁, rfl, hm₁⟩
  | none =>
    by_cases h0 : e₁.err ≠ 0
    · refine ⟨_, ?_, (hm₁.trans (.traced e₁ (loc "json_objget.c" "pcl_json_objget" 47) none)).congr (by simp)⟩
      simp only [errno, ErrM.bind_run, Option.bind_some, if_pos h0, trcNull_run]
    · refine ⟨_, ?_, (hm₁.trans (.raised e₁ (loc "json_objget.c" "pcl_json_objget" 47) eNotfound 0 none)).congr
        (by simp)⟩
      simp only [errno, ErrM.bind_run, Option.bind_some, if_neg h0]
      exact setErrNull_run _ _ _ (by decide)

/-- `pcl_array_get` leaves a frozen state as it is. -/
theorem arrayGet_yields {α : Type} (l : List α) (i : Int) : (arrayGet l i).Yields (elementAt l i) False := by
  intro e
  unfold arrayGet elementAt
  by_cases hi : i < 0 ∨ i ≥ l.length
  · rw [if_pos hi]
    have hnone : (if i < 0 then none else l[i.toNat]?) = none := by
      rcases hi with hi | hi
      · exact if_pos hi
      · rw [if_neg (by omega)]
        exact List.getElem?_eq_none (by omega)
    rw [hnone]
    exact ⟨_, setErrNull_run _ _ _ (by decide), .raised _ _ _ _ _⟩
  · rw [if_neg hi, if_neg (by omega)]
    exact ⟨e.cleared, by simp only [ErrM.bind_run, errClear_run, Option.bind_some]; rfl, .cleared e⟩

section
variable {n : Nat} {next : List PathNode}

/-- The values of a walk that follows the elements of a list, and whether it thaws. -/
theorem forEach_yields {α β : Type} {f : α → ErrM (List β)} {g : α → List β} {t : α → Prop} {l : List α}
    (hf : ∀ a ∈ l, (f a).Yields (g a) (t a)) : (forEach f l).Yields (l.flatMap g) (∃ a ∈ l, t a) := by
  induction l with
  | nil => exact (Yields.pure []).congr (by simp)
  | cons a l ih =>
    have ha := hf a List.mem_cons_self
    have hl := ih fun b hb => hf b (List.mem_cons_of_mem a hb)
    have hrest := Yields.bind (f := fun rs => pure (g a ++ rs)) hl (.pure _)
    refine (Yields.bind (f := fun r => forEach f l >>= fun rs => pure (r ++ rs)) ha hrest).congr ?_
    simp

theorem forEach_map {α β γ : Type} (f : α → ErrM (List β)) (h : γ → α) (l : List γ) :
    forEach f (l.map h) = forEach (fun c => f (h c)) l := by
  induction l with
  | nil => rfl
  | cons c l ih => rw [List.map_cons, forEach, ih, forEach]

theorem Defined.forEach {α β : Type} {f : α → ErrM (List β)} {l : List α} (h : (forEach f l).Defined) :
    ∀ a ∈ l, (f a).Defined := by
  induction l with
  | nil => exact fun a ha => absurd ha List.not_mem_nil
  | cons a l ih =>
    obtain ⟨ha, _, _, _, -, hrest⟩ := Defined.bind h
    intro b hb
    rcases List.mem_cons.1 hb with rfl | hb
    · exact ha
    · exact ih hrest.bind.1 b hb

theorem followElement_yields {l : List (Json R)} {i : Int} {g : Json R → List (Json R)} {t : Json R → Prop}
    (hf : ∀ v, elementAt l i = some v → (follow (walkPath n) next v).Yields (g v) (t v)) :
    (followElement (walkPath n) next l i).Yields ((elementAt l i).toList.flatMap g) True := by
  intro e
  obtain ⟨e₁, h₁, -⟩ := arrayGet_yields l i { e with frozen := true }
  unfold followElement
  simp only [ErrM.bind_run, errFreeze_run, Option.bind_some, h₁]
  cases hv : elementAt l i with
  | none => exact ⟨_, rfl, fun _ => rfl, fun h => absurd trivial h, fun h => absurd trivial h⟩
  | some v =>
    obtain ⟨e₂, h₂, hm⟩ := hf v hv { e₁ with frozen := false }
    refine ⟨e₂, by simpa using h₂, fun _ => ?_, fun h => absurd trivial h, fun h => absurd trivial h⟩
    by_cases ht : t v
    · exact hm.thawed ht
    · exact hm.kept ht

theorem Defined.followElement {l : List (Json R)} {i : Int} {v : Json R}
    (h : (followElement (walkPath n) next l i).Defined) (hv : elementAt l i = some v) :
    (follow (walkPath n) next v).Defined := by
  obtain ⟨e, p, h⟩ := h
  obtain ⟨e₁, h₁, -⟩ := arrayGet_yields l i { e with frozen := true }
  unfold Pcl.followElement at h
  simp only [ErrM.bind_run, errFreeze_run, Option.bind_some, h₁, hv] at h
  exact ⟨_, p, h⟩

/-! ### Slices -/

variable {stop step i : Int}

theorem advance_emod (i stop step : Int) : (i + step - stop) % step = (i - stop) % step := by
  have heq : i + step - stop = i - stop + step := by omega
  rw [heq, Int.add_emod_right]

/-- A loop that ends makes its next step. -/
theorem SliceEnds.advance (h : SliceEnds i stop step) (hi : i < stop) :
    0 < step ∧ i + step ≤ intMax ∧ SliceEnds (i + step) stop step := by
  rcases h with h | ⟨hpos, hmax⟩
  · omega
  have hmod := advance_emod i stop step
  have hnonneg := Int.emod_nonneg (i - stop) (show step ≠ 0 by omega)
  refine ⟨hpos, ?_, .inr ⟨hpos, by rwa [hmod]⟩⟩
  by_cases hlast : i + step < stop
  · omega
  · have hval : (i + step - stop) % step = i + step - stop := Int.emod_eq_of_lt (by omega) (by omega)
    omega

theorem SliceEnds.of_advance (h : SliceEnds (i + step) stop step) (hi : i < stop) (hmax : i + step ≤ intMax) :
    SliceEnds i stop step := by
  have hmod := advance_emod i stop step
  by_cases hlast : i + step < stop
  · rcases h with h | ⟨hpos, h⟩
    · omega
    · exact .inr ⟨hpos, by rwa [← hmod]⟩
  · have hval : (i + step - stop) % step = i + step - stop := Int.emod_eq_of_lt (by omega) (by omega)
    exact .inr ⟨by omega, by omega⟩

theorem sliceLoop_yields {β : Type} {f : Int → ErrM (List β)} {g : Int → List β} {t : Int → Prop}
    (h : SliceEnds i stop step) (hmin : intMin ≤ i) {m : Nat} (hm : (stop - i).toNat ≤ m)
    (hn : (stop - i).toNat < n ∨ (sliceLoop f stop step n i).Defined)
    (hf : ∀ k ∈ sliceIndexes stop step m i, (f k).Yields (g k) (t k)) :
    (sliceLoop f stop step n i).Yields ((sliceIndexes stop step m i).flatMap g)
      (∃ k ∈ sliceIndexes stop step m i, t k) := by
  induction n generalizing i m with
  | zero =>
    rcases hn with hn | ⟨_, _, hn⟩
    · omega
    · cases hn
  | succ n ih =>
    by_cases hi : i < stop
    · obtain ⟨m, rfl⟩ : ∃ k, m = k + 1 := ⟨m - 1, by omega⟩
      obtain ⟨hpos, hmax, hnext⟩ := h.advance hi
      have hind : sliceIndexes stop step (m + 1) i = i :: sliceIndexes stop step m (i + step) := if_pos hi
      have hloop : sliceLoop f stop step (n + 1) i =
          f i >>= fun r => sliceLoop f stop step n (i + step) >>= fun rs => pure (r ++ rs) := by
        rw [sliceLoop, if_pos hi]
        congr 1
        funext r
        exact if_neg (by omega)
      rw [hind] at hf ⊢
      rw [hloop] at hn ⊢
      have hfuel : (stop - (i + step)).toNat < n ∨ (sliceLoop f stop step n (i + step)).Defined := by
        rcases hn with hn | hn
        · exact .inl (by omega)
        · obtain ⟨-, _, _, _, -, hrest⟩ := hn.bind
          exact .inr hrest.bind.1
      have hrest := ih hnext (by omega) (m := m) (by omega) hfuel fun k hk => hf k (List.mem_cons_of_mem i hk)
      have hpure := Yields.bind (f := fun rs => pure (g i ++ rs)) hrest (.pure _)
      refine (Yields.bind (f := fun r => sliceLoop f stop step n (i + step) >>= fun rs => pure (r ++ rs))
        (hf i List.mem_cons_self) hpure).congr ?_
      simp
    · have hind : sliceIndexes stop step m i = [] := by
        cases m with
        | zero => rfl
        | succ m => exact if_neg hi
      have hloop : sliceLoop f stop step (n + 1) i = pure [] := by rw [sliceLoop, if_neg hi]
      rw [hind, hloop]
      exact (Yields.pure []).congr (by simp)

theorem Defined.sliceLoop {β : Type} {f : Int → ErrM (List β)} (h : (sliceLoop f stop step n i).Defined) :
    SliceEnds i stop step ∧ ∀ m, ∀ k ∈ sliceIndexes stop step m i, (f k).Defined := by
  induction n generalizing i with
  | zero =>
    obtain ⟨_, _, h⟩ := h
    cases h
  | succ n ih =>
    by_cases hi : i < stop
    · rw [Pcl.sliceLoop, if_pos hi] at h
      obtain ⟨hhead, _, _, _, -, hrest⟩ := h.bind
      by_cases hrange : i + step < intMin ∨ i + step > intMax
      · rw [if_pos hrange] at hrest
        obtain ⟨_, _, h⟩ := hrest
        cases h
      · rw [if_neg hrange] at hrest
        obtain ⟨hends, hall⟩ := ih hrest.bind.1
        refine ⟨hends.of_advance hi (by omega), fun m k hk => ?_⟩
        cases m with
        | zero => cases hk
        | succ m =>
          have hind : sliceIndexes stop step (m + 1) i = i :: sliceIndexes stop step m (i + step) := if_pos hi
          rw [hind] at hk
          rcases List.mem_cons.1 hk with rfl | hk
          · exact hhead
          · exact hall m k hk
    · refine ⟨.inl (by omega), fun m k hk => ?_⟩
      cases m with
      | zero => cases hk
      | succ m =>
        have hind : sliceIndexes stop step (m + 1) i = [] := if_neg hi
        rw [hind] at hk
        cases hk

/-! ### One step of the walk -/

/-- What a loop over a slice needs of the fuel. -/
def sliceFuel : List PathNode → Json R → Nat
  | .elementSlice start stop _ :: _, .arr l => (sliceStop stop l.length - sliceStart start l.length).toNat
  | _, _ => 0

theorem flatMap_filterMap {α β γ : Type} (f : α → Option β) (g : β → List γ) (l : List α) :
    (l.filterMap f).flatMap g = l.flatMap fun a => (f a).toList.flatMap g := by
  induction l with
  | nil => rfl
  | cons a l ih =>
    rw [List.filterMap_cons, List.flatMap_cons]
    cases f a with
    | none => simpa using ih
    | some b => simp [ih]

theorem exists_mem_map {α β : Type} {f : α → β} {l : List α} {p : β → Prop} :
    (∃ b ∈ l.map f, p b) ↔ ∃ a ∈ l, p (f a) := by
  constructor
  · rintro ⟨b, hb, hp⟩
    obtain ⟨a, ha, rfl⟩ := List.mem_map.1 hb
    exact ⟨a, ha, hp⟩
  · rintro ⟨a, ha, hp⟩
    exact ⟨f a, List.mem_map_of_mem ha, hp⟩

theorem sliceIndexes_ne_nil : sliceIndexes stop step (stop - i).toNat i ≠ [] ↔ i < stop := by
  constructor
  · intro hne
    by_contra hno
    have h0 : (stop - i).toNat = 0 := by omega
    rw [h0] at hne
    exact hne rfl
  · intro hlt
    obtain ⟨m, hm⟩ : ∃ m, (stop - i).toNat = m + 1 := ⟨(stop - i).toNat - 1, by omega⟩
    rw [hm, sliceIndexes, if_pos hlt]
    exact List.cons_ne_nil _ _

/-- Every element that is looked up thaws, so a walk over indexes thaws as soon as there is one. -/
theorem indexes_thaw {idxs : List Int} {l : List (Json R)} {t : Json R → Prop} {any : Prop} (hany : idxs ≠ [] ↔ any) :
    (∃ i ∈ idxs, True) ↔ any ∨ ∃ u ∈ idxs.filterMap (elementAt l), t u := by
  rw [← hany]
  constructor
  · rintro ⟨i, hi, -⟩
    exact .inl (List.ne_nil_of_mem hi)
  · rintro (hne | ⟨u, hu, -⟩)
    · obtain ⟨i, hi⟩ := List.exists_mem_of_ne_nil idxs hne
      exact ⟨i, hi, trivial⟩
    · obtain ⟨i, hi, -⟩ := List.mem_filterMap.1 hu
      exact ⟨i, hi, trivial⟩

/-- The first index of a slice is an `int`. -/
theorem PathOk.sliceStart_ge {start stop step : Int} (hok : PathOk (.elementSlice start stop step :: next)) (count : Nat) :
    intMin ≤ sliceStart start count := by
  have hstart := hok.start start stop step List.mem_cons_self
  unfold sliceStart intMin at *
  split <;> omega

/-- One step of the walk at a node that is no recursive descent. -/
theorem walk_step_selects {node : PathNode} {v : Json R} {g : Json R → List (Json R)} {t : Json R → Prop}
    (hnode : node ≠ .recursiveDescent) (hok : PathOk (node :: next)) (hs : SliceOk (node :: next) v)
    (hn : sliceFuel (node :: next) v < n ∨ (walkPath (n + 1) (node :: next) v).Defined)
    (h : ∀ u ∈ selects node v, (follow (walkPath n) next u).Yields (g u) (t u)) :
    (walkPath (n + 1) (node :: next) v).Yields (if Mismatch node v then [v] else (selects node v).flatMap g)
      (ThawsHere (node :: next) v ∨ ∃ u ∈ selects node v, t u) := by
  have hnothing : ThawsHere (node :: next) v = False → selects node v = [] →
      (Pure.pure [] : ErrM (List (Json R))).Yields ((selects node v).flatMap g)
        (ThawsHere (node :: next) v ∨ ∃ u ∈ selects node v, t u) := by
    intro ht hsel
    rw [ht, hsel]
    exact (Yields.pure []).congr (by simp)
  have hself : ThawsHere (node :: next) v = False → selects node v = [] →
      (Pure.pure [v] : ErrM (List (Json R))).Yields [v] (ThawsHere (node :: next) v ∨ ∃ u ∈ selects node v, t u) := by
    intro ht hsel
    rw [ht, hsel]
    exact (Yields.pure [v]).congr (by simp)
  cases node with
  | recursiveDescent => exact absurd rfl hnode
  | root =>
    have hv := h v (List.mem_singleton_self v)
    have hres : (selects .root v).flatMap g = g v := List.append_nil (g v)
    rw [if_neg (show ¬ Mismatch .root v from id), hres]
    exact hv.congr (by simp [ThawsHere, selects])
  | member name =>
    rw [if_neg (show ¬ Mismatch (.member name) v from id)]
    cases v with
    | obj m =>
      intro e
      obtain ⟨e₁, h₁, hm₁⟩ := jsonObjget_yields m name e
      have hsel : selects (.member name) (.obj m) = ((OMap.find Json.keyEq m name).map Prod.snd).toList := rfl
      simp only [walkPath, ErrM.bind_run, h₁, Option.bind_some]
      rw [hsel] at h ⊢
      cases hf : (OMap.find Json.keyEq m name).map Prod.snd with
      | none => exact ⟨e₁, rfl, hm₁.congr (by simp [ThawsHere])⟩
      | some u =>
        rw [hf] at h
        obtain ⟨e₂, h₂, hm₂⟩ := h u (List.mem_singleton_self u) e₁
        exact ⟨e₂, by simpa using h₂, (hm₁.trans hm₂).congr (by simp [ThawsHere])⟩
    | _ => exact hnothing rfl rfl
  | wildcardMember =>
    cases v with
    | obj m =>
      have hres : (selects .wildcardMember (.obj m)).flatMap g = m.flatMap fun ent => g ent.2 := List.flatMap_map _ _ _
      rw [if_neg (show ¬ Mismatch .wildcardMember (.obj m) from id), hres]
      refine (forEach_yields fun ent hent => h ent.2 (List.mem_map_of_mem hent)).congr ?_
      have hex : (∃ u ∈ selects .wildcardMember (.obj m), t u) ↔ ∃ ent ∈ m, t ent.2 := exists_mem_map
      rw [hex]
      exact (or_iff_right id).symm
    | _ => exact hself rfl rfl
  | wildcardElement =>
    cases v with
    | arr l =>
      rw [if_neg (show ¬ Mismatch .wildcardElement (.arr l) from id)]
      refine (forEach_yields fun u hu => h u hu).congr ?_
      simp [ThawsHere, selects]
    | _ => exact hself rfl rfl
  | element index =>
    rw [if_neg (show ¬ Mismatch (.element index) v from id)]
    cases v with
    | arr l =>
      refine (followElement_yields fun u hu => h u (Option.mem_toList.2 hu)).congr ?_
      simp [ThawsHere]
    | _ => exact hnothing rfl rfl
  | elementList idxList =>
    rw [if_neg (show ¬ Mismatch (.elementList idxList) v from id)]
    cases v with
    | arr l =>
      have hres : (selects (.elementList idxList) (.arr l)).flatMap g =
          idxList.flatMap fun i => (elementAt l i).toList.flatMap g := flatMap_filterMap _ _ _
      rw [hres]
      refine (forEach_yields fun i hi => followElement_yields fun u hu =>
        h u (List.mem_filterMap.2 ⟨i, hi, hu⟩)).congr ?_
      exact indexes_thaw Iff.rfl
    | _ => exact hnothing rfl rfl
  | elementSlice start stop step =>
    rw [if_neg (show ¬ Mismatch (.elementSlice start stop step) v from id)]
    cases v with
    | arr l =>
      have hmin := hok.sliceStart_ge l.length
      have hres : (selects (.elementSlice start stop step) (.arr l)).flatMap g =
          (sliceIndexes (sliceStop stop l.length) step (sliceStop stop l.length - sliceStart start l.length).toNat
            (sliceStart start l.length)).flatMap fun i => (elementAt l i).toList.flatMap g := flatMap_filterMap _ _ _
      rw [hres]
      refine (sliceLoop_yields hs hmin (le_refl _) hn fun i hi => followElement_yields fun u hu =>
        h u (List.mem_filterMap.2 ⟨i, hi, hu⟩)).congr ?_
      exact indexes_thaw sliceIndexes_ne_nil
    | _ => exact hnothing rfl rfl

theorem PathOk.next_ne (hok : PathOk (.recursiveDescent :: next)) : next ≠ [] := by
  rintro rfl
  exact hok.last rfl

theorem descend_walk {hit : PathNode} {v elem : Json R} (hne : next ≠ []) :
    follow (walkPath n) (descend next v hit elem).1 (descend next v hit elem).2 =
      if next.head? = some hit then walkPath n next v else walkPath n (.recursiveDescent :: next) elem := by
  unfold descend follow
  by_cases hhit : next.head? = some hit
  · rw [if_pos hhit, if_pos hhit]
    exact if_neg (by rwa [List.isEmpty_iff])
  · rw [if_neg hhit, if_neg hhit]
    rfl

theorem walk_descent_obj {m : List (CStr × Json R)} (hne : next ≠ []) :
    walkPath (n + 1) (.recursiveDescent :: next) (.obj m) =
      forEach (fun ent => follow (walkPath n) (descend next (.obj m) (.member ent.1) ent.2).1
        (descend next (.obj m) (.member ent.1) ent.2).2) m := by
  rw [walkPath]
  congr 1
  funext ent
  rw [descend_walk hne]
  cases next with
  | nil => exact absurd rfl hne
  | cons node next => cases node <;> simp

theorem walk_descent_arr {l : List (Json R)} (hne : next ≠ []) :
    walkPath (n + 1) (.recursiveDescent :: next) (.arr l) =
      forEach (fun p => follow (walkPath n) (descend next (.arr l) (.element (p.2 : Nat)) p.1).1
        (descend next (.arr l) (.element (p.2 : Nat)) p.1).2) l.zipIdx := by
  rw [walkPath]
  dsimp only
  rw [forEach_map]
  congr 1
  funext p
  rw [descend_walk hne]
  cases next with
  | nil => exact absurd rfl hne
  | cons node next => cases node <;> simp

theorem walk_step_descent {v : Json R} {g : List PathNode × Json R → List (Json R)}
    {t : List PathNode × Json R → Prop} (hok : PathOk (.recursiveDescent :: next))
    (h : ∀ c ∈ calls .recursiveDescent next v, (follow (walkPath n) c.1 c.2).Yields (g c) (t c)) :
    (walkPath (n + 1) (.recursiveDescent :: next) v).Yields ((calls .recursiveDescent next v).flatMap g)
      (∃ c ∈ calls .recursiveDescent next v, t c) := by
  have hne := hok.next_ne
  cases v with
  | obj m =>
    have hres : (calls .recursiveDescent next (.obj m)).flatMap g =
        m.flatMap fun ent => g (descend next (.obj m) (.member ent.1) ent.2) := List.flatMap_map _ _ _
    rw [hres, walk_descent_obj hne]
    exact (forEach_yields fun ent hent => h _ (List.mem_map_of_mem hent)).congr exists_mem_map.symm
  | arr l =>
    have hres : (calls .recursiveDescent next (.arr l)).flatMap g =
        l.zipIdx.flatMap fun p => g (descend next (.arr l) (.element p.2) p.1) := List.flatMap_map _ _ _
    rw [hres, walk_descent_arr hne]
    exact (forEach_yields fun p hp => h _ (List.mem_map_of_mem hp)).congr exists_mem_map.symm
  | _ => exact (Yields.pure []).congr (by simp [calls])

/-- What is needed for a step of the walk to be defined. -/
theorem walk_step_defined {node : PathNode} {v : Json R} (hok : PathOk (node :: next))
    (h : (walkPath (n + 1) (node :: next) v).Defined) :
    SliceOk (node :: next) v ∧ ∀ c ∈ calls node next v, (follow (walkPath n) c.1 c.2).Defined := by
  have hsel {P : Json R → Prop} (hp : ∀ u ∈ selects node v, P u) (c : List PathNode × Json R)
      (hc : c ∈ (selects node v).map (next, ·)) : c.1 = next ∧ P c.2 := by
    obtain ⟨u, hu, rfl⟩ := List.mem_map.1 hc
    exact ⟨rfl, hp u hu⟩
  have hwalk (hp : ∀ u ∈ selects node v, (follow (walkPath n) next u).Defined) (c : List PathNode × Json R)
      (hc : c ∈ (selects node v).map (next, ·)) : (follow (walkPath n) c.1 c.2).Defined := by
    obtain ⟨h1, h2⟩ := hsel hp c hc
    rwa [h1]
  have hnone (hs : selects node v = []) : ∀ u ∈ selects node v, (follow (walkPath n) next u).Defined := by
    rw [hs]
    exact fun u hu => absurd hu List.not_mem_nil
  cases node with
  | root =>
    refine ⟨trivial, hwalk fun u hu => ?_⟩
    have hu : u = v := List.mem_singleton.1 hu
    subst hu
    exact h
  | member name =>
    refine ⟨trivial, hwalk ?_⟩
    cases v with
    | obj m =>
      intro u hu
      obtain ⟨e, p, h⟩ := h
      obtain ⟨e₁, h₁, -⟩ := jsonObjget_yields m name e
      have hu : (OMap.find Json.keyEq m name).map Prod.snd = some u := Option.mem_toList.1 hu
      simp only [walkPath, ErrM.bind_run, h₁, hu, Option.bind_some] at h
      exact ⟨e₁, p, h⟩
    | _ => exact hnone rfl
  | recursiveDescent =>
    refine ⟨trivial, ?_⟩
    have hne := hok.next_ne
    cases v with
    | obj m =>
      rw [walk_descent_obj hne] at h
      intro c hc
      obtain ⟨ent, hent, rfl⟩ := List.mem_map.1 hc
      exact Defined.forEach h ent hent
    | arr l =>
      rw [walk_descent_arr hne] at h
      intro c hc
      obtain ⟨p, hp, rfl⟩ := List.mem_map.1 hc
      exact Defined.forEach h p hp
    | _ => exact fun c hc => absurd hc List.not_mem_nil
  | wildcardMember =>
    refine ⟨trivial, hwalk ?_⟩
    cases v with
    | obj m =>
      intro u hu
      obtain ⟨ent, hent, rfl⟩ := List.mem_map.1 hu
      exact Defined.forEach h ent hent
    | _ => exact hnone rfl
  | wildcardElement =>
    refine ⟨trivial, hwalk ?_⟩
    cases v with
    | arr l => exact Defined.forEach h
    | _ => exact hnone rfl
  | element index =>
    refine ⟨trivial, hwalk ?_⟩
    cases v with
    | arr l => exact fun u hu => Defined.followElement h (Option.mem_toList.1 hu)
    | _ => exact hnone rfl
  | elementList idxList =>
    refine ⟨trivial, hwalk ?_⟩
    cases v with
    | arr l =>
      intro u hu
      obtain ⟨i, hi, hu⟩ := List.mem_filterMap.1 hu
      exact Defined.followElement (Defined.forEach h i hi) hu
    | _ => exact hnone rfl
  | elementSlice start stop step =>
    cases v with
    | arr l =>
      obtain ⟨hends, hall⟩ := Defined.sliceLoop h
      refine ⟨hends, hwalk fun u hu => ?_⟩
      obtain ⟨i, hi, hu⟩ := List.mem_filterMap.1 hu
      exact Defined.followElement (hall _ i hi) hu
    | _ => exact ⟨trivial, hwalk (hnone rfl)⟩

/-- One step of the walk, from what the walks it goes on with append. -/
theorem walk_step {node : PathNode} {v : Json R} {g : List PathNode × Json R → List (Json R)}
    {t : List PathNode × Json R → Prop} (hok : PathOk (node :: next)) (hs : SliceOk (node :: next) v)
    (hn : sliceFuel (node :: next) v < n ∨ (walkPath (n + 1) (node :: next) v).Defined)
    (h : ∀ c ∈ calls node next v, (follow (walkPath n) c.1 c.2).Yields (g c) (t c)) :
    (walkPath (n + 1) (node :: next) v).Yields (if Mismatch node v then [v] else (calls node next v).flatMap g)
      (ThawsHere (node :: next) v ∨ ∃ c ∈ calls node next v, t c) := by
  by_cases hnode : node = .recursiveDescent
  · subst hnode
    rw [if_neg (show ¬ Mismatch .recursiveDescent v from id)]
    exact (walk_step_descent hok h).congr (or_iff_right (show ¬ ThawsHere (.recursiveDescent :: next) v from id)).symm
  · have hcalls : calls node next v = (selects node v).map (next, ·) := by
      cases node with
      | recursiveDescent => exact absurd rfl hnode
      | _ => rfl
    rw [hcalls] at h ⊢
    have hstep := walk_step_selects (g := fun u => g (next, u)) (t := fun u => t (next, u)) hnode hok hs hn
      fun u hu => h _ (List.mem_map_of_mem hu)
    rw [List.flatMap_map]
    exact hstep.congr (or_congr Iff.rfl exists_mem_map.symm)

end

end Pcl

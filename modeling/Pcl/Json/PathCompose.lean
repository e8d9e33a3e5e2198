import Pcl.Json.PathEnds

/-!
# Paths one behind the other

Matching a path of two parts is matching the second part on what the first one selects, unless a wildcard
of the first part stands on a value of another kind: the walk appends this value and leaves out the rest
of the path. The law then fails, unless the second part starts with such a wildcard too. A quoted empty name
swallows the path behind it, so it asks for different members before and after a part is added.
-/

namespace Pcl

variable {R : Type} {node : PathNode} {next path path' : List PathNode} {u v w : Json R}

/-! ### Walks without recursive descents -/

theorem calls_selects (hnode : node ≠ .recursiveDescent) (next : List PathNode) (v : Json R) :
    calls node next v = (selects node v).map (next, ·) := by
  cases node with
  | recursiveDescent => exact absurd rfl hnode
  | _ => rfl

theorem results_selects (hnode : node ≠ .recursiveDescent) (next : List PathNode) (v : Json R) :
    results (node :: next) v = if Mismatch node v then [v] else (selects node v).flatMap (results next) := by
  rw [results_cons, calls_selects hnode, List.flatMap_map]

theorem results_last (hnode : node ≠ .recursiveDescent) (v : Json R) :
    results [node] v = if Mismatch node v then [v] else selects node v := by
  rw [results_selects hnode, List.flatMap_congr fun u _ => results_nil u, List.flatMap_singleton']

theorem results_root (next : List PathNode) (v : Json R) : results (.root :: next) v = results next v := by
  rw [results_selects (by simp), if_neg (show ¬ Mismatch .root v from id)]
  exact List.append_nil _

theorem Mismatch.selects (h : Mismatch node v) : selects node v = [] := by
  cases node with
  | wildcardMember =>
    cases v with
    | obj m => exact absurd h id
    | _ => rfl
  | wildcardElement =>
    cases v with
    | arr l => exact absurd h id
    | _ => rfl
  | _ => exact absurd h id

theorem Mismatch.ne (h : Mismatch node v) : node ≠ .recursiveDescent := by
  rintro rfl
  exact h

theorem Visits.trans {path'' : List PathNode} (h : Visits path v path' u) (h' : Visits path' u path'' w) :
    Visits path v path'' w := by
  induction h with
  | refl => exact h'
  | step hm _ ih => exact .step hm (ih h')

theorem Visits.of_selects (hnode : node ≠ .recursiveDescent) (hu : u ∈ selects node v) (h : Visits next u path' w) :
    Visits (node :: next) v path' w := by
  refine .step ?_ h
  rw [calls_selects hnode]
  exact List.mem_map_of_mem hu

theorem Visits.cases_selects (hnode : node ≠ .recursiveDescent) (h : Visits (node :: next) v path' w) :
    path' = node :: next ∧ w = v ∨ ∃ u ∈ selects node v, Visits next u path' w := by
  cases h with
  | refl => exact .inl ⟨rfl, rfl⟩
  | step hm hv =>
    rw [calls_selects hnode] at hm
    obtain ⟨u, hu, heq⟩ := List.mem_map.1 hm
    injection heq with hp hu'
    subst hp hu'
    exact .inr ⟨_, hu, hv⟩

/-- Nothing is visited but the value itself where a wildcard stands on another kind. -/
theorem Visits.of_mismatch (hm : Mismatch node v) (h : Visits (node :: next) v path' w) : path' = node :: next ∧ w = v := by
  rcases h.cases_selects hm.ne with h | ⟨u, hu, -⟩
  · exact h
  · rw [hm.selects] at hu
    cases hu

theorem Visits.nil (h : Visits [] v path' w) : path' = [] ∧ w = v := by
  cases h
  exact ⟨rfl, rfl⟩

/-- A result stands at the end of the path, or where a wildcard does not fit. -/
theorem results_visits (hrd : .recursiveDescent ∉ path) (h : u ∈ results path v) :
    Visits path v [] u ∨ ∃ node next, Visits path v (node :: next) u ∧ Mismatch node u := by
  induction path generalizing v with
  | nil =>
    rw [results_nil] at h
    rw [List.mem_singleton.1 h]
    exact .inl (.refl [] v)
  | cons node next ih =>
    rw [List.mem_cons, not_or] at hrd
    have hnode : node ≠ .recursiveDescent := fun hn => hrd.1 hn.symm
    rw [results_selects hnode] at h
    by_cases hm : Mismatch node v
    · rw [if_pos hm] at h
      rw [List.mem_singleton.1 h]
      exact .inr ⟨node, next, .refl _ _, hm⟩
    · rw [if_neg hm] at h
      obtain ⟨w, hw, h⟩ := List.mem_flatMap.1 h
      rcases ih hrd.2 h with hv | ⟨node', next', hv, hm'⟩
      · exact .inl (.of_selects hnode hw hv)
      · exact .inr ⟨node', next', .of_selects hnode hw hv, hm'⟩

/-- Where a wildcard of the first path stands on a value of another kind, the second path starts with
such a wildcard too. -/
def EarlyOk (path path' : List PathNode) (v : Json R) : Prop :=
  ∀ node next u, Visits path v (node :: next) u → Mismatch node u → ∃ node' next', path' = node' :: next' ∧ Mismatch node' u

theorem EarlyOk.of_selects (hnode : node ≠ .recursiveDescent) (h : EarlyOk (node :: next) path' v)
    (hu : u ∈ selects node v) : EarlyOk next path' u :=
  fun node' next' w hv hm => h node' next' w (.of_selects hnode hu hv) hm

theorem SliceOk.of_append (h : SliceOk (path ++ path') v) : SliceOk path v := by
  cases path with
  | nil => trivial
  | cons node next =>
    cases node with
    | elementSlice a b c => cases v <;> exact h
    | _ => trivial

/-- What the first part of a path visits, the whole path visits. -/
theorem Visits.append {path'' : List PathNode} (hrd : .recursiveDescent ∉ path) (h : Visits path v path'' u)
    (path' : List PathNode) : Visits (path ++ path') v (path'' ++ path') u := by
  induction path generalizing v with
  | nil =>
    obtain ⟨rfl, rfl⟩ := h.nil
    exact .refl _ _
  | cons node next ih =>
    rw [List.mem_cons, not_or] at hrd
    have hnode : node ≠ .recursiveDescent := fun hn => hrd.1 hn.symm
    rcases h.cases_selects hnode with ⟨rfl, rfl⟩ | ⟨w, hw, hv⟩
    · exact .refl _ _
    · exact .of_selects hnode hw (ih hrd.2 hv)

theorem SlicesOk.of_append (hrd : .recursiveDescent ∉ path) (h : SlicesOk (path ++ path') v) : SlicesOk path v :=
  fun _ _ hv => (h _ _ (hv.append hrd path')).of_append

/-- The slices of the second path end on the results of the first one. -/
theorem SlicesOk.results (hrd : .recursiveDescent ∉ path) (h : SlicesOk (path ++ path') v)
    (hearly : EarlyOk path path' v) (hu : u ∈ results path v) : SlicesOk path' u := by
  rcases results_visits hrd hu with hv | ⟨node, next, hv, hm⟩
  · exact fun _ _ hw => h _ _ ((hv.append hrd path').trans hw)
  · obtain ⟨node', next', rfl, hm'⟩ := hearly node next u hv hm
    intro path'' w hw
    obtain ⟨rfl, rfl⟩ := hw.of_mismatch hm'
    cases node' with
    | elementSlice a b c => exact absurd hm' id
    | _ => trivial

/-! ### Names that swallow the path -/

/-- Where two paths differ, on the walk of a value, neither selects anything. -/
def Apart : List PathNode → List PathNode → Json R → Prop
  | node :: next, node' :: next', v =>
    (node = node' → ∀ u ∈ selects node v, Apart next next' u) ∧
      (node ≠ node' → selects node v = [] ∧ selects node' v = [])
  | _, _, _ => True

theorem Apart.append : Apart path (path ++ path') v := by
  induction path generalizing v with
  | nil => trivial
  | cons node next ih => exact ⟨fun _ u _ => ih, fun h => absurd rfl h⟩

section
variable {renamed : List PathNode} (hren : List.Forall₂ Renamed path renamed) (hrd : .recursiveDescent ∉ path)
include hren hrd

end

/-! ### Matching -/

/-- Matching ends with these results, in every error state. -/
def Matches (path : List PathNode) (v : Json R) (res : List (Json R)) : Prop :=
  ∀ e, ∃ fuel e', jsonMatch fuel v path e = some (res, e')

theorem matches_iff (hne : path ≠ []) (hok : PathOk path) {res : List (Json R)} :
    Matches path v res ↔ SlicesOk path v ∧ res = results path v := by
  constructor
  · intro h
    obtain ⟨n, e', hrun⟩ := h .zero
    rw [← follow_cons hne] at hrun
    have hdef : (follow (walkPath n) path v).Defined := ⟨_, _, hrun⟩
    obtain ⟨e'', hres, -⟩ := walk_result hok hdef .zero
    rw [hrun] at hres
    cases hres
    exact ⟨walk_defined hok hdef, rfl⟩
  · rintro ⟨hs, rfl⟩ e
    obtain ⟨N, hN⟩ := walk_yields (path, v) hok hs
    obtain ⟨e', hrun, -⟩ := hN N (le_refl N) e
    exact ⟨N, e', by rw [← follow_cons hne]; exact hrun⟩

/-- The path is compiled, and what it matches has the property, in every error state. -/
def Answers (text : CStr) (v : Json R) (P : List (Json R) → Prop) : Prop :=
  ∀ e, ∃ nodes e' res, jsonCompile text e = some (some nodes, e') ∧ Matches nodes v res ∧ P res

theorem calls_subset {c : List PathNode × Json R} (hc : c ∈ calls node next v) : c.1 ⊆ node :: next := by
  rcases calls_cases hc with ⟨hpath, -⟩ | ⟨-, hpath, -⟩
  · exact hpath ▸ List.subset_cons_self _ _
  · exact hpath ▸ fun _ => id

theorem Visits.path_subset (h : Visits path v path' u) : path' ⊆ path := by
  induction h with
  | refl => exact fun _ => id
  | step h hv ih => exact fun n hn => calls_subset h (ih hn)

theorem slicesOk_of_none (h : ∀ a b c, .elementSlice a b c ∉ path) (v : Json R) : SlicesOk path v := by
  intro path' u hv
  rcases path' with _ | ⟨node, next⟩
  · trivial
  · cases node with
    | elementSlice a b c => exact absurd (hv.path_subset List.mem_cons_self) (h a b c)
    | _ => trivial

theorem answers_iff {text : CStr} (hc : ∀ e, jsonCompile text e = some (some path, e))
    (hs : ∀ a b c, .elementSlice a b c ∉ path) {P : List (Json R) → Prop} : Answers text v P ↔ P (results path v) := by
  obtain ⟨hne, hok⟩ := compiled_ok (hc .zero)
  constructor
  · intro h
    obtain ⟨nodes, e', res, hrun, hm, hp⟩ := h .zero
    rw [hc] at hrun
    cases hrun
    exact ((matches_iff hne hok).1 hm).2 ▸ hp
  · exact fun hp e => ⟨path, e, _, hc e, (matches_iff hne hok).2 ⟨slicesOk_of_none hs v, rfl⟩, hp⟩

end Pcl

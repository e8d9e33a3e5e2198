import Pcl.Json.PathWalk

/-!
# Where the walk along a path ends

From one step of the walk to the whole walk. Along a compiled path it ends exactly when all slices that it
visits end (`jsonMatch_terminates_iff`), and then with its `results`.
-/

namespace Pcl

variable {R : Type}

theorem eventually_all {α : Type} {P : α → Nat → Prop} {l : List α} (h : ∀ a ∈ l, ∃ N, ∀ n, N ≤ n → P a n) :
    ∃ N, ∀ n, N ≤ n → ∀ a ∈ l, P a n := by
  induction l with
  | nil => exact ⟨0, fun n _ a ha => absurd ha List.not_mem_nil⟩
  | cons a l ih =>
    obtain ⟨N, hN⟩ := h a List.mem_cons_self
    obtain ⟨M, hM⟩ := ih fun b hb => h b (List.mem_cons_of_mem a hb)
    refine ⟨max N M, fun n hn b hb => ?_⟩
    rcases List.mem_cons.1 hb with rfl | hb
    · exact hN n (by omega)
    · exact hM n (by omega) b hb

theorem calls_ok {node : PathNode} {next : List PathNode} {v : Json R} {c : List PathNode × Json R}
    (hok : PathOk (node :: next)) (hc : c ∈ calls node next v) : PathOk c.1 := by
  rcases calls_cases hc with ⟨hpath, -⟩ | ⟨-, hpath, -⟩
  · exact hpath ▸ hok.tail
  · exact hpath ▸ hok

theorem follow_nil_yields (n : Nat) (v : Json R) :
    (follow (walkPath n) [] v).Yields (results [] v) (WalkThaws [] v) := by
  rw [results_nil]
  exact (ErrM.Yields.pure [v]).congr (iff_of_false id (not_walkThaws_nil v))

/-- Where all slices end, the walk ends with its results, given enough fuel. -/
theorem walk_yields (c : List PathNode × Json R) (hok : PathOk c.1) (hs : SlicesOk c.1 c.2) :
    ∃ N, ∀ n, N ≤ n → (follow (walkPath n) c.1 c.2).Yields (results c.1 c.2) (WalkThaws c.1 c.2) := by
  induction c using below_wf.induction with
  | _ c ih =>
    obtain ⟨path, v⟩ := c
    cases path with
    | nil =>
      exact ⟨0, fun n _ => follow_nil_yields n v⟩
    | cons node next =>
      obtain ⟨hhere, hcalls⟩ := slicesOk_cons.1 hs
      obtain ⟨N, hN⟩ := eventually_all fun c hc => ih c (calls_below hc) (calls_ok hok hc) (hcalls c hc)
      refine ⟨max N (sliceFuel (node :: next) v + 1) + 1, fun n hn => ?_⟩
      obtain ⟨n, rfl⟩ : ∃ m, n = m + 1 := ⟨n - 1, by omega⟩
      have hfuel : sliceFuel (node :: next) v < n := by omega
      rw [results_cons]
      exact (walk_step hok hhere (.inl hfuel) (hN n (by omega))).congr (walkThaws_cons node next v).symm

theorem walk_result {n : Nat} {path : List PathNode} {v : Json R} (hok : PathOk path)
    (h : (follow (walkPath n) path v).Defined) : (follow (walkPath n) path v).Yields (results path v) (WalkThaws path v) := by
  induction n generalizing path v with
  | zero =>
    cases path with
    | nil => exact follow_nil_yields 0 v
    | cons node next =>
      obtain ⟨_, _, h⟩ := h
      cases h
  | succ n ih =>
    cases path with
    | nil => exact follow_nil_yields _ v
    | cons node next =>
      obtain ⟨hhere, hcalls⟩ := walk_step_defined hok h
      rw [results_cons]
      exact (walk_step hok hhere (.inr h) fun c hc => ih (calls_ok hok hc) (hcalls c hc)).congr
        (walkThaws_cons node next v).symm

/-- A walk that is defined visits only slices that end. -/
theorem walk_defined {n : Nat} {path : List PathNode} {v : Json R} (hok : PathOk path)
    (h : (follow (walkPath n) path v).Defined) : SlicesOk path v := by
  induction n generalizing path v with
  | zero =>
    cases path with
    | nil =>
      intro path' u hv
      cases hv
      trivial
    | cons node next =>
      obtain ⟨_, _, h⟩ := h
      cases h
  | succ n ih =>
    cases path with
    | nil =>
      intro path' u hv
      cases hv
      trivial
    | cons node next =>
      obtain ⟨hhere, hcalls⟩ := walk_step_defined hok h
      exact slicesOk_cons.2 ⟨hhere, fun c hc => ih (calls_ok hok hc) (hcalls c hc)⟩

theorem compiled_ok {path : CStr} {e e' : ErrState} {nodes : List PathNode}
    (h : jsonCompile path e = some (some nodes, e')) : nodes ≠ [] ∧ PathOk nodes := by
  obtain ⟨p, sel, -, hj, rfl, hs⟩ := jsonCompile_selectors h
  obtain ⟨hok, -, hne⟩ := hs.ok
  have hp : p ≠ [] := by
    rcases hj with hj | hj
    · exact ne_nil_of_head hj (by decide)
    · exact ne_nil_of_head hj (by decide)
  refine ⟨List.cons_ne_nil _ _, ⟨fun hl => ?_, fun a b c hm => ?_⟩⟩
  · obtain ⟨node, sel, rfl⟩ := List.exists_cons_of_ne_nil (hne hp)
    rw [List.getLast?_cons_cons] at hl
    exact hok.last hl
  · rcases List.mem_cons.1 hm with hm | hm
    · cases hm
    · exact hok.start a b c hm

theorem follow_cons {n : Nat} {path : List PathNode} (hne : path ≠ []) (v : Json R) :
    follow (walkPath n) path v = jsonMatch n v path :=
  if_neg (by rwa [List.isEmpty_iff])

end Pcl

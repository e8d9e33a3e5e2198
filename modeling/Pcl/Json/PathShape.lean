import Pcl.Json.PathEnds
import Pcl.Json.RefWalk

/-!
# The shape of a compiled path

Where errors are not frozen, the compiler answers on every text: each number is read from behind the last
character, and each selector takes one at least. The nodes it answers with are those the walk dereferences.
-/

namespace Pcl

variable {e e' : ErrState} {p : List UInt8}

/-! ### The compiler answers -/

/-- The computation has a defined result. -/
def ErrM.Runs {α : Type} (x : ErrM α) (e : ErrState) : Prop := ∃ r, x e = some r

theorem pclStrtoi_runs (he : e.frozen = false) (s : List UInt8) : (pclStrtoi s).Runs e := by
  by_cases hnum : ∃ n rest, Numeral s n rest
  · obtain ⟨n, rest, hn⟩ := hnum
    exact ⟨_, pclStrtoi_numeral hn e⟩
  · obtain ⟨rest, l, err, os, msg, -, hrun⟩ := pclStrtol_else (fun n rest hn => hnum ⟨n, rest, hn⟩) e
    unfold ErrM.Runs pclStrtoi
    rw [ErrM.bind_run, hrun, he, Option.bind_some]
    simp only [Bool.false_eq_true, ↓reduceIte, ne_eq, Int.reduceNeg, Int.reduceEq, not_false_eq_true, ErrM.bind_run,
      trc_run, Option.bind_some]
    exact ⟨_, rfl⟩

theorem readInt_runs (he : e.frozen = false) {line : Int} {msg : String} {f : Int → List UInt8 → ErrM Compiled}
    (hf : ∀ n q, q.length < p.length → (f n q).Runs e) : (readInt line msg p f).Runs e := by
  obtain ⟨⟨⟨r, i, q⟩, e₁⟩, hrun⟩ := pclStrtoi_runs he p
  unfold readInt ErrM.Runs
  rw [ErrM.bind_run, hrun, Option.bind_some]
  dsimp only
  by_cases hneg : r < 0
  · rw [if_pos hneg, compileTrc_run]
    exact ⟨_, rfl⟩
  · rw [if_neg hneg]
    obtain ⟨rfl, -, hlen, n, hi, -⟩ := pclStrtoi_ok hrun hneg
    cases hi
    exact hf n q hlen

theorem compileErr_runs {α : Type} (line : Int) (msg : String) : (compileErr line msg : ErrM (Option α)).Runs e :=
  ⟨_, compileErr_run line msg e⟩

theorem pure_runs {α : Type} (a : α) : (pure a : ErrM α).Runs e := ⟨_, rfl⟩

theorem sliceClose_runs (start stop step line : Int) : (sliceClose start stop step line p).Runs e := by
  unfold sliceClose
  split
  · exact compileErr_runs ..
  · exact pure_runs _

theorem sliceStep_runs (he : e.frozen = false) (start stop stepLine closeLine : Int) :
    (sliceStep start stop stepLine closeLine p).Runs e := by
  unfold sliceStep
  split
  · exact readInt_runs he fun _ _ _ => sliceClose_runs ..
  · exact sliceClose_runs ..

theorem sliceEnd_runs (he : e.frozen = false) (start : Int) (omitted : Bool) (endLine stepLine closeLine : Int) :
    (sliceEnd start omitted endLine stepLine closeLine p).Runs e := by
  unfold sliceEnd
  split
  · exact sliceStep_runs he ..
  · exact readInt_runs he fun _ _ _ => sliceStep_runs he ..

theorem indexList_runs (he : e.frozen = false) {n : Nat} (hn : p.length < n) (l : List Int) : (indexList n p l).Runs e := by
  induction n generalizing p l with
  | zero => exact absurd hn (Nat.not_lt_zero _)
  | succ n ih =>
    unfold indexList
    split
    · exact pure_runs _
    · refine readInt_runs he fun i q hq => ?_
      rw [List.length_drop] at hq
      split
      · exact compileErr_runs ..
      · exact ih (by omega) ..

theorem compileIndex_runs (he : e.frozen = false) : (compileIndex p).Runs e := by
  refine readInt_runs he fun i q _ => ?_
  split
  · exact indexList_runs he (Nat.lt_succ_self _) ..
  · split
    · exact sliceEnd_runs he ..
    · split
      · exact pure_runs _
      · exact compileErr_runs ..

theorem compileDot_runs : (compileDot p).Runs e := by
  unfold compileDot
  split
  · exact pure_runs _
  · split
    · exact pure_runs _
    · dsimp only
      split
      · exact compileErr_runs ..
      · exact pure_runs _

theorem compileBracket_runs (he : e.frozen = false) : (compileBracket p).Runs e := by
  unfold compileBracket
  split
  · exact pure_runs _
  · split
    · split
      · exact pure_runs _
      · split
        · exact compileErr_runs ..
        · exact pure_runs _
    · split
      · exact sliceEnd_runs he ..
      · exact compileIndex_runs he

theorem compileNode_runs (he : e.frozen = false) : (compileNode p).Runs e := by
  unfold compileNode
  split
  · exact compileErr_runs ..
  · split
    · exact compileDot_runs
    · split
      · exact compileBracket_runs he
      · unfold ErrM.Runs
        rw [ErrM.bind_run, errVset_run _ _ _ _ _ (by decide)]
        exact ⟨_, rfl⟩

theorem compileLoop_runs (he : e.frozen = false) {n : Nat} (hn : p.length < n) (root : List PathNode) :
    (compileLoop n p root).Runs e := by
  induction n generalizing p root with
  | zero => exact absurd hn (Nat.not_lt_zero _)
  | succ n ih =>
    unfold compileLoop
    split
    · exact pure_runs _
    · obtain ⟨⟨x, e₁⟩, hx⟩ := compileNode_runs (p := p) he
      unfold ErrM.Runs
      rw [ErrM.bind_run, hx, Option.bind_some]
      cases x with
      | none => exact pure_runs _
      | some x =>
        obtain ⟨rfl, -, -, hlt⟩ := compileNode_ok hx
        exact ih (by omega) (x.1 :: root)

theorem jsonCompile_runs (he : e.frozen = false) (path : CStr) : (jsonCompile path).Runs e := by
  unfold jsonCompile
  dsimp only
  split
  · exact compileErr_runs ..
  · refine compileLoop_runs he ?_ _
    rw [List.length_drop]
    omega

/-! ### The nodes -/

theorem PathOk.linked {path : List PathNode} (hok : PathOk path) (hne : path ≠ []) : PathLinked path := by
  refine ⟨hne, fun pre post heq hpost => hok.last ?_⟩
  rw [heq, hpost, List.getLast?_append]
  rfl

/-- The computation dereferences no NULL. -/
def NoNull {R : Type} (x : RefM (List (Node R))) : Prop := ∀ h, x h ≠ .error .nullNext

theorem NoNull.cat {R : Type} {x y : RefM (List (Node R))} (hx : NoNull x) (hy : NoNull y) : NoNull (.cat x y) := by
  intro h hrun
  rcases RefM.bind_error hrun with hx' | ⟨r, h₁, -, hrest⟩
  · exact hx h hx'
  rcases RefM.bind_error hrest with hy' | ⟨rs, h₂, -, hpure⟩
  · exact hy h₁ hy'
  · cases hpure

theorem NoNull.append {R : Type} (v : Node R) : NoNull (appendRef v) := by
  intro h hrun
  rcases RefM.bind_error hrun with href | ⟨_, h₁, -, hpure⟩
  · unfold jsonRef at href
    cases ha : v.addr? with
    | none =>
      rw [ha] at href
      cases href
    | some a =>
      rw [ha] at href
      dsimp only at href
      split at href
      · cases href
      · split at href <;> cases href
  · cases hpure

theorem noNull_closed {R : Type} : WalkClosed (NoNull (R := R)) fun _ => True where
  children _ _ _ _ := trivial
  nil := nofun
  append v _ := .append v
  cat _ _ hx hy := hx.cat hy
  noFuel := nofun
  overflow := nofun

theorem walkNodes_noNull {R : Type} {path : List PathNode} (hpath : PathLinked path) (n : Nat) (v : Node R) :
    NoNull (walkNodes n path v) := noNull_closed.walk (fun hn => absurd hpath hn) trivial

/-- A path is refused, or its nodes are the root and at least one selector, and a recursive descent has a node
behind it. No walk along it dereferences NULL. -/
theorem jsonCompile_shape {R : Type} (path : CStr) (e : ErrState) :
    (e.frozen = false → ∃ r, jsonCompile path e = some r) ∧
    ∀ nodes e', jsonCompile path e = some (some nodes, e') →
      (∃ sel, nodes = .root :: sel ∧ sel ≠ [] ∧ .root ∉ sel) ∧
      (∀ pre post, nodes = pre ++ .recursiveDescent :: post → post ≠ []) ∧
      ∀ fuel (doc : Node R) h, matchNodes fuel doc nodes h ≠ .error .nullNext := by
  refine ⟨fun he => jsonCompile_runs he path, fun nodes e' hrun => ?_⟩
  obtain ⟨hnodes, hok⟩ := compiled_ok hrun
  have hlinked := hok.linked hnodes
  refine ⟨?_, hlinked.2, fun fuel doc h => walkNodes_noNull hlinked fuel doc h⟩
  obtain ⟨p, sel, -, hj, rfl, hs⟩ := jsonCompile_selectors hrun
  obtain ⟨-, hroot, hne⟩ := hs.ok
  have hp : p ≠ [] := by
    rcases hj with hj | hj
    · exact ne_nil_of_head hj (by decide)
    · exact ne_nil_of_head hj (by decide)
  exact ⟨sel, rfl, hne hp, hroot⟩

theorem jsonCompile_shape_descent : (∃ r, jsonCompile (.lit "$..a") .zero = some r) ∧
    ∀ fuel (doc : Node Nat) h,
      matchNodes fuel doc [.root, .recursiveDescent, .member (.lit "a")] h ≠ .error .nullNext := by
  obtain ⟨hruns, hshape⟩ := jsonCompile_shape (R := Nat) (.lit "$..a") .zero
  exact ⟨hruns rfl, (hshape _ .zero (by decide)).2.2⟩

end Pcl

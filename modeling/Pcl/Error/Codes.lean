import Pcl.Error.Transport
import Pcl.Lib.Follow

/-!
# The two codes of an error

The system's code comes with a code of the library: a nonzero `oserr` goes with a nonzero `err`. Every operation on
the error state keeps that but `pcl_err_setjson`, which takes both numbers as it finds them. `errRun_consistent_iff`
says so for runs.
-/

namespace Pcl

/-- The rule at `tag_pcl_err`. -/
def ErrState.Consistent (e : ErrState) : Prop := e.oserr ≠ 0 → e.err ≠ eOkay

section
variable {R : Type}

/-- The operations on the error state of a thread. -/
inductive ErrOp (R : Type) where
  | set (l : Loc) (err : Int) (oserr : UInt32) (msg : Option CStr)
  | trace (l : Loc) (msg : Option CStr)
  | clear
  | freeze (freeze : Bool)
  | setjson (error : Option (Json R))

namespace ErrOp

def run : ErrOp R → ErrM Int
  | .set l err oserr msg => errVset l err oserr msg
  | .trace l msg => errVtrace l msg
  | .clear => errClear
  | .freeze frozen => do
    errFreeze frozen
    return 0
  | .setjson error => errSetjson error

def step (e : ErrState) (op : ErrOp R) : Option (Int × ErrState) := op.run e

/-- An object that is taken has no code of the system without one of the library. -/
def KeepsCodes (e : ErrState) : ErrOp R → Prop
  | .setjson error => e.frozen = false → ∀ m err oserr strace, error = some (.obj m) → ErrObject m err oserr strace →
      err ≠ jsonInvint → oserr ≠ jsonInvint → UInt32.ofInt oserr ≠ 0 → toInt err ≠ 0
  | _ => True

/-- The state after an operation is consistent, and empty after an unfrozen clear. -/
def Meets (e : ErrState) (op : ErrOp R) (_ : Int) (e' : ErrState) : Prop :=
  e'.Consistent ∧ (op = .clear → e.frozen = false → e'.err = eOkay ∧ e'.oserr = 0 ∧ e'.strace = [])

end ErrOp

namespace ErrState
variable {e : ErrState}

theorem consistent_zero : ErrState.zero.Consistent := fun h => absurd rfl h

theorem Consistent.raised (h : e.Consistent) (l : Loc) {err : Int} (oserr : UInt32) (msg : Option CStr)
    (herr : err ≠ eOkay) : (e.raised l err oserr msg).Consistent := by
  unfold ErrState.raised
  split
  · exact h
  · exact fun _ => herr

theorem Consistent.traced (h : e.Consistent) (l : Loc) (msg : Option CStr) : (e.traced l msg).Consistent := by
  unfold ErrState.traced
  split <;> exact h

theorem Consistent.cleared (h : e.Consistent) : e.cleared.Consistent := by
  unfold ErrState.cleared
  split
  · exact h
  · exact fun h0 => absurd rfl h0

end ErrState

/-! ### What `pcl_err_setjson` takes -/

variable {m : List (CStr × Json R)} {e : ErrState}

theorem trc_yields {α : Type} (l : Loc) (a : α) : (do let _ ← trc l; return a : ErrM α).Yields a False := by
  intro e
  exact ⟨_, by rw [ErrM.bind_run, trc_run]; rfl, .traced e l none⟩

theorem errVset_yields {α : Type} (l : Loc) {err : Int} (oserr : UInt32) (msg : Option CStr) (herr : err ≠ eOkay) (a : α) :
    (do let _ ← errVset l err oserr msg; return a : ErrM α).Yields a False := by
  intro e
  exact ⟨_, by rw [ErrM.bind_run, errVset_run _ _ _ _ _ herr]; rfl, .raised e l err oserr msg⟩

/-- An integer is read back, everything else is none. -/
theorem jsonObjgetint_yields (m : List (CStr × Json R)) (key : CStr) :
    ∃ i, (jsonObjgetint (.obj m) key).Yields i False ∧
      (i ≠ jsonInvint → ∃ key', OMap.find Json.keyEq m key = some (key', .int i)) := by
  have hget := jsonObjget_yields m key
  cases hfind : OMap.find Json.keyEq m key with
  | none =>
    rw [hfind] at hget
    exact ⟨jsonInvint, (hget.bind (trc_yields _ _)).congr (or_self_iff), fun h => absurd rfl h⟩
  | some p =>
    obtain ⟨key', v⟩ := p
    rw [hfind] at hget
    cases v with
    | int i => exact ⟨i, (hget.bind (.pure i)).congr (or_self_iff), fun _ => ⟨key', rfl⟩⟩
    | _ =>
      exact ⟨jsonInvint, (hget.bind (errVset_yields _ _ _ (by decide) _)).congr (or_self_iff),
        fun h => absurd rfl h⟩

/-- An unfrozen state takes the codes of the object of an error, and an error of its own for anything else. -/
theorem errSetjson_cases (error : Option (Json R)) (he : e.frozen = false) :
    (∃ m err oserr strace, error = some (.obj m) ∧ ErrObject m err oserr strace ∧ err ≠ jsonInvint ∧
      oserr ≠ jsonInvint) ∨
    ∃ r, ∃ e₁ : ErrState, ∃ l err, errSetjson error e = some (r, e₁.raised l err 0 none) ∧ e₁.frozen = false ∧ err ≠ eOkay := by
  have hrefuse {e₁ : ErrState} (l : Loc) (err : Int) (he₁ : e₁.frozen = false) (herr : err ≠ eOkay)
      (hrun : errSetjson error e = setErr l err e₁) : ∃ r, ∃ e₁ : ErrState, ∃ l err,
        errSetjson error e = some (r, e₁.raised l err 0 none) ∧ e₁.frozen = false ∧ err ≠ eOkay :=
    ⟨_, e₁, l, err, hrun.trans (setErr_run e₁ l err herr), he₁, herr⟩
  have hstart (f : ErrM Int) : (do let err ← errGet; if err.frozen then return 0 else f : ErrM Int) e = f e := by
    show (if e.frozen = true then return 0 else f : ErrM Int) e = f e
    rw [if_neg (by rw [he]; decide)]
  match error with
  | some (.obj m) =>
    obtain ⟨err, herr, hfind₁⟩ := jsonObjgetint_yields m (.lit "err")
    obtain ⟨oserr, hoserr, hfind₂⟩ := jsonObjgetint_yields m (.lit "oserr")
    obtain ⟨e₁, hrun₁, hm₁⟩ := herr e
    obtain ⟨e₂, hrun₂, hm₂⟩ := hoserr e₁
    obtain ⟨e₃, hrun₃, hm₃⟩ := jsonObjget_yields m (.lit "strace") e₂
    have he₃ : e₃.frozen = false := by
      rw [hm₃.kept not_false, hm₂.kept not_false, hm₁.kept not_false, he]
    by_cases htaken : (∃ strace, (OMap.find Json.keyEq m (.lit "strace")).map Prod.snd = some (.arr strace)) ∧
        err ≠ jsonInvint ∧ oserr ≠ jsonInvint
    · obtain ⟨⟨strace, hstrace⟩, hinv₁, hinv₂⟩ := htaken
      obtain ⟨⟨key, v⟩, hfind₃, rfl⟩ := Option.map_eq_some_iff.1 hstrace
      exact .inl ⟨m, err, oserr, strace, rfl, ⟨hfind₁ hinv₁, hfind₂ hinv₂, ⟨key, hfind₃⟩⟩, hinv₁, hinv₂⟩
    · refine .inr (hrefuse (loc "err_setjson.c" "pcl_err_setjson" 54) eFormat he₃ (by decide) ?_)
      unfold errSetjson
      rw [hstart]
      simp only [ErrM.bind_run, hrun₁, hrun₂, hrun₃, Option.bind_some]
      generalize (OMap.find Json.keyEq m (.lit "strace")).map Prod.snd = found at htaken
      match found with
      | some (.arr strace) =>
        have hinv : err = jsonInvint ∨ oserr = jsonInvint := by
          by_contra hinv
          exact htaken ⟨⟨strace, rfl⟩, not_or.1 hinv⟩
        simp only [if_pos hinv]
      | none | some .null | some (.bool _) | some (.int _) | some (.real _) | some (.str _) | some (.obj _) => rfl
  | none => exact .inr (hrefuse _ eType he (by decide) (hstart _))
  | some .null | some (.bool _) | some (.int _) | some (.real _) | some (.str _) | some (.arr _) =>
    exact .inr (hrefuse _ eType he (by decide) (hstart _))

theorem ErrObject.codes_eq {err oserr err' oserr' : Int} {strace strace' : List (Json R)}
    (h : ErrObject m err oserr strace) (h' : ErrObject m err' oserr' strace') : err = err' ∧ oserr = oserr' := by
  obtain ⟨_, h₁⟩ := h.err_eq
  obtain ⟨_, h₁'⟩ := h'.err_eq
  obtain ⟨_, h₂⟩ := h.oserr_eq
  obtain ⟨_, h₂'⟩ := h'.oserr_eq
  cases h₁.symm.trans h₁'
  cases h₂.symm.trans h₂'
  exact ⟨rfl, rfl⟩

/-! ### Steps and runs -/

open ErrOp

/-- A step from a consistent state leads to a consistent one just when it keeps the codes. -/
theorem ErrOp.step_consistent (h : e.Consistent) (op : ErrOp R) :
    ∃ r e', op.step e = some (r, e') ∧ (op.Meets e r e' ↔ op.KeepsCodes e) ∧ (op.KeepsCodes e → e'.Consistent) := by
  have hkeeps {r : Int} {e' : ErrState} (hop : op ≠ .clear) (hc : e'.Consistent) (hk : op.KeepsCodes e) :
      (op.Meets e r e' ↔ op.KeepsCodes e) ∧ (op.KeepsCodes e → e'.Consistent) :=
    ⟨iff_of_true ⟨hc, fun h => absurd h hop⟩ hk, fun _ => hc⟩
  cases op with
  | set l err oserr msg =>
    by_cases herr : err = eOkay
    · refine ⟨0, e.cleared, ?_, hkeeps (by simp) h.cleared trivial⟩
      show errVset l err oserr msg e = _
      unfold errVset
      by_cases hf : e.frozen = true
      · rw [if_pos hf, ErrState.cleared, if_pos hf]
      · rw [if_neg hf, errClear_run, Option.bind_some, if_pos herr]
    · exact ⟨_, _, errVset_run e l err oserr msg herr, hkeeps (by simp) (h.raised l oserr msg herr) trivial⟩
  | trace l msg => exact ⟨_, _, errVtrace_run e l msg, hkeeps (by simp) (h.traced l msg) trivial⟩
  | clear =>
    refine ⟨0, e.cleared, errClear_run e, iff_of_true ⟨h.cleared, fun _ hf => ?_⟩ trivial, fun _ => h.cleared⟩
    rw [ErrState.cleared, if_neg (by rw [hf]; decide)]
    exact ⟨rfl, rfl, rfl⟩
  | freeze frozen => exact ⟨0, { e with frozen := frozen }, rfl, hkeeps (by simp) h trivial⟩
  | setjson error =>
    by_cases hf : e.frozen = true
    · have hrun : errSetjson error e = some (0, e) := by
        show (if e.frozen = true then return 0 else _ : ErrM Int) e = _
        rw [if_pos hf]
        rfl
      exact ⟨0, e, hrun, hkeeps (by simp) h fun hf' => by rw [hf] at hf'; cases hf'⟩
    have he : e.frozen = false := Bool.not_eq_true _ ▸ hf
    rcases errSetjson_cases error he with ⟨m, err, oserr, strace, rfl, hobj, hinv₁, hinv₂⟩ | ⟨r, e₁, l, err, hrun, he₁, herr⟩
    · have hcodes : (⟨false, toInt err, UInt32.ofInt oserr, []⟩ : ErrState).Consistent ↔
          (ErrOp.setjson (some (.obj m))).KeepsCodes e := by
        refine ⟨fun hc _ m' err' oserr' strace' hm' hobj' _ _ => ?_, fun hk hne => hk he m err oserr strace rfl hobj hinv₁ hinv₂ hne⟩
        cases hm'
        obtain ⟨rfl, rfl⟩ := hobj.codes_eq hobj'
        exact hc
      exact ⟨0, _, errSetjson_run hobj hinv₁ hinv₂ he, ⟨fun hm => hcodes.1 hm.1, fun hk => ⟨hcodes.2 hk, by simp⟩⟩, hcodes.2⟩
    · have hraised : e₁.raised l err 0 none = ⟨false, err, 0, [⟨l.file, l.func, l.line, none⟩]⟩ :=
        if_neg (by rw [he₁]; decide)
      rw [hraised] at hrun
      refine ⟨r, _, hrun, hkeeps (by simp) (fun _ => herr) ?_⟩
      -- the trace of the refusal
      rintro - m err' oserr strace rfl hobj hinv₁ hinv₂
      have hstrace := congrArg (fun p => p.2.strace) (Option.some.inj (hrun.symm.trans (errSetjson_run hobj hinv₁ hinv₂ he)))
      cases hstrace

/-- Every state that is reached keeps the codes together, and every unfrozen clear leaves no error, just when no
`pcl_err_setjson` is given an object with a code of the system alone. -/
theorem errRun_consistent_iff (R : Type) (ops : List (ErrOp R)) :
    Follow.Always ErrOp.step (fun e op r e' => op.Meets e r e') .zero ops ↔
      Follow.Always ErrOp.step (fun e op _ _ => op.KeepsCodes e) .zero ops :=
  Follow.always_iff (fun e op (h : e.Consistent) => ErrOp.step_consistent h op) ErrState.consistent_zero

/-- The object `{"err": 0, "oserr": 5, "strace": []}` in a new state. -/
theorem errRun_oserr_alone : ¬ Follow.Always ErrOp.step (fun e op r e' => op.Meets e r e') .zero
    [ErrOp.setjson (R := Unit) (some (.obj [(.lit "err", .int 0), (.lit "oserr", .int 5), (.lit "strace", .arr [])]))] := by
  rintro ⟨r, e', hrun, ⟨hc, -⟩, -⟩
  have hobj : ErrObject (R := Unit) [(.lit "err", .int 0), (.lit "oserr", .int 5), (.lit "strace", .arr [])] 0 5 [] :=
    ⟨⟨_, rfl⟩, ⟨_, rfl⟩, ⟨_, rfl⟩⟩
  cases hrun.symm.trans (errSetjson_run hobj (by decide) (by decide) rfl)
  exact hc (by decide) rfl

end
end Pcl

import Pcl.Bytes

/-!
# The per-thread error state

`tag_pcl_err` with the primitives that read and write it. Everything in the library that can fail
goes through them, so the operations of the containers live in `ErrM`: they thread the error state,
and have no result (`none`) where the C program has no defined behaviour. The cached output buffer
of `tag_pcl_err` is left out: no modelled function reads it back. The OS's own `errno`, which
`pcl_err_clear` resets, is not part of it either: a function that reads it after a call that may have
set an error has it in its own state (`Unix.oserrno`).
-/

namespace Pcl

/-! ### Error codes (`_errno.h`) -/

def eOkay : Int := 0
def eExist : Int := 13
def eIlseq : Int := 16
def eInval : Int := 18
def eRange : Int := 41
def eIndex : Int := 47
def eBuf : Int := 48
def eFormat : Int := 49
def eType : Int := 50
def eNotfound : Int := 55
def eEof : Int := 56
def eTimeout : Int := 58
def eSyntax : Int := 91
def eInvcodept : Int := 94

/-- `PCL_LOCATION_ARGS`: where a call of an error macro stands. -/
structure Loc where
  file : Option CStr
  func : Option CStr
  line : Int
deriving DecidableEq

/-- The location of a call at line `line` of the library function `func`. -/
def loc (file func : String) (line : Int) : Loc := ⟨some (.lit file), some (.lit func), line⟩

/-- `tag_pcl_err_trace`; the `next` pointers are the list `ErrState.strace`. -/
structure Trace where
  file : Option CStr
  func : Option CStr
  line : Int
  msg : Option CStr
deriving DecidableEq

/-- What a failing function sets, without the place it sets it at. -/
structure Fault where
  err : Int
  oserr : UInt32
  msg : Option CStr
deriving DecidableEq

/-- `tag_pcl_err`. -/
structure ErrState where
  frozen : Bool
  err : Int
  oserr : UInt32
  strace : List Trace
deriving DecidableEq

/-- The state of a thread that has set no error. -/
def ErrState.zero : ErrState := ⟨false, eOkay, 0, []⟩

/-- A computation of the library: it threads the error state, `none` is undefined behaviour. -/
abbrev ErrM (α : Type) := ErrState → Option (α × ErrState)

namespace ErrM
variable {α β : Type}

instance : Monad ErrM where
  pure a := fun e => some (a, e)
  bind x f := fun e => (x e).bind fun p => f p.1 p.2

@[simp] theorem pure_run (a : α) (e : ErrState) : (pure a : ErrM α) e = some (a, e) := rfl

@[simp] theorem bind_run (x : ErrM α) (f : α → ErrM β) (e : ErrState) :
    (x >>= f) e = (x e).bind fun p => f p.1 p.2 := rfl

/-- No defined behaviour. -/
def undef : ErrM α := fun _ => none

end ErrM

/-- The state after an error was set; a frozen state stays as it is. -/
def ErrState.raised (e : ErrState) (l : Loc) (err : Int) (oserr : UInt32) (msg : Option CStr) : ErrState :=
  if e.frozen then e else ⟨false, err, oserr, [⟨l.file, l.func, l.line, msg⟩]⟩

/-- The state after a trace was added; a frozen state stays as it is. -/
def ErrState.traced (e : ErrState) (l : Loc) (msg : Option CStr) : ErrState :=
  if e.frozen then e else { e with strace := ⟨l.file, l.func, l.line, msg⟩ :: e.strace }

/-- The state after it was cleared; a frozen state stays as it is. -/
def ErrState.cleared (e : ErrState) : ErrState :=
  if e.frozen then e else { e with err := eOkay, oserr := 0, strace := [] }

/-- The state after `pcl_err_freeze(false)`. -/
def ErrState.thawed (e : ErrState) : ErrState := { e with frozen := false }

/-! ### The primitives -/

/-- `pcl_err_freeze`. -/
def errFreeze (freeze : Bool) : ErrM Unit := fun e => some ((), { e with frozen := freeze })

/-- `pcl_err_clear`: a frozen state is not cleared. -/
def errClear : ErrM Int := fun e =>
  if e.frozen then some (0, e) else some (0, { e with err := eOkay, oserr := 0, strace := [] })

/-- `pcl_err_vtrace`; `msg` is the formatted message, `none` for an absent or empty format. -/
def errVtrace (l : Loc) (msg : Option CStr) : ErrM Int := fun e =>
  if e.frozen then some (0, e)
  else some (if e.err = eOkay then 0 else -1,
    { e with strace := ⟨l.file, l.func, l.line, msg⟩ :: e.strace })

/-- `pcl_err_vset`. -/
def errVset (l : Loc) (err : Int) (oserr : UInt32) (msg : Option CStr) : ErrM Int := fun e =>
  if e.frozen then some (0, e)
  else (errClear e).bind fun p =>
    if err = eOkay then some (0, p.2)
    else errVtrace l msg { p.2 with err := err, oserr := oserr }

/-- `SETERR`. -/
def setErr (l : Loc) (err : Int) : ErrM Int := errVset l err 0 none

/-- `SETERRMSG`. -/
def setErrMsg (l : Loc) (err : Int) (msg : String) : ErrM Int := errVset l err 0 (some (.lit msg))

/-- `TRC`. -/
def trc (l : Loc) : ErrM Int := errVtrace l none

/-- `BADARG`. -/
def badArg (l : Loc) : ErrM Int := setErr l eInval

section
variable (e : ErrState) (l : Loc) (err : Int) (oserr : UInt32) (msg : Option CStr)

@[simp] theorem errFreeze_run (freeze : Bool) : errFreeze freeze e = some ((), { e with frozen := freeze }) := rfl

@[simp] theorem errClear_run : errClear e = some (0, e.cleared) := by
  unfold errClear ErrState.cleared
  split <;> rfl

@[simp] theorem errVtrace_run :
    errVtrace l msg e = some (if e.frozen ∨ e.err = eOkay then 0 else -1, e.traced l msg) := by
  unfold errVtrace ErrState.traced
  by_cases hf : e.frozen
  · simp [hf]
  · simp [hf]

theorem errVset_run (h : err ≠ eOkay) :
    errVset l err oserr msg e = some (if e.frozen then 0 else -1, e.raised l err oserr msg) := by
  unfold errVset ErrState.raised
  by_cases hf : e.frozen
  · simp [hf]
  · simp [hf, h, ErrState.cleared, ErrState.traced]

theorem setErr_run (h : err ≠ eOkay) :
    setErr l err e = some (if e.frozen then 0 else -1, e.raised l err 0 none) :=
  errVset_run e l err 0 none h

theorem setErrMsg_run (msg : String) (h : err ≠ eOkay) :
    setErrMsg l err msg e = some (if e.frozen then 0 else -1, e.raised l err 0 (some (.lit msg))) :=
  errVset_run e l err 0 _ h

@[simp] theorem badArg_run : badArg l e = some (if e.frozen then 0 else -1, e.raised l eInval 0 none) :=
  setErr_run e l eInval (by decide)

@[simp] theorem trc_run : trc l e = some (if e.frozen ∨ e.err = eOkay then 0 else -1, e.traced l none) :=
  errVtrace_run e l none

@[simp] theorem raised_frozen : (e.raised l err oserr msg).frozen = e.frozen := by
  unfold ErrState.raised
  split
  · rfl
  · simp_all

@[simp] theorem traced_frozen : (e.traced l msg).frozen = e.frozen := by
  unfold ErrState.traced
  split <;> rfl

@[simp] theorem cleared_frozen : e.cleared.frozen = e.frozen := by
  unfold ErrState.cleared
  split <;> rfl

theorem errVset_keeps : ∃ r e', errVset l err oserr msg e = some (r, e') ∧ e'.frozen = e.frozen := by
  unfold errVset
  split
  · exact ⟨_, _, rfl, rfl⟩
  · rw [errClear_run, Option.bind_some]
    split
    · exact ⟨_, _, rfl, cleared_frozen e⟩
    · exact ⟨_, _, errVtrace_run _ _ _, by rw [traced_frozen]; exact cleared_frozen e⟩

theorem errVset_returns : ∃ r e', errVset l err oserr msg e = some (r, e') := by
  obtain ⟨r, e', h, -⟩ := errVset_keeps e l err oserr msg
  exact ⟨r, e', h⟩

theorem raised_err (h : e.frozen = false) : (e.raised l err oserr msg).err = err := by
  simp [ErrState.raised, h]

@[simp] theorem traced_err : (e.traced l msg).err = e.err := by
  unfold ErrState.traced
  split <;> rfl

end

/-- `R_SETERR(NULL, err)`. -/
def setErrNull {α : Type} (l : Loc) (err : Int) : ErrM (Option α) := do
  let _ ← setErr l err
  return none

/-- `R_TRC(NULL)`. -/
def trcNull {α : Type} (l : Loc) : ErrM (Option α) := do
  let _ ← trc l
  return none

section
variable {α : Type} (e : ErrState) (l : Loc) (err : Int)

theorem setErrNull_run (h : err ≠ eOkay) :
    (setErrNull l err : ErrM (Option α)) e = some (none, e.raised l err 0 none) := by
  simp only [setErrNull, ErrM.bind_run, setErr_run _ _ _ h, Option.bind_some, ErrM.pure_run]

@[simp] theorem trcNull_run : (trcNull l : ErrM (Option α)) e = some (none, e.traced l none) := by
  simp only [trcNull, ErrM.bind_run, trc_run, Option.bind_some, ErrM.pure_run]

end

/-! ### They fail -/

theorem errVset_fails {e : ErrState} (he : e.frozen = false) (l : Loc) {err : Int} (herr : err ≠ eOkay) (oserr : UInt32)
    (msg : Option CStr) :
    ∃ e', errVset l err oserr msg e = some (-1, e') ∧ e'.frozen = false ∧ e'.err = err := by
  refine ⟨_, errVset_run e l err oserr msg herr |>.trans (by rw [he]; rfl), ?_, raised_err _ _ _ _ _ he⟩
  rw [raised_frozen, he]

theorem errVtrace_fails {e : ErrState} (he : e.frozen = false) (herr : e.err ≠ eOkay) (l : Loc) (msg : Option CStr) :
    ∃ e', errVtrace l msg e = some (-1, e') ∧ e'.frozen = false ∧ e'.err = e.err := by
  refine ⟨_, (errVtrace_run e l msg).trans (by simp [he, herr]; rfl), ?_, traced_err _ _ _⟩
  rw [traced_frozen, he]

/-! ### What a computation does to a frozen state -/

/-- How a computation moves the error state: it leaves it unfrozen if it thaws, else it keeps the flag, and a
frozen state as a whole. -/
structure ErrState.Moves (thaws : Prop) (e e' : ErrState) : Prop where
  thawed : thaws → e'.frozen = false
  kept : ¬ thaws → e'.frozen = e.frozen
  same : ¬ thaws → e.frozen = true → e' = e

namespace ErrState.Moves
variable {e e₁ e₂ : ErrState} {t u : Prop}

theorem refl (e : ErrState) : Moves False e e := ⟨False.elim, fun _ => rfl, fun _ _ => rfl⟩

theorem congr (h : Moves t e e₁) (htu : t ↔ u) : Moves u e e₁ where
  thawed hu := h.thawed (htu.2 hu)
  kept hu := h.kept fun ht => hu (htu.1 ht)
  same hu := h.same fun ht => hu (htu.1 ht)

theorem trans (h : Moves t e e₁) (h' : Moves u e₁ e₂) : Moves (t ∨ u) e e₂ where
  thawed htu := by
    by_cases hu : u
    · exact h'.thawed hu
    · rw [h'.kept hu]
      exact h.thawed (htu.resolve_right hu)
  kept htu := by
    rw [not_or] at htu
    rw [h'.kept htu.2, h.kept htu.1]
  same htu hf := by
    rw [not_or] at htu
    have h₁ := h.same htu.1 hf
    rw [h'.same htu.2 (by rw [h₁]; exact hf), h₁]

theorem raised (e : ErrState) (l : Loc) (err : Int) (oserr : UInt32) (msg : Option CStr) :
    Moves False e (e.raised l err oserr msg) :=
  ⟨False.elim, fun _ => raised_frozen e l err oserr msg, fun _ hf => if_pos hf⟩

theorem traced (e : ErrState) (l : Loc) (msg : Option CStr) : Moves False e (e.traced l msg) :=
  ⟨False.elim, fun _ => traced_frozen e l msg, fun _ hf => if_pos hf⟩

theorem cleared (e : ErrState) : Moves False e e.cleared :=
  ⟨False.elim, fun _ => cleared_frozen e, fun _ hf => if_pos hf⟩

end ErrState.Moves

/-- The computation has the result `a` in every error state. -/
def ErrM.Yields {α : Type} (x : ErrM α) (a : α) (thaws : Prop) : Prop :=
  ∀ e, ∃ e', x e = some (a, e') ∧ e.Moves thaws e'

namespace ErrM.Yields
variable {α β : Type} {x : ErrM α} {f : α → ErrM β} {a : α} {b : β} {t u : Prop}

theorem pure (a : α) : (Pure.pure a : ErrM α).Yields a False := fun e => ⟨e, rfl, .refl e⟩

theorem bind (hx : x.Yields a t) (hf : (f a).Yields b u) : (x >>= f).Yields b (t ∨ u) := by
  intro e
  obtain ⟨e₁, h₁, hm₁⟩ := hx e
  obtain ⟨e₂, h₂, hm₂⟩ := hf e₁
  exact ⟨e₂, by rw [ErrM.bind_run, h₁, Option.bind_some, h₂], hm₁.trans hm₂⟩

theorem congr (hx : x.Yields a t) (h : t ↔ u) : x.Yields a u := by
  intro e
  obtain ⟨e', h', hm⟩ := hx e
  exact ⟨e', h', hm.congr h⟩

end ErrM.Yields

end Pcl

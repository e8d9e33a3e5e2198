import Pcl.Process.ExecRun

/-!
# A stream to a program

`popen.c` and `fdopen.c` of `src/io` over `pcl_proc_exec`. The C library refuses a stream on a descriptor that cannot do
what the mode of the stream says. The file objects of `pcl_proc_exec` say of no pipe what can be done with it, so there
is never a stream, and the program has been started.
-/

namespace Pcl
open FdTable Forked

/-- `EBADF`. -/
def errBadf : UInt32 := 9

/-- `EINVAL`. -/
def errInval : UInt32 := 22

/-- A mode of `fdopen`. -/
inductive StreamMode where
  | r
  | w
  | wPlus
deriving DecidableEq

namespace StreamMode

def reads (mode : StreamMode) : Bool := mode ≠ w

def writes (mode : StreamMode) : Bool := mode ≠ r

end StreamMode

/-- `fdopen`: its error, if any. One end of a pipe can only be read from and the other only be written to; `fails` is for
other errors, such as a lack of memory. -/
def sysFdopen (fails : Option Oserr) (fds : FdTable OpenFile) (fd : Option Nat) (mode : StreamMode) : Option Oserr :=
  match fd.bind fds.file with
  | none => some ⟨errBadf, by decide⟩
  | some (.pipe _ write) => if (mode.reads && write) || (mode.writes && !write) then some ⟨errInval, by decide⟩ else fails
  | some (.other _) => fails

variable (sys : UnixSystem) (fails : Option Oserr)

/-- `pcl_fdopen`: the descriptor of the stream; the file object is freed then. -/
def UnixSystem.pclFdopen (file : Option PFile) (fds : FdTable OpenFile) : ErrM (Option Nat) :=
  match file with
  | none => setErrNull (loc "fdopen.c" "pcl_fdopen" 48) eInval
  | some file =>
    let mode : StreamMode := if file.flags.read && file.flags.write then .wPlus else if file.flags.write then .w else .r
    match sysFdopen fails fds file.fd mode with
    | some oserr => do
      let _ ← errVset (loc "fdopen.c" "pcl_fdopen" 89) (sys.os2pcl oserr) oserr none
      return none
    | none => do
      fileClose (some file.flags.flock) []
      return file.fd

/-- The mode of a command. -/
def popenStd (c : UInt8) : Option Std :=
  if c = 60 then some .stdout else if c = 62 then some .stdin else if c = 94 then some .stderr else none

/-- The mode, its flag and the format, from the first character that is no space. -/
def popenMode (rest : List UInt8) : Option (Std × Bool × CStr) :=
  (popenStd (rest.headD 0)).map fun std =>
    let nonblock := rest.tail.head? = some 33
    (std, nonblock, .ofBytes ((if nonblock then rest.tail.tail else rest.tail).dropWhile isspace))

/-- What `pcl_vaspprintf` makes of a format and the arguments, or its negative result. -/
abbrev Formatter := CStr → Except {r : Int // r < 0} CStr

/-- The command, as far as `pcl_proc_exec`. -/
def popenCommand (format : Formatter) (command : Option CStr) : ErrM (Option (Std × Bool × CStr)) :=
  match (command.map CStr.bytes).getD [] with
  | [] => do
    let _ ← setErrMsg (loc "popen.c" "pcl_popen" 48) eInval "command must be provided"
    return none
  | b :: bytes =>
    let rest := (b :: bytes).dropWhile isspace
    match popenMode rest with
    | none => do
      let _ ← errVset (loc "popen.c" "pcl_popen" 61) eInval 0
        (some (.ofBytes (txt "invalid command mode '" ++ [rest.headD 0] ++ txt "'")))
      return none
    | some (std, nonblock, text) =>
      match format text with
      | .error r => setErrNull (loc "popen.c" "pcl_popen" 87) (-r.1)
      | .ok cmd => return some (std, nonblock, cmd)

def popenFlags (std : Std) (nonblock : Bool) : ExecFlags where
  stream std' := std' = std
  streamNb std' := nonblock && std' = std
  shell := false
  handle := false
  ldpath := false

def popenArgs (cmd : CStr) : ExecArgs := ⟨some cmd, none, none, none, none⟩

/-- What follows `pcl_proc_exec`: the stream, and the descriptors. -/
def popenStream (r : Int) (out : ExecOut) (fds : FdTable OpenFile) : ErrM (Option Nat × FdTable OpenFile) :=
  if r ≠ 0 then do
    let stream ← trcNull (loc "popen.c" "pcl_popen" 95)
    return (stream, fds)
  else do
    let f := ((out.files .stdin).or (out.files .stdout)).or (out.files .stderr)
    match ← sys.pclFdopen fails f fds with
    | some fd => return (some fd, fds)
    | none =>
      fileClose (f.map fun f => f.flags.flock) []
      let _ ← trc (loc "popen.c" "pcl_popen" 108)
      return (none, match f.bind PFile.fd with
        | some fd => fds.close fd
        | none => fds)

/-- The ways that `pcl_popen` can go: the stream and the descriptors it leaves, and the fate of the child if there is
one. -/
inductive PopenRuns (tl : Tolower) (format : Formatter) (command : Option CStr) (u : Unix) (e : ErrState) :
    Option Nat × FdTable OpenFile → Option ChildFate → ErrState → Prop
  | refused {e' : ErrState} (hcommand : popenCommand format command e = some (none, e')) :
    PopenRuns tl format command u e (none, u.fds) none e'
  | failed {std : Std} {nonblock : Bool} {cmd : CStr} {r : Int} {out : ExecOut} {u' : Unix} {e₁ e₂ e' : ErrState}
    {res : Option Nat × FdTable OpenFile}
    (hcommand : popenCommand format command e = some (some (std, nonblock, cmd), e₁))
    (hfork : procExecFork sys tl (popenArgs cmd) (popenFlags std nonblock) u e₁ = some ((.error (r, out), u'), e₂))
    (hstream : popenStream sys fails r out u'.fds e₂ = some (res, e')) : PopenRuns tl format command u e res none e'
  | forked {std : Std} {nonblock : Bool} {cmd : CStr} {f : ExecFork} {n m : Nat} {r : Int} {out : ExecOut} {u' : Unix}
    {s : Forked OpenFile Int} {e₁ e₂ e₃ e' : ErrState} {res : Option Nat × FdTable OpenFile}
    (hcommand : popenCommand format command e = some (some (std, nonblock, cmd), e₁))
    (hforks : Forks sys tl (popenArgs cmd) (popenFlags std nonblock) u e₁ f u' e₂ n)
    (hs : Schedule n m (forked f (f.fate sys (popenArgs cmd) (popenFlags std nonblock) e₂) u') s)
    (hdone : s.parentActs = [])
    (hresult : procExecResult sys (popenArgs cmd) (popenFlags std nonblock) f s.got e₂ = some ((r, out), e₃))
    (hstream : popenStream sys fails r out s.parent e₃ = some (res, e')) :
    PopenRuns tl format command u e res (some (f.fate sys (popenArgs cmd) (popenFlags std nonblock) e₂)) e'

section
variable {sys : UnixSystem} {tl : Tolower} {format : Formatter} {command : Option CStr}
  {std : Std} {nonblock : Bool} {cmd : CStr} {u u' : Unix} {e e' : ErrState}

/-- A command that is accepted leaves the error state as it was. -/
theorem popenCommand_err (h : popenCommand format command e = some (some (std, nonblock, cmd), e')) : e' = e := by
  unfold popenCommand at h
  cases hbytes : (command.map CStr.bytes).getD [] with
  | nil =>
    simp only [hbytes] at h
    obtain ⟨x, -, hx⟩ := Option.bind_eq_some_iff.1 h
    cases hx
  | cons b bytes =>
    simp only [hbytes] at h
    cases hmode : popenMode ((b :: bytes).dropWhile isspace) with
    | none =>
      simp only [hmode] at h
      obtain ⟨x, -, hx⟩ := Option.bind_eq_some_iff.1 h
      cases hx
    | some mode =>
      simp only [hmode] at h
      cases hformat : format mode.2.2 with
      | error r =>
        simp only [hformat] at h
        obtain ⟨x, -, hx⟩ := Option.bind_eq_some_iff.1 h
        cases hx
      | ok cmd =>
        simp only [hformat] at h
        cases h
        rfl

theorem popenCommand_returns (format : Formatter) (command : Option CStr) (e : ErrState) :
    ∃ r e', popenCommand format command e = some (r, e') := by
  unfold popenCommand
  cases hbytes : (command.map CStr.bytes).getD [] with
  | nil =>
    refine ⟨none, e.raised (loc "popen.c" "pcl_popen" 48) eInval 0 (some (.lit "command must be provided")), ?_⟩
    simp only [setErrMsg, ErrM.bind_run, errVset_run _ _ _ _ _ (show eInval ≠ eOkay by decide), Option.bind_some,
        ErrM.pure_run]
  | cons b bytes =>
    cases hmode : popenMode ((b :: bytes).dropWhile isspace) with
    | none =>
      refine ⟨none, e.raised (loc "popen.c" "pcl_popen" 61) eInval 0 (some (.ofBytes (txt "invalid command mode '" ++
        [((b :: bytes).dropWhile isspace).headD 0] ++ txt "'"))), ?_⟩
      simp only [hmode, ErrM.bind_run, errVset_run _ _ _ _ _ (show eInval ≠ eOkay by decide), Option.bind_some,
        ErrM.pure_run]
    | some mode =>
      cases hformat : format mode.2.2 with
      | error r =>
        have hne : -r.1 ≠ eOkay := by
          have := r.2
          unfold eOkay
          omega
        refine ⟨none, e.raised (loc "popen.c" "pcl_popen" 87) (-r.1) 0 none, ?_⟩
        simp only [hmode, hformat, setErrNull_run _ _ _ hne]
      | ok cmd => exact ⟨some (mode.1, mode.2.1, cmd), e, by simp only [hmode, hformat, ErrM.pure_run]⟩

theorem popenStream_failed (sys : UnixSystem) (fails : Option Oserr) {r : Int} (hr : r ≠ 0) (out : ExecOut)
    (fds : FdTable OpenFile) (e : ErrState) :
    popenStream sys fails r out fds e = some ((none, fds), e.traced (loc "popen.c" "pcl_popen" 95) none) := by
  simp only [popenStream, if_pos hr, ErrM.bind_run, trcNull_run, Option.bind_some, ErrM.pure_run]

/-- There is no file to open a stream on. -/
theorem popenStream_none (sys : UnixSystem) (fails : Option Oserr) (r : Int) {out : ExecOut}
    (hfiles : out.files = fun _ => none) (fds : FdTable OpenFile) (e : ErrState) :
    ∃ e', popenStream sys fails r out fds e = some ((none, fds), e') := by
  by_cases hr : r ≠ 0
  · exact ⟨_, popenStream_failed sys fails hr out fds e⟩
  · have hnull : sys.pclFdopen fails none fds e = some (none, e.raised (loc "fdopen.c" "pcl_fdopen" 48) eInval 0 none) :=
      setErrNull_run _ _ _ (by decide)
    refine ⟨(e.raised (loc "fdopen.c" "pcl_fdopen" 48) eInval 0 none).traced (loc "popen.c" "pcl_popen" 108) none, ?_⟩
    simp only [popenStream, if_neg hr, hfiles, Option.or_none, ErrM.bind_run, hnull, Option.bind_some, Option.map_none,
      fileClose_run, trc_run, ErrM.pure_run, Option.bind_none]
    rfl

/-- A stream that is refused: the error is that of `fdopen`, and the descriptor is closed. -/
theorem popenStream_refused (sys : UnixSystem) {fails : Option Oserr} {out : ExecOut} {fds : FdTable OpenFile}
    {file : PFile} {fd : Nat} {oserr : Oserr}
    (hfile : ((out.files .stdin).or (out.files .stdout)).or (out.files .stderr) = some file) (hfd : file.fd = some fd)
    (hrefused : sysFdopen fails fds file.fd (if file.flags.read && file.flags.write then .wPlus
      else if file.flags.write then .w else .r) = some oserr) (he : e.frozen = false) :
    ∃ e', popenStream sys fails 0 out fds e = some ((none, fds.close fd), e') ∧ e'.err = sys.os2pcl oserr := by
  have hne : sys.os2pcl oserr ≠ eOkay := fun h => oserr.2 ((sys.okay_iff oserr).1 h)
  obtain ⟨e₁, hset, hf₁, herr₁⟩ := errVset_fails he (loc "fdopen.c" "pcl_fdopen" 89) hne oserr none
  refine ⟨e₁.thawed.traced (loc "popen.c" "pcl_popen" 108) none, ?_, ?_⟩
  · have hopen : sys.pclFdopen fails (some file) fds e = some (none, e₁) := by
      simp only [UnixSystem.pclFdopen, hrefused, ErrM.bind_run, hset, Option.bind_some, ErrM.pure_run]
    simp only [popenStream, ne_eq, not_true_eq_false, if_false, hfile, ErrM.bind_run, hopen, Option.bind_some,
      Option.map_some, fileClose_run, trc_run, ErrM.pure_run, hfd]
    rfl
  · rw [traced_err]
    exact herr₁

/-- Without an error of the child: the file object of the one pipe says nothing, or too much, of what it can do. -/
theorem popenStream_forked (fails : Option Oserr) (he : e.frozen = false) (hparse : (popenArgs cmd).Parses e)
    (hfresh : u.Fresh) (hopen : ∀ std : Std, (u.fds std.fd).isSome = true) {f : ExecFork} {n m : Nat}
    {s : Forked OpenFile Int}
    (hforks : Forks sys tl (popenArgs cmd) (popenFlags std nonblock) u e f u' e' n)
    (hs : Schedule n m (forked f (f.fate sys (popenArgs cmd) (popenFlags std nonblock) e') u') s)
    (hdone : s.parentActs = [])
    (hfate : (f.fate sys (popenArgs cmd) (popenFlags std nonblock) e').reported = none) (out : ExecOut)
    (hout : out.files = f.spawn.files) :
    ∃ e₁, popenStream sys fails 0 out s.parent e' = some ((none, u.fds), e₁) ∧ e₁.err = sys.os2pcl errInval := by
  obtain ⟨hf', ends, hp⟩ := hforks.parting he hparse
  obtain ⟨u₁, hs₁, -⟩ := id hp.before
  have hparent := procExec_parent sys tl (popenArgs cmd) (popenFlags std nonblock) u e he hparse hfresh hopen hforks hs
    hdone
  obtain ⟨hstreams, hfiles, hrest⟩ : (∀ std', (f.spawn.files std').isSome = true ↔
        (popenFlags std nonblock).stream std' = true ∨ (popenFlags std nonblock).streamNb std' = true) ∧
      (∀ std' file, f.spawn.files std' = some file → ∃ fd k, file.fd = some fd ∧ u.fds fd = none ∧
        s.parent fd = some ⟨.pipe k std'.writes, true⟩) ∧
      ∀ fd, (∀ std' file, f.spawn.files std' = some file → file.fd ≠ some fd) → s.parent fd = u.fds fd := by
    cases hchild : f.fate sys (popenArgs cmd) (popenFlags std nonblock) e' with
    | failed err =>
      rw [hchild] at hfate
      cases hfate
    | silent | runs =>
      rw [hchild] at hparent
      refine ⟨hparent.1, fun std' file hfile => ?_, hparent.2.2⟩
      obtain ⟨fd, k, hfd, hunused, hthere, -⟩ := hparent.2.1 std' file hfile
      exact ⟨fd, k, hfd, hunused, hthere⟩
  -- there is one file
  have hothers (std' : Std) (hne : std' ≠ std) : f.spawn.files std' = none := by
    rw [← Option.not_isSome_iff_eq_none, hstreams]
    simp [popenFlags, hne]
  obtain ⟨file, hfile⟩ := Option.isSome_iff_exists.1 ((hstreams std).2 (.inl (by simp [popenFlags])))
  obtain ⟨fd, k, hfd, hunused, hthere⟩ := hfiles std file hfile
  obtain ⟨x, hx, -⟩ := hp.handle hfile
  have hhandle : file = x.handle (popenFlags std nonblock) std := by
    rw [hs₁.files, hx] at hfile
    exact (Option.some.inj hfile).symm
  have hfirst : ((out.files .stdin).or (out.files .stdout)).or (out.files .stderr) = some file := by
    rw [hout]
    cases std with
    | stdin => rw [hfile, hothers .stdout (by decide), hothers .stderr (by decide)]; rfl
    | stdout => rw [hfile, hothers .stdin (by decide), hothers .stderr (by decide)]; rfl
    | stderr => rw [hfile, hothers .stdin (by decide), hothers .stdout (by decide)]; rfl
  have hopened : file.fd.bind s.parent.file = some (.pipe k std.writes) := by
    rw [hfd]
    simp [FdTable.file, hthere]
  have hrefused : sysFdopen fails s.parent file.fd (if file.flags.read && file.flags.write then .wPlus
      else if file.flags.write then .w else .r) = some ⟨errInval, by decide⟩ := by
    unfold sysFdopen
    rw [hopened, hhandle]
    cases std <;> rfl
  obtain ⟨e₁, hrun, herr⟩ := popenStream_refused sys hfirst hfd hrefused hf'
  refine ⟨e₁, ?_, herr⟩
  have hclosed : s.parent.close fd = u.fds := by
    funext fd'
    by_cases heq : fd' = fd
    · rw [heq, FdTable.close, Function.update_self, hunused]
    · rw [FdTable.close, Function.update_of_ne heq]
      refine hrest fd' fun std' file' hfile' hfd' => heq ?_
      by_cases hstd : std' = std
      · rw [hstd, hfile] at hfile'
        cases hfile'
        exact Option.some.inj (hfd'.symm.trans hfd)
      · rw [hothers std' hstd] at hfile'
        cases hfile'
  rw [hrun, hclosed]

/-- What the caller makes of the two processes, when it has made its calls. -/
theorem popen_forked (fails : Option Oserr) (he : e.frozen = false) (hparse : (popenArgs cmd).Parses e)
    (hfresh : u.Fresh) (hopen : ∀ std : Std, (u.fds std.fd).isSome = true) {f : ExecFork} {n m : Nat}
    {s : Forked OpenFile Int} (hforks : Forks sys tl (popenArgs cmd) (popenFlags std nonblock) u e f u' e' n)
    (hs : Schedule n m (forked f (f.fate sys (popenArgs cmd) (popenFlags std nonblock) e') u') s)
    (hdone : s.parentActs = []) :
    ∃ r out e₁ e₂, procExecResult sys (popenArgs cmd) (popenFlags std nonblock) f s.got e' = some ((r, out), e₁) ∧
      popenStream sys fails r out s.parent e₁ = some ((none, u.fds), e₂) ∧
      (f.fate sys (popenArgs cmd) (popenFlags std nonblock) e' = .runs → e₂.err = sys.os2pcl errInval) := by
  obtain ⟨hf', ends, hp⟩ := hforks.parting he hparse
  have hparent := procExec_parent sys tl (popenArgs cmd) (popenFlags std nonblock) u e he hparse hfresh hopen hforks hs
    hdone
  have hgot : s.got = (f.fate sys (popenArgs cmd) (popenFlags std nonblock) e').reported := by
    obtain ⟨k, last, -, -, hgot, -, -, hall⟩ :=
      forked_ends hp hfresh hopen (f.fate sys (popenArgs cmd) (popenFlags std nonblock) e')
    obtain ⟨j, -, hj⟩ := hall m s hs
    rw [← hgot, (steps_parent_done hj hdone).2]
  have hfork (hno : (f.fate sys (popenArgs cmd) (popenFlags std nonblock) e').reported = none) :
      ∃ out e₂, procExecResult sys (popenArgs cmd) (popenFlags std nonblock) f none e' = some ((0, out), e') ∧
        popenStream sys fails 0 out s.parent e' = some ((none, u.fds), e₂) ∧ e₂.err = sys.os2pcl errInval := by
    have hout : procExecResult sys (popenArgs cmd) (popenFlags std nonblock) f none e' =
      some ((0, { pid := sys.pid, handle := 0, start := sys.time, files := f.spawn.files }), e') := rfl
    obtain ⟨e₂, hstream, herr⟩ := popenStream_forked fails he hparse hfresh hopen hforks hs hdone hno
      ⟨sys.pid, 0, sys.time, f.spawn.files⟩ rfl
    exact ⟨_, e₂, hout, hstream, herr⟩
  rw [hgot]
  cases hfate : f.fate sys (popenArgs cmd) (popenFlags std nonblock) e' with
  | failed err =>
    have hhears : Hears f (.failed err) (procExecResult sys (popenArgs cmd) (popenFlags std nonblock) f (some err)) e' :=
      procExecResult_hears sys (popenArgs cmd) (popenFlags std nonblock) f hf' fun err' h => childFate_failed (h ▸ hfate)
    obtain ⟨r, out, e₁, hresult, rfl, -, -⟩ := hhears
    rw [hfate] at hparent
    refine ⟨-1, out, e₁, e₁.traced (loc "popen.c" "pcl_popen" 95) none, hresult, ?_, fun h => nomatch h⟩
    rw [popenStream_failed sys fails (by decide), hparent]
  | silent =>
    obtain ⟨out, e₂, hresult, hstream, -⟩ := hfork (by rw [hfate]; rfl)
    exact ⟨0, out, e', e₂, hresult, hstream, fun h => nomatch h⟩
  | runs =>
    obtain ⟨out, e₂, hresult, hstream, herr⟩ := hfork (by rw [hfate]; rfl)
    exact ⟨0, out, e', e₂, hresult, hstream, fun _ => herr⟩

/-- `pcl_popen` returns, and never a stream. The descriptors are as before, also where the program has been started; the
error is then that of a stream on a descriptor that is for the other direction. -/
theorem popen_refuses (sys : UnixSystem) (fails : Option Oserr) (tl : Tolower)
    (format : Formatter) (command : Option CStr) (u : Unix) (e : ErrState) (he : e.frozen = false)
    (hparse : ∀ std nonblock cmd, popenCommand format command e = some (some (std, nonblock, cmd), e) →
      (popenArgs cmd).Parses e)
    (hfresh : u.Fresh) (hopen : ∀ std : Std, (u.fds std.fd).isSome = true) :
    (∃ res fate e', PopenRuns sys fails tl format command u e res fate e') ∧
      ∀ res fate e', PopenRuns sys fails tl format command u e res fate e' →
        res = (none, u.fds) ∧ (fate = some .runs → e'.err = sys.os2pcl errInval) := by
  constructor
  · obtain ⟨r, e₁, hcommand⟩ := popenCommand_returns format command e
    cases r with
    | none => exact ⟨_, _, e₁, .refused hcommand⟩
    | some args =>
      obtain ⟨std, nonblock, cmd⟩ := args
      cases popenCommand_err hcommand
      have hparse := hparse std nonblock cmd hcommand
      rcases procExec_ends sys tl (popenArgs cmd) (popenFlags std nonblock) u e he hparse hfresh hopen with
        ⟨r, out, u', e₂, hfork, -, -, hfiles, -⟩ | ⟨f, u', e₂, n, hforks, k, last, hparent, -, hall, -⟩
      · obtain ⟨e₃, hstream⟩ := popenStream_none sys fails r hfiles u'.fds e₂
        exact ⟨_, _, e₃, .failed hcommand hfork hstream⟩
      · obtain ⟨j, -, hs⟩ := hall 0 _ (.refl _)
        obtain ⟨r, out, e₃, e₄, hresult, hstream, -⟩ := popen_forked fails he hparse hfresh hopen hforks hs hparent
        exact ⟨_, _, e₄, .forked hcommand hforks hs hparent hresult hstream⟩
  · intro res fate e' hruns
    cases hruns with
    | refused hcommand => exact ⟨rfl, fun h => nomatch h⟩
    | @failed std nonblock cmd r out u' e₁ e₂ _ _ hcommand hfork hstream =>
      cases popenCommand_err hcommand
      have hparse := hparse std nonblock cmd hcommand
      rcases procExecFork_spec sys tl (popenFlags std nonblock) u he hparse with
        ⟨r', out', u₁, e₃, hfail, -, hfds, hfiles, -⟩ | ⟨f, u₁, e₃, ends, n, hparts, -⟩
      · cases hfail.symm.trans hfork
        obtain ⟨e₄, hnone⟩ := popenStream_none sys fails r hfiles u'.fds e₂
        cases hnone.symm.trans hstream
        exact ⟨by rw [hfds], fun h => nomatch h⟩
      · cases hparts.symm.trans hfork
    | @forked std nonblock cmd f n m r out u' s e₁ e₂ e₃ _ _ hcommand hforks hs hdone hresult hstream =>
      cases popenCommand_err hcommand
      have hparse := hparse std nonblock cmd hcommand
      obtain ⟨r₁, out₁, e₄, e₅, hresult₁, hstream₁, herr⟩ := popen_forked fails he hparse hfresh hopen hforks hs hdone
      cases hresult₁.symm.trans hresult
      cases hstream₁.symm.trans hstream
      exact ⟨rfl, fun h => herr (Option.some.inj h)⟩

theorem popen_refuses_ls :
    (∃ res fate e', PopenRuns easySystem none .ascii .ok (some (.lit "<ls")) onTerminal .zero res fate e') ∧
      ∀ res fate e', PopenRuns easySystem none .ascii .ok (some (.lit "<ls")) onTerminal .zero res fate e' →
        res = (none, onTerminal.fds) ∧ (fate = some .runs → e'.err = easySystem.os2pcl errInval) := by
  refine popen_refuses easySystem none .ascii .ok (some (.lit "<ls")) onTerminal .zero rfl (fun std nonblock cmd h => ?_)
    onTerminal_fresh onTerminal_open
  have hcommand : popenCommand .ok (some (.lit "<ls")) .zero =
    some (some (.stdout, false, .ofBytes (txt "ls")), .zero) := rfl
  cases hcommand.symm.trans h
  exact lsArgs_parses

end

end Pcl

import Pcl.Process.ExecSpec

/-!
# The parent and the child

After the fork the two processes run side by side. However they are scheduled they come to the same end, so one schedule
says what happens in all: the child makes its calls first, and the parent then finds the error in the pipe, or the pipe
closed.

The parent is left with what it had and the files it asked for, or with what it had where the child failed. The program
has what the parent had open, without what is to be closed, and the other ends of the parent's files as its streams. The
standard streams have to be open for that: the calls that move the ends of the pipes to their places overwrite each
other where a pipe is itself in one of these places.
-/

namespace Pcl
open FdTable Forked

/-- No descriptor refers to a pipe that is still to come. -/
def Unix.Fresh (u : Unix) : Prop := ∀ fd k w, u.fds.file fd = some (.pipe k w) → k < u.pipes

/-- What the child tells the parent. -/
def ChildFate.reported : ChildFate → Option Int
  | failed err => some err
  | silent | runs => none

/-- A stream takes its place. -/
def placed (ends : Std → Option StdPipe) (base : FdTable OpenFile) (std : Std) : FdTable OpenFile :=
  match ends std with
  | none => base
  | some x => Function.update base std.fd (some ⟨.pipe x.n (!std.writes), false⟩)

/-- The descriptors of the program. -/
def programFds (ends : Std → Option StdPipe) (base : FdTable OpenFile) : FdTable OpenFile :=
  (Std.all.foldl (placed ends) base).afterExec

section
variable {sys : UnixSystem} {u u' : Unix} {e : ErrState} {base t : FdTable OpenFile} {flags : ExecFlags} {f : ExecFork}
  {ends : Std → Option StdPipe} {n : Nat} {std : Std} {d : Nat × Descriptor OpenFile}

/-! ### The child -/

/-- The calls for one stream. -/
def stdActs (std : Std) (x : StdPipe) : List OwnAct := [.close x.file, .dup2 x.child std.fd, .close x.child]

theorem childStd_eq (hp : Parting flags u f u' ends n) (std : Std) :
    childStd f.spawn std = (((ends std).map (stdActs std)).getD []).map .own := by
  obtain ⟨u₁, hs, -⟩ := hp.before
  unfold childStd
  rw [hs.childFd, hs.files]
  cases ends std with
  | none => rfl
  | some x => cases std <;> rfl

theorem placed_isSome (hopen : ∀ std : Std, (base std.fd).isSome = true) (ends : Std → Option StdPipe) (std std' : Std) :
    (placed ends base std std'.fd).isSome = true := by
  unfold placed
  cases ends std with
  | none => exact hopen std'
  | some x =>
    by_cases h : std'.fd = std.fd
    · simp only [h, Function.update_self, Option.isSome_some]
    · simp only [Function.update_of_ne h]
      exact hopen std'

/-- The streams take their places one after the other. -/
theorem placed_adds (ends : Std → Option StdPipe) (stds : List Std) (h : Adds base (d :: pairs ends stds) t)
    (hopen : ∀ std : Std, (base std.fd).isSome = true) :
    Adds (stds.foldl (placed ends) base) [d]
      ((stds.flatMap fun std => ((ends std).map (stdActs std)).getD []).foldl OwnAct.run t) := by
  induction stds generalizing base t with
  | nil => exact h
  | cons std stds ih =>
    rw [List.flatMap_cons, List.foldl_append, List.foldl_cons]
    refine ih ?_ (placed_isSome hopen ends std)
    rw [pairs_cons] at h
    unfold placed
    cases hx : ends std with
    | none =>
      rw [hx] at h
      exact h
    | some x =>
      rw [hx] at h
      have hclosed := (h.perm (.swap _ _ _)).close
      have hmoved := (hclosed.perm (.swap _ _ _)).dup2 (hopen std)
      exact hmoved.close

theorem file_placed (stds : List Std) {fd : Nat} {g : OpenFile} (hg : (stds.foldl (placed ends) base).file fd = some g) :
    base.file fd = some g ∨ ∃ std x, ends std = some x ∧ g = .pipe x.n (!std.writes) := by
  induction stds generalizing base with
  | nil => exact .inl hg
  | cons std stds ih =>
    rcases ih hg with h | h
    · unfold placed at h
      cases hx : ends std with
      | none =>
        rw [hx] at h
        exact .inl h
      | some x =>
        rw [hx] at h
        by_cases heq : fd = std.fd
        · subst heq
          simp only [FdTable.file, Function.update_self, Option.map_some, Option.some.injEq] at h
          exact .inr ⟨std, x, hx, h.symm⟩
        · refine .inl ?_
          simp only [FdTable.file, Function.update_of_ne heq] at h
          exact h
    · exact .inr h

/-- What the child has open in the end. -/
def childEnd (ends : Std → Option StdPipe) (base : FdTable OpenFile) : ChildFate → FdTable OpenFile
  | .runs => programFds ends base
  | .silent | .failed _ => fun _ => none

/-- The child makes all its calls. -/
theorem child_runs (hp : Parting flags u f u' ends n) (hopen : ∀ std : Std, (u.fds std.fd).isSome = true) (fate : ChildFate) :
    ∃ k, Steps (Step (.pipe n false) (.pipe n true)) k (forked f fate u')
      { forked f fate u' with
        child := childEnd ends u.fds fate, childActs := [], buf := fate.reported.toList } := by
  -- its end of the pipe for the error, and the streams
  let own : List OwnAct := [.close f.err₀, .cloexec f.err₁] ++ Std.all.flatMap fun std => ((ends std).map (stdActs std)).getD []
  have hacts : childActs f fate = own.map .own ++ childLast f fate := by
    have hflat : Std.all.flatMap (childStd f.spawn) =
        (Std.all.flatMap fun std => ((ends std).map (stdActs std)).getD []).map (.own : OwnAct → ChildAct Int) := by
      rw [List.map_flatMap]
      exact List.flatMap_congr fun std _ => childStd_eq hp std
    unfold childActs
    rw [hflat, List.map_append]
    rfl
  have hplaced : Adds (Std.all.foldl (placed ends) u.fds) [(f.err₁, ⟨.pipe n true, true⟩)] (own.foldl OwnAct.run u'.fds) := by
    refine placed_adds ends Std.all ?_ hopen
    exact ((hp.adds.perm (.swap _ _ _)).close).setCloexec
  have hown : Steps (Step (.pipe n false) (.pipe n true)) own.length (forked f fate u')
      { forked f fate u' with child := own.foldl OwnAct.run u'.fds, childActs := childLast f fate } :=
    steps_child own hacts
  cases fate with
  | silent => exact ⟨own.length + 1, hown.trans (steps_child [.exit] rfl)⟩
  | runs =>
    have hend : [OwnAct.exec].foldl OwnAct.run (own.foldl OwnAct.run u'.fds) = programFds ends u.fds :=
      hplaced.afterExec fun p hmem => by rw [List.mem_singleton.1 hmem]
    refine ⟨own.length + 1, hown.trans ?_⟩
    simp only [childEnd, ← hend]
    exact steps_child [.exec] rfl
  | failed err =>
    exact ⟨own.length + 3, hown.trans (.head (.write rfl hplaced.file_head) (steps_child [.close f.err₁, .exit] rfl))⟩

/-- The child does not keep the pipe for the error open. -/
theorem childEnd_closed (hp : Parting flags u f u' ends n) (hfresh : u.Fresh) (fate : ChildFate) (fd : Nat) :
    (childEnd ends u.fds fate).file fd ≠ some (.pipe n true) := by
  obtain ⟨u₁, hs, rfl, -⟩ := hp.before
  intro hfile
  cases fate with
  | runs =>
    obtain ⟨d, hd, hdf⟩ := Option.map_eq_some_iff.1 hfile
    have hplaced : (Std.all.foldl (placed ends) u.fds).file fd = some (.pipe u₁.pipes true) :=
      Option.map_eq_some_iff.2 ⟨d, (Option.filter_eq_some_iff.1 hd).1, hdf⟩
    rcases file_placed Std.all hplaced with h | ⟨std, x, hx, heq⟩
    · have := hfresh fd _ _ h
      have := hs.first
      omega
    · injection heq with heq
      have := hs.numbers std x hx
      omega
  | silent => cases hfile
  | failed err => cases hfile

/-! ### The parent -/

/-- What the parent has beside its own descriptors in the end. -/
def parentLeft (ends : Std → Option StdPipe) (fate : ChildFate) : List (Nat × Descriptor OpenFile) :=
  if fate.reported.isSome then [] else Std.all.filterMap (fileEntry ends)

/-- What it closes in any case, before it reads. -/
def beforeRead (f : ExecFork) : List Nat := f.spawn.childFds ++ [f.err₁]

theorem parentActs_eq (f : ExecFork) : parentActs f = ((beforeRead f).map OwnAct.close).map .own ++
    .read f.err₀ :: ((f.spawn.fileFds.map OwnAct.close).map .onData ++ [OwnAct.close f.err₀].map .own) := by
  simp [parentActs, beforeRead, List.map_map, Function.comp_def]

theorem beforeRead_adds (hp : Parting flags u f u' ends n) :
    Adds u.fds ((f.err₀, ⟨.pipe n false, false⟩) :: Std.all.filterMap (fileEntry ends))
      (((beforeRead f).map OwnAct.close).foldl OwnAct.run u'.fds) := by
  obtain ⟨u₁, hs, -⟩ := hp.before
  let err₀ : Nat × Descriptor OpenFile := (f.err₀, ⟨.pipe n false, false⟩)
  let err₁ : Nat × Descriptor OpenFile := (f.err₁, ⟨.pipe n true, false⟩)
  have hperm : (err₁ :: err₀ :: pairs ends Std.all).Perm
      ((Std.all.filterMap (childEntry ends) ++ [err₁]) ++ err₀ :: Std.all.filterMap (fileEntry ends)) := by
    rw [List.append_assoc]
    refine .trans (.cons err₁ (.cons err₀ (pairs_perm ends Std.all).symm)) ?_
    exact List.perm_append_comm_assoc [err₁, err₀] _ _
  have hclosed := (hp.adds.perm hperm).closeAll
  rw [foldl_close, beforeRead, hs.childFds_eq]
  rwa [List.map_append] at hclosed

/-- The parent makes its calls when the child is done. -/
theorem parent_runs (hp : Parting flags u f u' ends n) (hfresh : u.Fresh) (fate : ChildFate) :
    ∃ k t, Steps (Step (.pipe n false) (.pipe n true)) k
      { forked f fate u' with child := childEnd ends u.fds fate, childActs := [], buf := fate.reported.toList }
      { parent := t, parentActs := [], got := fate.reported, child := childEnd ends u.fds fate, childActs := [], buf := [] } ∧
      Adds u.fds (parentLeft ends fate) t := by
  obtain ⟨u₁, hs, hn, -⟩ := id hp.before
  have hbefore := beforeRead_adds hp
  let t₁ := ((beforeRead f).map OwnAct.close).foldl OwnAct.run u'.fds
  let onData := f.spawn.fileFds.map OwnAct.close
  let t₂ := if fate.reported.isSome then onData.foldl OwnAct.run t₁ else t₁
  have hfd : t₁.file f.err₀ = some (.pipe n false) := hbefore.file_head
  -- nobody has the end for writing any more
  have hclosed (fd : Nat) : t₁.file fd ≠ some (.pipe n true) := by
    intro hfile
    rcases hbefore.file_cases hfile with h | ⟨p, hmem, -, hpf⟩
    · have := hfresh fd _ _ h
      have := hs.first
      omega
    · rcases List.mem_cons.1 hmem with rfl | hmem
      · cases hpf
      · obtain ⟨std, -, hentry⟩ := List.mem_filterMap.1 hmem
        obtain ⟨x, hx, rfl⟩ := Option.map_eq_some_iff.1 hentry
        injection hpf with hpn
        have := (hs.numbers std x hx).2
        omega
  have hread : Step (.pipe n false) (.pipe n true)
      { parent := t₁, parentActs := .read f.err₀ :: (onData.map .onData ++ [OwnAct.close f.err₀].map .own), got := none,
        child := childEnd ends u.fds fate, childActs := [], buf := fate.reported.toList }
      { parent := t₁, parentActs := onData.map .onData ++ [OwnAct.close f.err₀].map .own, got := fate.reported,
        child := childEnd ends u.fds fate, childActs := [], buf := [] } := by
    cases hrep : fate.reported with
    | none => exact .eof rfl hfd rfl hclosed (childEnd_closed hp hfresh fate)
    | some err => exact .data rfl hfd rfl
  -- the file objects are closed only when there was an error
  have hleft : Adds u.fds ((f.err₀, ⟨.pipe n false, false⟩) :: parentLeft ends fate) t₂ := by
    cases hrep : fate.reported with
    | none => simpa [t₂, parentLeft, hrep] using hbefore
    | some err =>
      have hfiles := (hbefore.perm (List.perm_append_singleton _ (Std.all.filterMap (fileEntry ends))).symm).closeAll
      rw [← hs.fileFds_eq, ← foldl_close] at hfiles
      simpa [t₂, parentLeft, hrep] using hfiles
  have hdata : Steps (Step (.pipe n false) (.pipe n true)) onData.length
      { parent := t₁, parentActs := onData.map .onData ++ [OwnAct.close f.err₀].map .own, got := fate.reported,
        child := childEnd ends u.fds fate, childActs := [], buf := [] }
      { parent := t₂, parentActs := [OwnAct.close f.err₀].map .own, got := fate.reported,
        child := childEnd ends u.fds fate, childActs := [], buf := [] } := steps_onData onData rfl
  have hlast : Steps (Step (.pipe n false) (.pipe n true)) 1
      { parent := t₂, parentActs := [OwnAct.close f.err₀].map .own, got := fate.reported,
        child := childEnd ends u.fds fate, childActs := [], buf := [] }
      { parent := t₂.close f.err₀, parentActs := [], got := fate.reported,
        child := childEnd ends u.fds fate, childActs := [], buf := [] } := steps_parent [.close f.err₀] rfl
  exact ⟨_, _, (steps_parent _ (parentActs_eq f)).trans (.head hread (hdata.trans hlast)), hleft.close⟩

/-- However the two are scheduled, they come to the same end. -/
theorem forked_ends (hp : Parting flags u f u' ends n) (hfresh : u.Fresh) (hopen : ∀ std : Std, (u.fds std.fd).isSome = true)
    (fate : ChildFate) : ∃ k last, last.parentActs = [] ∧ last.childActs = [] ∧ last.got = fate.reported ∧
      Adds u.fds (parentLeft ends fate) last.parent ∧ last.child = childEnd ends u.fds fate ∧
      ∀ m s, Steps (Step (.pipe n false) (.pipe n true)) m (forked f fate u') s →
        ∃ j, m + j = k ∧ Steps (Step (.pipe n false) (.pipe n true)) j s last := by
  obtain ⟨k₁, hchild⟩ := child_runs hp hopen fate
  obtain ⟨k₂, t, hparent, hleft⟩ := parent_runs hp hfresh fate
  refine ⟨k₁ + k₂, ⟨t, [], fate.reported, childEnd ends u.fds fate, [], []⟩, rfl, rfl, rfl, hleft, rfl, fun m s hs => ?_⟩
  exact Step.diamond.all_runs (hchild.trans hparent) (done_ends rfl rfl) hs

/-! ### What `pcl_proc_exec` does -/

/-- The child reports no error that is none. -/
theorem childFate_failed {exec : ExecArgs} {argv : List CStr} {frozen : Bool} {err : Int}
    (h : childFate sys exec flags argv frozen = .failed err) : err ≠ eOkay := by
  unfold childFate at h
  split at h
  · cases h
  · split at h
    · next hne =>
      cases h
      exact hne
    · split at h
      · next oserr _ =>
        cases h
        exact fun h => oserr.2 ((sys.okay_iff _).1 h)
      · cases h

/-- The caller hears of an error of the child; a child that exits without a word passes for a program that runs. -/
def Hears (f : ExecFork) (fate : ChildFate) (x : ErrM (Int × ExecOut)) (e : ErrState) : Prop :=
  ∃ r out e', x e = some ((r, out), e') ∧
    match fate with
    | .failed err => r = -1 ∧ out.files = (fun _ => none) ∧ e'.err = err
    | .silent | .runs => r = 0 ∧ out.files = f.spawn.files

theorem procExecResult_hears (sys : UnixSystem) (exec : ExecArgs) (flags : ExecFlags) (f : ExecFork) (he : e.frozen = false)
    {fate : ChildFate} (hfate : ∀ err, fate = .failed err → err ≠ eOkay) :
    Hears f fate (procExecResult sys exec flags f fate.reported) e := by
  cases fate with
  | silent => exact ⟨_, _, e, rfl, rfl, rfl⟩
  | runs => exact ⟨_, _, e, rfl, rfl, rfl⟩
  | failed err =>
    have hne : err ≠ 0 := hfate err rfl
    obtain ⟨e₁, hclose, hf₁⟩ := closeFiles_run e f.spawn
    obtain ⟨e₂, hset, -, herr⟩ := errVset_fails (hf₁ he) (loc "unix_proc_exec.c" "pcl_proc_exec" 259) hne 0
      (some (.ofBytes (txt "Failed to execute '" ++ (exec.command.map CStr.bytes).getD [] ++ txt "'")))
    refine ⟨-1, { ExecOut.none with pid := sys.pid }, e₂, ?_, rfl, rfl, herr⟩
    simp only [procExecResult, ChildFate.reported, ErrM.bind_run, hclose, Option.bind_some, ErrM.pure_run, ne_eq, hne,
      not_false_eq_true, if_true, hset]

/-- The two processes of a call that forks, and the pipe for the error between them. -/
structure Forks (sys : UnixSystem) (tl : Tolower) (exec : ExecArgs) (flags : ExecFlags) (u : Unix) (e : ErrState)
    (f : ExecFork) (u' : Unix) (e' : ErrState) (n : Nat) : Prop where
  run : procExecFork sys tl exec flags u e = some ((.ok f, u'), e')
  err₀ : u'.fds.file f.err₀ = some (.pipe n false)
  err₁ : u'.fds.file f.err₁ = some (.pipe n true)

/-- The fate of the child. -/
def ExecFork.fate (f : ExecFork) (sys : UnixSystem) (exec : ExecArgs) (flags : ExecFlags) (e : ErrState) : ChildFate :=
  childFate sys exec flags f.argv e.frozen

/-- `k` calls of the two, in some order. -/
def Schedule (n : Nat) : Nat → Forked OpenFile Int → Forked OpenFile Int → Prop :=
  Steps (Step (.pipe n false) (.pipe n true))

/-- What a call that forks has. -/
theorem Forks.parting {tl : Tolower} {exec : ExecArgs} {e' : ErrState} (hf : Forks sys tl exec flags u e f u' e' n)
    (he : e.frozen = false) (hparse : exec.Parses e) : e'.frozen = false ∧ ∃ ends, Parting flags u f u' ends n := by
  rcases procExecFork_spec sys tl flags u he hparse with ⟨r, out, u₁, e₁, hrun, -⟩ | ⟨f₁, u₁, e₁, ends, n₁, hrun, hf₁, hp⟩
  · cases hrun.symm.trans hf.run
  · cases hrun.symm.trans hf.run
    have herr := hp.adds.file_head
    rw [hf.err₁] at herr
    injection herr with herr
    injection herr with hn
    exact ⟨hf₁, ends, hn ▸ hp⟩

/-! ### A program with three pipes -/

/-- A system on which nothing fails. -/
def easySystem : UnixSystem where
  limit := 16
  emfile := ⟨24, by decide⟩
  fails _ := none
  os2pcl oserr := oserr.toNat
  okay_iff oserr := by
    unfold eOkay
    rw [show (0 : Int) = ((0 : UInt32).toNat : Int) from rfl, Int.ofNat_inj, UInt32.toNat_inj]
  pid := 100
  pid_pos := by decide
  time := (0, 0)
  shell := none
  getuid _ := none
  initgroups _ _ := true
  getgid _ := none
  setgid _ := true
  setuid _ := true
  chdir _ := none
  getcwd := none
  setenv _ := none
  execvp _ := none

/-- A process with a terminal. -/
def onTerminal : Unix := ⟨fun fd => if fd < 3 then some ⟨.other 0, false⟩ else none, fun _ => false, 0, 0, 0⟩

def lsArgs : ExecArgs := ⟨some (.lit "ls"), none, none, none, none⟩

def allStreams : ExecFlags := ⟨fun _ => true, fun _ => false, false, false, false⟩

theorem onTerminal_fresh : onTerminal.Fresh := by
  intro fd k w h
  simp only [onTerminal, FdTable.file] at h
  split at h <;> cases h

theorem onTerminal_open (std : Std) : (onTerminal.fds std.fd).isSome = true := by cases std <;> rfl

theorem lsArgs_parsed : procParsecmd (some (.ofBytes ((CStr.lit "ls").bytes.dropWhile isspace))) .zero =
    some (some ⟨[some (.lit "ls"), none], 1⟩, .zero) := by
  have hstart : openQuote false ((CStr.ofBytes ((CStr.lit "ls").bytes.dropWhile isspace)).bytes.dropWhile isspace) =
      (false, [108, 115]) := by decide
  have hloop : parsecmdLoop [108, 115] [108, 115] false [] .zero = some (some [.lit "ls"], .zero) := by
    rw [parsecmdLoop, if_neg (by decide), if_neg (by decide), parsecmdLoop, if_neg (by decide), if_neg (by decide),
      parsecmdLoop, if_neg (by decide)]
    rfl
  have hlist : parsecmdList (.ofBytes ((CStr.lit "ls").bytes.dropWhile isspace)) .zero = some (some [.lit "ls"], .zero) := by
    simp only [parsecmdList, hstart, hloop]
  exact procParsecmd_of_list hlist (by decide)

theorem lsArgs_parses : lsArgs.Parses .zero := by
  rintro _ ⟨⟩
  rw [lsArgs_parsed]
  rfl

/-- The call gets to the fork. -/
theorem ls_forks : ∃ f u' e' n, Forks easySystem .ascii lsArgs allStreams onTerminal .zero f u' e' n := by
  have hok : (execPipes easySystem allStreams [.lit "ls"] onTerminal .zero).map (fun p => p.1.1.isOk) = some true := rfl
  have hrun : procExecFork easySystem .ascii lsArgs allStreams onTerminal .zero =
      execPipes easySystem allStreams [.lit "ls"] onTerminal .zero := by
    have hne : (CStr.lit "ls").bytes ≠ [] := by decide
    simp only [procExecFork, lsArgs, if_neg hne, ErrM.bind_run, lsArgs_parsed, Option.bind_some]
    rfl
  rcases procExecFork_spec easySystem .ascii allStreams onTerminal (show ErrState.zero.frozen = false from rfl) lsArgs_parses
    with ⟨r, out, u', e', hfail, -⟩ | ⟨f, u', e', ends, n, hfork, -, hp⟩
  · rw [← hrun, hfail] at hok
    cases hok
  · exact ⟨f, u', e', n, hfork, (hp.adds.perm (.swap _ _ _)).file_head, hp.adds.file_head⟩

/-- The call fails and leaves the descriptors of the caller as they were, with -1 and an error, or with 0 and without one
where it is a stream that failed; or it forks. Then every order in which the two make their calls ends, after the same
number of them, and the caller hears what became of the child. -/
theorem procExec_ends (sys : UnixSystem) (tl : Tolower) (exec : ExecArgs) (flags : ExecFlags) (u : Unix) (e : ErrState)
    (he : e.frozen = false) (hparse : exec.Parses e) (hfresh : u.Fresh) (hopen : ∀ std : Std, (u.fds std.fd).isSome = true) :
    ExecFailed sys flags (procExecFork sys tl exec flags u) u e ∨
      ∃ f u' e' n, Forks sys tl exec flags u e f u' e' n ∧
        ∃ k last, last.parentActs = [] ∧ last.childActs = [] ∧
          (∀ m s, Schedule n m (forked f (f.fate sys exec flags e') u') s → ∃ j, m + j = k ∧ Schedule n j s last) ∧
          Hears f (f.fate sys exec flags e') (procExecResult sys exec flags f last.got) e' := by
  refine (procExecFork_spec sys tl flags u he hparse).imp_right ?_
  rintro ⟨f, u', e', ends, n, hrun, hf', hp⟩
  obtain ⟨k, last, hparent, hchild, hgot, -, -, hall⟩ := forked_ends hp hfresh hopen (f.fate sys exec flags e')
  refine ⟨f, u', e', n, ⟨hrun, (hp.adds.perm (.swap _ _ _)).file_head, hp.adds.file_head⟩, k, last, hparent, hchild, hall, ?_⟩
  rw [hgot]
  exact procExecResult_hears sys exec flags f hf' fun err h => childFate_failed h

theorem procExec_ends_ls :
    ExecFailed easySystem allStreams (procExecFork easySystem .ascii lsArgs allStreams onTerminal) onTerminal .zero ∨
      ∃ f u' e' n, Forks easySystem .ascii lsArgs allStreams onTerminal .zero f u' e' n ∧
        ∃ k last, last.parentActs = [] ∧ last.childActs = [] ∧
          (∀ m s, Schedule n m (forked f (f.fate easySystem lsArgs allStreams e') u') s →
            ∃ j, m + j = k ∧ Schedule n j s last) ∧
          Hears f (f.fate easySystem lsArgs allStreams e') (procExecResult easySystem lsArgs allStreams f last.got) e' :=
  procExec_ends easySystem .ascii lsArgs allStreams onTerminal .zero rfl lsArgs_parses onTerminal_fresh onTerminal_open

/-- The pipe of a stream, as the caller's file has it. -/
theorem Parting.handle (hp : Parting flags u f u' ends n) {file : PFile} (hfile : f.spawn.files std = some file) :
    ∃ x, ends std = some x ∧ file.fd = some x.file ∧ u'.fds x.file = some ⟨.pipe x.n std.writes, true⟩ ∧
      u.fds x.file = none := by
  obtain ⟨u₁, hs, -⟩ := hp.before
  rw [hs.files] at hfile
  obtain ⟨x, hx, rfl⟩ := Option.map_eq_some_iff.1 hfile
  have hmem : (x.file, (⟨.pipe x.n std.writes, true⟩ : Descriptor OpenFile)) ∈ pairs ends Std.all := by
    refine List.mem_flatMap.2 ⟨std, by cases std <;> decide, ?_⟩
    rw [hx]
    exact List.mem_cons_self
  have hadded := List.mem_cons_of_mem (f.err₁, (⟨.pipe n true, false⟩ : Descriptor OpenFile))
    (List.mem_cons_of_mem (f.err₀, ⟨.pipe n false, false⟩) hmem)
  exact ⟨x, hx, by cases std <;> rfl, hp.adds.added _ hadded, hp.adds.unused _ hadded⟩

/-- The end that the caller keeps blocks as it asked for, the other one does. -/
theorem Parting.modes (hp : Parting flags u f u' ends n) {x : StdPipe} (hx : ends std = some x) :
    u'.nonblock (.pipe x.n std.writes) = flags.streamNb std ∧ u'.nonblock (.pipe x.n (!std.writes)) = false := by
  obtain ⟨u₁, hs, rfl, hmode⟩ := hp.before
  have hne : x.n ≠ u₁.pipes := (hs.numbers std x hx).2.ne
  rw [hmode _ _ hne, hmode _ _ hne]
  exact hs.modes std x hx

/-- When the caller has made its calls, whatever the child has made of its own, it has its descriptors and a new one for
each stream that it asked for; it is the only one that refers to the pipe. After an error of the child there is none. -/
theorem procExec_parent (sys : UnixSystem) (tl : Tolower) (exec : ExecArgs) (flags : ExecFlags) (u : Unix) (e : ErrState)
    (he : e.frozen = false) (hparse : exec.Parses e) (hfresh : u.Fresh) (hopen : ∀ std : Std, (u.fds std.fd).isSome = true)
    {e' : ErrState} (hf : Forks sys tl exec flags u e f u' e' n) {m : Nat} {s : Forked OpenFile Int}
    (hs : Schedule n m (forked f (f.fate sys exec flags e') u') s) (hdone : s.parentActs = []) :
    match f.fate sys exec flags e' with
    | .failed _ => s.parent = u.fds
    | .silent | .runs =>
      (∀ std, (f.spawn.files std).isSome = true ↔ flags.stream std = true ∨ flags.streamNb std = true) ∧
      (∀ std file, f.spawn.files std = some file → ∃ fd k, file.fd = some fd ∧ u.fds fd = none ∧
        s.parent fd = some ⟨.pipe k std.writes, true⟩ ∧ u'.nonblock (.pipe k std.writes) = flags.streamNb std ∧
        ∀ fd', s.parent.file fd' ≠ some (.pipe k (!std.writes))) ∧
      ∀ fd, (∀ std file, f.spawn.files std = some file → file.fd ≠ some fd) → s.parent fd = u.fds fd := by
  obtain ⟨-, ends, hp⟩ := hf.parting he hparse
  obtain ⟨k, last, -, -, -, hleft, -, hall⟩ := forked_ends hp hfresh hopen (f.fate sys exec flags e')
  obtain ⟨j, -, hj⟩ := hall m s hs
  rw [(steps_parent_done hj hdone).1] at hleft
  have hkeeps (hno : (f.fate sys exec flags e').reported = none) :
      (∀ std, (f.spawn.files std).isSome = true ↔ flags.stream std = true ∨ flags.streamNb std = true) ∧
      (∀ std file, f.spawn.files std = some file → ∃ fd k, file.fd = some fd ∧ u.fds fd = none ∧
        s.parent fd = some ⟨.pipe k std.writes, true⟩ ∧ u'.nonblock (.pipe k std.writes) = flags.streamNb std ∧
        ∀ fd', s.parent.file fd' ≠ some (.pipe k (!std.writes))) ∧
      ∀ fd, (∀ std file, f.spawn.files std = some file → file.fd ≠ some fd) → s.parent fd = u.fds fd := by
    obtain ⟨u₁, hs₁, -⟩ := id hp.before
    have hadds : Adds u.fds (Std.all.filterMap (fileEntry ends)) s.parent := by
      rw [parentLeft, hno] at hleft
      exact hleft
    have hmem {std : Std} {x : StdPipe} (hx : ends std = some x) :
        (x.file, (⟨.pipe x.n std.writes, true⟩ : Descriptor OpenFile)) ∈ Std.all.filterMap (fileEntry ends) :=
      List.mem_filterMap.2 ⟨std, by cases std <;> decide, by rw [fileEntry, hx]; rfl⟩
    refine ⟨fun std => ?_, fun std file hfile => ?_, fun fd hfd => ?_⟩
    · rw [hs₁.files, Option.isSome_map]
      exact hp.opened std
    · obtain ⟨x, hx, hfd, -, hunused⟩ := hp.handle hfile
      refine ⟨x.file, x.n, hfd, hunused, hadds.added _ (hmem hx), (hp.modes hx).1, fun fd' hother => ?_⟩
      rcases hadds.file_cases hother with h | ⟨p, hpm, -, hpf⟩
      · have := hfresh fd' _ _ h
        have := (hs₁.numbers std x hx).1
        omega
      · obtain ⟨std', -, hentry⟩ := List.mem_filterMap.1 hpm
        obtain ⟨y, hy, rfl⟩ := Option.map_eq_some_iff.1 hentry
        injection hpf with hn hw
        obtain rfl := hs₁.distinct std' std y x hy hx hn
        cases hstd : std'.writes <;> rw [hstd] at hw <;> cases hw
    · refine hadds.rest fd fun hmem => ?_
      obtain ⟨p, hpm, rfl⟩ := List.mem_map.1 hmem
      obtain ⟨std, -, hentry⟩ := List.mem_filterMap.1 hpm
      obtain ⟨x, hx, rfl⟩ := Option.map_eq_some_iff.1 hentry
      refine hfd std (x.handle flags std) (by rw [hs₁.files, hx]; rfl) ?_
      cases std <;> rfl
  cases hfate : f.fate sys exec flags e' with
  | failed err =>
    rw [hfate] at hleft
    exact hleft.eq_base
  | silent => exact hkeeps (by rw [hfate]; rfl)
  | runs => exact hkeeps (by rw [hfate]; rfl)

/-- The schedule that lets the child go first. -/
theorem ls_finishes : ∃ f u' e' n, Forks easySystem .ascii lsArgs allStreams onTerminal .zero f u' e' n ∧ ∃ k last,
    Schedule n k (forked f (f.fate easySystem lsArgs allStreams e') u') last ∧ last.parentActs = [] ∧ last.childActs = [] := by
  obtain ⟨f, u', e', n, hf⟩ := ls_forks
  obtain ⟨-, ends, hp⟩ := hf.parting rfl lsArgs_parses
  obtain ⟨k, last, hparent, hchild, -, -, -, hall⟩ := forked_ends hp onTerminal_fresh onTerminal_open
    (f.fate easySystem lsArgs allStreams e')
  obtain ⟨j, -, hj⟩ := hall 0 _ (.refl _)
  exact ⟨f, u', e', n, hf, j, last, hj, hparent, hchild⟩

theorem procExec_parent_ls : ∃ f u' e' n, Forks easySystem .ascii lsArgs allStreams onTerminal .zero f u' e' n ∧
    ∃ s : Forked OpenFile Int, s.parentActs = [] ∧
      match f.fate easySystem lsArgs allStreams e' with
      | .failed _ => s.parent = onTerminal.fds
      | .silent | .runs =>
        (∀ std, (f.spawn.files std).isSome = true ↔ allStreams.stream std = true ∨ allStreams.streamNb std = true) ∧
        (∀ std file, f.spawn.files std = some file → ∃ fd k, file.fd = some fd ∧ onTerminal.fds fd = none ∧
          s.parent fd = some ⟨.pipe k std.writes, true⟩ ∧ u'.nonblock (.pipe k std.writes) = allStreams.streamNb std ∧
          ∀ fd', s.parent.file fd' ≠ some (.pipe k (!std.writes))) ∧
        ∀ fd, (∀ std file, f.spawn.files std = some file → file.fd ≠ some fd) → s.parent fd = onTerminal.fds fd := by
  obtain ⟨f, u', e', n, hf, k, last, hs, hparent, -⟩ := ls_finishes
  exact ⟨f, u', e', n, hf, last, hparent, procExec_parent easySystem .ascii lsArgs allStreams onTerminal .zero rfl lsArgs_parses
    onTerminal_fresh onTerminal_open hf hs hparent⟩

theorem placed_of_ne (base : FdTable OpenFile) {fd : Nat} (h : fd ≠ std.fd) : placed ends base std fd = base fd := by
  unfold placed
  cases ends std with
  | none => rfl
  | some x => exact Function.update_of_ne h ..

/-- Where no stream goes, nothing changes. -/
theorem foldl_placed_of (stds : List Std) (base : FdTable OpenFile) {fd : Nat} (h : ∀ std ∈ stds, fd = std.fd → ends std = none) :
    (stds.foldl (placed ends) base) fd = base fd := by
  induction stds generalizing base with
  | nil => rfl
  | cons std stds ih =>
    rw [List.foldl_cons, ih _ fun a ha => h a (List.mem_cons_of_mem _ ha)]
    by_cases hfd : fd = std.fd
    · rw [placed, h std List.mem_cons_self hfd]
    · exact placed_of_ne base hfd

theorem Std.fd_injective : Function.Injective Std.fd := by
  intro a b h
  cases a <;> cases b <;> first | rfl | cases h

theorem foldl_placed_self {x : StdPipe} (hx : ends std = some x) (stds : List Std) (hnd : stds.Nodup) (hmem : std ∈ stds)
    (base : FdTable OpenFile) : (stds.foldl (placed ends) base) std.fd = some ⟨.pipe x.n (!std.writes), false⟩ := by
  induction stds generalizing base with
  | nil => cases hmem
  | cons a stds ih =>
    obtain ⟨hnot, hnd⟩ := List.nodup_cons.1 hnd
    rw [List.foldl_cons]
    rcases List.mem_cons.1 hmem with rfl | hmem
    · have hrest (b : Std) (hb : b ∈ stds) (hfd : std.fd = b.fd) : ends b = none := by
        obtain rfl := Std.fd_injective hfd
        exact (hnot hb).elim
      rw [foldl_placed_of stds _ hrest, placed, hx]
      exact Function.update_self ..
    · exact ih hnd hmem _

/-- When the child has made its calls and runs the program, whatever the caller has made of its own, the program has the
other ends of the caller's pipes as its streams, and for the rest what the caller had without what is closed on an `exec`. -/
theorem procExec_child (sys : UnixSystem) (tl : Tolower) (exec : ExecArgs) (flags : ExecFlags) (u : Unix) (e : ErrState)
    (he : e.frozen = false) (hparse : exec.Parses e) (hfresh : u.Fresh) (hopen : ∀ std : Std, (u.fds std.fd).isSome = true)
    {e' : ErrState} (hf : Forks sys tl exec flags u e f u' e' n) (hruns : f.fate sys exec flags e' = .runs) {m : Nat}
    {s : Forked OpenFile Int} (hs : Schedule n m (forked f (f.fate sys exec flags e') u') s) (hdone : s.childActs = []) :
    (∀ std file, f.spawn.files std = some file → ∃ fd k, file.fd = some fd ∧ u'.fds fd = some ⟨.pipe k std.writes, true⟩ ∧
      s.child std.fd = some ⟨.pipe k (!std.writes), false⟩ ∧ u'.nonblock (.pipe k (!std.writes)) = false) ∧
    ∀ fd, (∀ std : Std, fd = std.fd → f.spawn.files std = none) → s.child fd = (u.fds fd).filter fun d => !d.cloexec := by
  obtain ⟨-, ends, hp⟩ := hf.parting he hparse
  obtain ⟨k, last, -, -, -, -, hchild, hall⟩ := forked_ends hp hfresh hopen .runs
  rw [hruns] at hs
  obtain ⟨j, -, hj⟩ := hall m s hs
  rw [steps_child_done hj hdone] at hchild
  rw [hchild]
  refine ⟨fun std file hfile => ?_, fun fd hfd => ?_⟩
  · obtain ⟨x, hx, hfd, hmine, -⟩ := hp.handle hfile
    refine ⟨x.file, x.n, hfd, hmine, ?_, (hp.modes hx).2⟩
    show ((Std.all.foldl (placed ends) u.fds) std.fd).filter _ = _
    rw [foldl_placed_self hx Std.all (by decide) (by cases std <;> decide)]
    rfl
  · show ((Std.all.foldl (placed ends) u.fds) fd).filter _ = _
    rw [foldl_placed_of Std.all u.fds fun std _ h => ?_]
    obtain ⟨u₁, hs₁, -⟩ := hp.before
    have hnone := hfd std h
    rw [hs₁.files] at hnone
    exact Option.map_eq_none_iff.1 hnone

theorem procExec_child_ls : ∃ f u' e' n, Forks easySystem .ascii lsArgs allStreams onTerminal .zero f u' e' n ∧
    ∃ s : Forked OpenFile Int, s.childActs = [] ∧
      (∀ std file, f.spawn.files std = some file → ∃ fd k, file.fd = some fd ∧ u'.fds fd = some ⟨.pipe k std.writes, true⟩ ∧
        s.child std.fd = some ⟨.pipe k (!std.writes), false⟩ ∧ u'.nonblock (.pipe k (!std.writes)) = false) ∧
      ∀ fd, (∀ std : Std, fd = std.fd → f.spawn.files std = none) →
        s.child fd = (onTerminal.fds fd).filter fun d => !d.cloexec := by
  obtain ⟨f, u', e', n, hf, k, last, hs, -, hchild⟩ := ls_finishes
  exact ⟨f, u', e', n, hf, last, hchild, procExec_child easySystem .ascii lsArgs allStreams onTerminal .zero rfl lsArgs_parses
    onTerminal_fresh onTerminal_open hf rfl hs hchild⟩

/-- Of the files that the caller gets, that for the standard input cannot be written to with the library: the flags of the
write end of a pipe are never set. Those for the other streams can be read from, and pass for writable as well. -/
theorem procExec_handles (sys : UnixSystem) (tl : Tolower) (exec : ExecArgs) (flags : ExecFlags) (u : Unix) (e : ErrState)
    (he : e.frozen = false) (hparse : exec.Parses e) {e' : ErrState} (hf : Forks sys tl exec flags u e f u' e' n) {file : PFile}
    (hfile : f.spawn.files std = some file) {e₁ : ErrState} (he₁ : e₁.frozen = false) (ms : Int) (poll : PollOutcome)
    (first second : SysResult) :
    match std with
    | .stdin =>
      (∃ e₂, fileWrite sys.os2pcl (some file) first second e₁ = some (-1, e₂) ∧ e₂.err = eNotsup) ∧
        ∃ e₂, fileTrywrite sys.os2pcl (some file) ms poll first second e₁ = some (-1, e₂) ∧ e₂.err = eNotsup
    | .stdout | .stderr =>
      fileRead sys.os2pcl (some file) first second = fileIo sys.os2pcl "unix_read.c" "pcl_file_read" first second ∧
        fileWrite sys.os2pcl (some file) first second = fileIo sys.os2pcl "unix_write.c" "pcl_file_write" first second := by
  obtain ⟨-, ends, hp⟩ := hf.parting he hparse
  obtain ⟨u₁, hs, -⟩ := hp.before
  rw [hs.files] at hfile
  obtain ⟨x, hx, rfl⟩ := Option.map_eq_some_iff.1 hfile
  cases std with
  | stdin =>
    obtain ⟨e₂, hrun, -, herr⟩ := errVset_fails he₁ (loc "unix_write.c" "pcl_file_write" 45) (show eNotsup ≠ eOkay by decide) 0
      (some (.lit "file not opened for write operations"))
    obtain ⟨e₃, hrun', -, herr'⟩ := errVset_fails he₁ (loc "unix_trywrite.c" "pcl_file_trywrite" 45)
      (show eNotsup ≠ eOkay by decide) 0 (some (.lit "file not opened for write operations"))
    exact ⟨⟨e₂, hrun, herr⟩, e₃, hrun', herr'⟩
  | stdout => exact ⟨rfl, rfl⟩
  | stderr => exact ⟨rfl, rfl⟩

theorem procExec_handles_ls : ∃ f u' e' n file, Forks easySystem .ascii lsArgs allStreams onTerminal .zero f u' e' n ∧
    f.spawn.files .stdin = some file ∧
      (∃ e₂, fileWrite easySystem.os2pcl (some file) (.ok 1) (.ok 1) .zero = some (-1, e₂) ∧ e₂.err = eNotsup) ∧
        ∃ e₂, fileTrywrite easySystem.os2pcl (some file) 0 .timeout (.ok 1) (.ok 1) .zero = some (-1, e₂) ∧
          e₂.err = eNotsup := by
  obtain ⟨f, u', e', n, hf⟩ := ls_forks
  obtain ⟨-, ends, hp⟩ := hf.parting rfl lsArgs_parses
  obtain ⟨u₁, hs, -⟩ := hp.before
  obtain ⟨file, hfile⟩ := Option.isSome_iff_exists.1 (show (f.spawn.files .stdin).isSome = true by
    rw [hs.files, Option.isSome_map]
    exact (hp.opened .stdin).2 (.inl rfl))
  exact ⟨f, u', e', n, file, hf, hfile, procExec_handles easySystem .ascii lsArgs allStreams onTerminal .zero rfl lsArgs_parses
    hf hfile rfl 0 .timeout (.ok 1) (.ok 1)⟩

end
end Pcl

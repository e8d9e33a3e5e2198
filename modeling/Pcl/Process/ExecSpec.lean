import Pcl.Process.Exec

/-!
# The descriptors of the caller

Up to the fork the caller's descriptors are those it had, two for each stream that it asked for, and the two of the
pipe for the error. On every failure they are closed again.
-/

namespace Pcl
open FdTable

/-- The pipe of a stream: the descriptor of the caller's file, that for the child, and its number. -/
structure StdPipe where
  file : Nat
  child : Nat
  n : Nat

/-- The caller writes to the standard input. -/
def Std.writes (std : Std) : Bool := std = .stdin

/-- The two descriptors of a stream. -/
def StdPipe.pair (std : Std) (x : StdPipe) : List (Nat × Descriptor OpenFile) :=
  [(x.file, ⟨.pipe x.n std.writes, true⟩), (x.child, ⟨.pipe x.n (!std.writes), false⟩)]

def pairs (ends : Std → Option StdPipe) (stds : List Std) : List (Nat × Descriptor OpenFile) :=
  stds.flatMap fun std => ((ends std).map (StdPipe.pair std)).getD []

def childEntry (ends : Std → Option StdPipe) (std : Std) : Option (Nat × Descriptor OpenFile) :=
  (ends std).map fun x => (x.child, ⟨.pipe x.n (!std.writes), false⟩)

def fileEntry (ends : Std → Option StdPipe) (std : Std) : Option (Nat × Descriptor OpenFile) :=
  (ends std).map fun x => (x.file, ⟨.pipe x.n std.writes, true⟩)

/-- The file object of a stream: the read end of a pipe is initialized for both ends, the write end is not. -/
def StdPipe.handle (flags : ExecFlags) (std : Std) (x : StdPipe) : PFile :=
  match std with
  | .stdin => ⟨{}, some x.file⟩
  | .stdout | .stderr => ⟨{ read := true, write := true, nonblock := flags.streamNb std }, some x.file⟩

/-- The streams that were opened; the pipes have the numbers from `n₀` on. -/
structure Spawned (flags : ExecFlags) (base : FdTable OpenFile) (n₀ : Nat) (u : Unix) (sp : Spawn)
    (ends : Std → Option StdPipe) : Prop where
  files : ∀ std, sp.files std = (ends std).map (StdPipe.handle flags std)
  childFd : ∀ std, sp.childFd std = (ends std).map StdPipe.child
  adds : Adds base (pairs ends Std.all) u.fds
  numbers : ∀ std x, ends std = some x → n₀ ≤ x.n ∧ x.n < u.pipes
  distinct : ∀ std std' x x', ends std = some x → ends std' = some x' → x.n = x'.n → std = std'
  modes : ∀ std x, ends std = some x → u.nonblock (.pipe x.n std.writes) = flags.streamNb std ∧
    u.nonblock (.pipe x.n (!std.writes)) = false
  first : n₀ ≤ u.pipes

section
variable (sys : UnixSystem) {u u' : Unix} {e : ErrState} {base : FdTable OpenFile} {l : List (Nat × Descriptor OpenFile)}
  {flags : ExecFlags} {n₀ : Nat} {sp : Spawn} {ends : Std → Option StdPipe} {std : Std}

/-! ### The calls -/

/-- `errno` as `pcl_err_clear` leaves it. -/
def Unix.noErrno (u : Unix) : Unix := { u with oserrno := 0 }

theorem setLastErr_run (hu : u.oserrno ≠ 0) (he : e.frozen = false) (l : Loc) :
    ∃ e', setLastErr sys l u e = some ((-1, u.noErrno), e') ∧ e'.frozen = false ∧ e'.err ≠ eOkay := by
  have hne : sys.os2pcl u.oserrno ≠ eOkay := fun h => hu ((sys.okay_iff _).1 h)
  obtain ⟨e', hset, hf, herr⟩ := errVset_fails he l hne u.oserrno none
  refine ⟨e', ?_, hf, by rw [herr]; exact hne⟩
  unfold setLastErr
  rw [errGet_bind, ErrM.bind_run, hset, Option.bind_some, he]
  rfl

/-- There is no error to set any more. -/
theorem setLastErr_lost (hu : u.oserrno = 0) (he : e.frozen = false) (l : Loc) :
    ∃ e', setLastErr sys l u e = some ((0, u.noErrno), e') ∧ e'.frozen = false ∧ e'.err = eOkay := by
  have hokay : sys.os2pcl u.oserrno = eOkay := (sys.okay_iff _).2 hu
  refine ⟨e.cleared, ?_, by rw [cleared_frozen, he], by rw [ErrState.cleared, he]; rfl⟩
  have hset : errVset l (sys.os2pcl u.oserrno) u.oserrno none e = some (0, e.cleared) := by
    simp only [errVset, he, Bool.false_eq_true, if_false, errClear_run, hokay, if_true, Option.bind_some]
  unfold setLastErr
  rw [errGet_bind, ErrM.bind_run, hset, Option.bind_some, he]
  rfl

theorem closeFiles_run (e : ErrState) (sp : Spawn) :
    ∃ e', closeFiles sp e = some ((), e') ∧ (e.frozen = false → e'.frozen = false) := by
  have hthaw {e : ErrState} (file : Option Bool) (he : e.frozen = false) :
      (if file.isSome then e.thawed else e).frozen = false := by
    split
    · rfl
    · exact he
  unfold closeFiles
  simp only [ErrM.bind_run, fileClose_run, Option.bind_some]
  exact ⟨_, rfl, fun he => hthaw _ (hthaw _ (hthaw _ he))⟩

/-- The last open file of a descriptor that was opened. -/
theorem sysPipe_spec (ha : Adds base l u.fds) :
    (∃ u', sysPipe sys u = (none, u') ∧ u'.fds = u.fds ∧ u'.oserrno ≠ 0 ∧ u'.pipes = u.pipes) ∨
      ∃ rd wr u', sysPipe sys u = (some (rd, wr), u') ∧
        Adds base ((wr, ⟨.pipe u.pipes true, false⟩) :: (rd, ⟨.pipe u.pipes false, false⟩) :: l) u'.fds ∧
        u'.pipes = u.pipes + 1 ∧ u'.nonblock =
          Function.update (Function.update u.nonblock (.pipe u.pipes false) false) (.pipe u.pipes true) false := by
  unfold sysPipe
  cases sys.fails u.calls with
  | some oserr => exact .inl ⟨_, rfl, rfl, oserr.2, rfl⟩
  | none =>
    cases hrd : u.fds.lowest sys.limit with
    | none => exact .inl ⟨_, rfl, rfl, sys.emfile.2, rfl⟩
    | some rd =>
      have ha₁ := ha.opened (lowest_unused hrd) (.pipe u.pipes false)
      simp only
      cases hwr : (u.fds.opened rd (.pipe u.pipes false)).lowest sys.limit with
      | none => exact .inl ⟨_, rfl, rfl, sys.emfile.2, rfl⟩
      | some wr => exact .inr ⟨rd, wr, _, rfl, ha₁.opened (lowest_unused hwr) _, rfl, rfl⟩

/-- `fcntl` fails, or the flag is set. -/
theorem fcntlSet_spec (he : e.frozen = false) (lineGet lineSet : Int) (set : Unix → Unix) :
    (∃ u' e', fcntlSet sys lineGet lineSet set u e = some ((false, u'), e') ∧ e'.frozen = false ∧ u'.fds = u.fds ∧
      u'.oserrno = 0 ∧ u'.pipes = u.pipes) ∨
    fcntlSet sys lineGet lineSet set u e = some ((true, set u.called.called), e) := by
  unfold fcntlSet
  cases sys.fails u.calls with
  | some oserr =>
    obtain ⟨e', hrun, hf, -⟩ := setLastErr_run sys (u := u.failed oserr) oserr.2 he
      (loc "proc_pipe.c" "pcl_proc_pipe" lineGet)
    refine .inl ⟨(u.failed oserr).noErrno, e', ?_, hf, rfl, rfl, rfl⟩
    simp only [ErrM.bind_run, hrun, Option.bind_some, ErrM.pure_run]
  | none =>
    simp only
    cases sys.fails u.called.calls with
    | some oserr =>
      obtain ⟨e', hrun, hf, -⟩ := setLastErr_run sys (u := u.called.failed oserr) oserr.2 he
        (loc "proc_pipe.c" "pcl_proc_pipe" lineSet)
      refine .inl ⟨(u.called.failed oserr).noErrno, e', ?_, hf, rfl, rfl, rfl⟩
      simp only [ErrM.bind_run, hrun, Option.bind_some, ErrM.pure_run]
    | none => exact .inr rfl

/-- The flags of one end. -/
theorem pipeFlags_spec (he : e.frozen = false) {fd : Nat} {f : OpenFile} (ha : Adds base ((fd, ⟨f, false⟩) :: l) u.fds)
    (oflags : OFlags) :
    (∃ u' e', pipeFlags sys fd oflags u e = some ((false, u'), e') ∧ e'.frozen = false ∧ u'.fds = u.fds ∧
      u'.oserrno = 0 ∧ u'.pipes = u.pipes) ∨
    ∃ u', pipeFlags sys fd oflags u e = some ((true, u'), e) ∧ Adds base ((fd, ⟨f, oflags.cloexec⟩) :: l) u'.fds ∧
      u'.pipes = u.pipes ∧
      u'.nonblock = if oflags.nonblock then Function.update u.nonblock f true else u.nonblock := by
  have hfile : u.fds.file fd = some f := by
    unfold FdTable.file
    rw [ha.added (fd, ⟨f, false⟩) List.mem_cons_self]
    rfl
  -- after the first of the two flags
  have hcloexec (u₁ : Unix) (hfds : u₁.fds = u.fds) (hpipes : u₁.pipes = u.pipes)
      (hmode : u₁.nonblock = if oflags.nonblock then Function.update u.nonblock f true else u.nonblock)
      (hrun : pipeFlags sys fd oflags u e = (if oflags.cloexec then
        fcntlSet sys 114 116 (fun u => { u with fds := u.fds.setCloexec fd }) u₁ else pure (true, u₁)) e) :
      (∃ u' e', pipeFlags sys fd oflags u e = some ((false, u'), e') ∧ e'.frozen = false ∧ u'.fds = u.fds ∧
        u'.oserrno = 0 ∧ u'.pipes = u.pipes) ∨
      ∃ u', pipeFlags sys fd oflags u e = some ((true, u'), e) ∧ Adds base ((fd, ⟨f, oflags.cloexec⟩) :: l) u'.fds ∧
        u'.pipes = u.pipes ∧
        u'.nonblock = if oflags.nonblock then Function.update u.nonblock f true else u.nonblock := by
    rw [hrun]
    cases hclo : oflags.cloexec with
    | false => exact .inr ⟨u₁, rfl, hfds ▸ ha, hpipes, hmode⟩
    | true =>
      rcases fcntlSet_spec sys (u := u₁) he 114 116 (fun u => { u with fds := u.fds.setCloexec fd }) with
        ⟨u', e', hset, hf, hfds', hno, hpipes'⟩ | hset
      · exact .inl ⟨u', e', hset, hf, hfds'.trans hfds, hno, hpipes'.trans hpipes⟩
      · refine .inr ⟨_, hset, ?_, hpipes, hmode⟩
        show Adds base _ (u₁.fds.setCloexec fd)
        rw [hfds]
        exact ha.setCloexec
  cases hnb : oflags.nonblock with
  | false =>
    refine hnb ▸ hcloexec u rfl rfl (by rw [hnb]; rfl) ?_
    simp only [pipeFlags, hnb, ErrM.bind_run, ErrM.pure_run, Option.bind_some, Bool.false_eq_true, if_false, reduceCtorEq]
  | true =>
    rcases fcntlSet_spec sys (u := u) he 97 99 (setNonblock fd) with
      ⟨u', e', hset, hf, hfds, hno, hpipes⟩ | hset
    · refine .inl ⟨u', e', ?_, hf, hfds, hno, hpipes⟩
      simp only [pipeFlags, hnb, ErrM.bind_run, if_true, hset, Option.bind_some, ErrM.pure_run]
    · have hmode : setNonblock fd u.called.called =
          { u.called.called with nonblock := Function.update u.nonblock f true } := by
        unfold setNonblock
        rw [show u.called.called.fds.file fd = some f from hfile]
        rfl
      refine hnb ▸ hcloexec (setNonblock fd u.called.called) (by rw [hmode]; rfl) (by rw [hmode]; rfl)
        (by rw [hmode, hnb]; rfl) ?_
      simp only [pipeFlags, hnb, ErrM.bind_run, if_true, hset, Option.bind_some, Bool.true_eq_false, if_false]

theorem close_both {fd₀ fd₁ : Nat} {d₀ d₁ : Descriptor OpenFile} (ha : Adds base ((fd₁, d₁) :: (fd₀, d₀) :: l) u.fds)
    (hfds : u'.fds = u.fds) : Adds base l ((u'.close fd₀).close fd₁).fds := by
  have hclosed := ((ha.perm (.swap _ _ _)).close).close
  rw [← hfds] at hclosed
  exact hclosed

/-- `pcl_proc_pipe` fails and leaves the descriptors alone, or there are two more. -/
theorem procPipe_spec (he : e.frozen = false) (ha : Adds base l u.fds) (rd wr : OFlags) :
    (∃ u' e', procPipe sys rd wr u e = some ((-1, none, u'), e') ∧ e'.frozen = false ∧ Adds base l u'.fds ∧
      u'.oserrno = 0) ∨
    ∃ fd₀ fd₁ u', procPipe sys rd wr u e = some ((0, some
        (⟨{ read := true, write := true, append := rd.append || wr.append, nonblock := rd.nonblock || wr.nonblock },
          some fd₀⟩, ⟨{}, some fd₁⟩), u'), e) ∧
      Adds base ((fd₁, ⟨.pipe u.pipes true, wr.cloexec⟩) :: (fd₀, ⟨.pipe u.pipes false, rd.cloexec⟩) :: l) u'.fds ∧
      u'.pipes = u.pipes + 1 ∧ u'.nonblock = Function.update (Function.update u.nonblock (.pipe u.pipes false) rd.nonblock)
        (.pipe u.pipes true) wr.nonblock := by
  unfold procPipe
  rcases sysPipe_spec sys ha with ⟨u₁, hpipe, hfds, hno, -⟩ | ⟨fd₀, fd₁, u₁, hpipe, ha₁, hpipes, hmode⟩
  · obtain ⟨e', hrun, hf, -⟩ := setLastErr_run sys hno he (loc "proc_pipe.c" "pcl_proc_pipe" 86)
    refine .inl ⟨u₁.noErrno, e', ?_, hf, hfds ▸ ha, rfl⟩
    simp only [hpipe, ErrM.bind_run, hrun, Option.bind_some, ErrM.pure_run]
  · simp only [hpipe]
    rcases pipeFlags_spec sys he (ha₁.perm (.swap _ _ _)) rd with
      ⟨u₂, e', hrd, hf, hfds, hno, -⟩ | ⟨u₂, hrd, ha₂, hpipes₂, hmode₂⟩
    · refine .inl ⟨(u₂.close fd₀).close fd₁, e', ?_, hf, close_both ha₁ hfds, hno⟩
      simp only [ErrM.bind_run, hrd, Option.bind_some, if_true, ErrM.pure_run]
    · have ha₂' := ha₂.perm (.swap _ _ _)
      rcases pipeFlags_spec sys he ha₂' wr with
        ⟨u₃, e', hwr, hf, hfds, hno, -⟩ | ⟨u₃, hwr, ha₃, hpipes₃, hmode₃⟩
      · refine .inl ⟨(u₃.close fd₀).close fd₁, e', ?_, hf, close_both ha₂' hfds, hno⟩
        simp only [ErrM.bind_run, hrd, hwr, Option.bind_some, if_true, Bool.true_eq_false, if_false, ErrM.pure_run]
      · refine .inr ⟨fd₀, fd₁, u₃, ?_, ha₃, by omega, ?_⟩
        · simp only [ErrM.bind_run, hrd, hwr, Option.bind_some, Bool.true_eq_false, if_false, ErrM.pure_run]
          simp [ipclFileInit, ipclFileAlloc, ipclOflagsToFflags]
        · -- the modes of a new pipe are the flags
          rw [hmode₃, hmode₂, hmode]
          funext f
          cases rd.nonblock <;> cases wr.nonblock <;>
            (by_cases h₁ : f = .pipe u.pipes true <;> by_cases h₀ : f = .pipe u.pipes false <;>
              simp_all [Function.update])

/-! ### The streams -/

theorem pairs_cons (ends : Std → Option StdPipe) (std : Std) (stds : List Std) :
    pairs ends (std :: stds) = ((ends std).map (StdPipe.pair std)).getD [] ++ pairs ends stds := List.flatMap_cons

theorem pairs_perm (ends : Std → Option StdPipe) (stds : List Std) :
    (stds.filterMap (childEntry ends) ++ stds.filterMap (fileEntry ends)).Perm (pairs ends stds) := by
  induction stds with
  | nil => exact .refl _
  | cons std stds ih =>
    rw [pairs_cons, List.filterMap_cons, List.filterMap_cons]
    unfold childEntry fileEntry at ih ⊢
    cases ends std with
    | none => exact ih
    | some x => exact (List.perm_middle.cons _).trans ((List.Perm.swap _ _ _).trans ((ih.cons _).cons _))

/-- One more stream. -/
theorem pairs_update (hnone : ends std = none) (x : StdPipe) {stds : List Std} (hnd : stds.Nodup) (hmem : std ∈ stds) :
    (pairs (Function.update ends std (some x)) stds).Perm (x.pair std ++ pairs ends stds) := by
  induction stds with
  | nil => cases hmem
  | cons a stds ih =>
    obtain ⟨hnot, hnd⟩ := List.nodup_cons.1 hnd
    rw [pairs_cons, pairs_cons]
    by_cases ha : a = std
    · subst ha
      have hsame : pairs (Function.update ends a (some x)) stds = pairs ends stds := by
        unfold pairs
        refine List.flatMap_congr fun b hb => ?_
        have hne : b ≠ a := fun heq => hnot (heq ▸ hb)
        rw [Function.update_of_ne hne]
      rw [hsame, Function.update_self, hnone]
      exact .refl _
    · rw [Function.update_of_ne ha]
      have hmem : std ∈ stds := (List.mem_cons.1 hmem).resolve_left (Ne.symm ha)
      exact ((ih hnd hmem).append_left _).trans (List.perm_append_comm_assoc _ _ _)

theorem fold_close (fds : List Nat) (u : Unix) :
    (fds.foldl Unix.close u).fds = fds.foldl FdTable.close u.fds ∧ (fds.foldl Unix.close u).oserrno = u.oserrno := by
  induction fds generalizing u with
  | nil => exact ⟨rfl, rfl⟩
  | cons fd fds ih => exact ih (u.close fd)

namespace Spawned

theorem childFds_eq (hs : Spawned flags base n₀ u sp ends) :
    sp.childFds = (Std.all.filterMap (childEntry ends)).map Prod.fst := by
  unfold Spawn.childFds
  rw [List.map_filterMap]
  refine List.filterMap_congr fun std _ => ?_
  rw [hs.childFd, childEntry, Option.map_map]
  rfl

theorem fileFds_eq (hs : Spawned flags base n₀ u sp ends) :
    sp.fileFds = (Std.all.filterMap (fileEntry ends)).map Prod.fst := by
  unfold Spawn.fileFds
  rw [List.map_filterMap]
  refine List.filterMap_congr fun std _ => ?_
  rw [hs.files, fileEntry, Option.map_map]
  cases ends std with
  | none => rfl
  | some x => cases std <;> rfl

/-- `CLOSE_ALL`. -/
theorem closeAll (hs : Spawned flags base n₀ u sp ends) (ha : Adds base (pairs ends Std.all) u'.fds) (e : ErrState) :
    ∃ u'' e', closeAll sp u' e = some (u'', e') ∧ (e.frozen = false → e'.frozen = false) ∧ u''.fds = base ∧
      u''.oserrno = u'.oserrno := by
  obtain ⟨e', hrun, hf⟩ := closeFiles_run e sp
  obtain ⟨hfds, hno⟩ := fold_close (sp.childFds ++ sp.fileFds) u'
  refine ⟨_, e', ?_, hf, ?_, hno⟩
  · simp only [Pcl.closeAll, ErrM.bind_run, hrun, Option.bind_some, ErrM.pure_run]
  · have hclosed := (ha.perm ((pairs_perm ends Std.all).symm.trans (by rw [List.append_nil]))).closeAll
    rw [hfds, hs.childFds_eq, hs.fileFds_eq, ← List.map_append]
    exact hclosed.eq_base

theorem start (flags : ExecFlags) (u : Unix) : Spawned flags u.fds u.pipes u .none fun _ => none where
  files _ := rfl
  childFd _ := rfl
  adds := Adds.nil u.fds
  numbers _ _ h := nomatch h
  distinct _ _ _ _ h := nomatch h
  modes _ _ h := nomatch h
  first := le_refl _

/-- The pipe of one more stream. -/
theorem next (hs : Spawned flags base n₀ u sp ends) (hnone : ends std = none) {x : StdPipe} (hn : x.n = u.pipes)
    (ha : Adds base (x.pair std ++ pairs ends Std.all) u'.fds) (hpipes : u'.pipes = u.pipes + 1)
    (hmode : u'.nonblock = Function.update (Function.update u.nonblock (.pipe u.pipes (!std.writes)) false)
      (.pipe u.pipes std.writes) (flags.streamNb std)) :
    Spawned flags base n₀ u' ⟨Function.update sp.files std (some (x.handle flags std)),
      Function.update sp.childFd std (some x.child)⟩ (Function.update ends std (some x)) where
  files std' := by
    by_cases h : std' = std
    · subst h
      simp only [Function.update_self, Option.map_some]
    · simp only [Function.update_of_ne h]
      exact hs.files std'
  childFd std' := by
    by_cases h : std' = std
    · subst h
      simp only [Function.update_self, Option.map_some]
    · simp only [Function.update_of_ne h]
      exact hs.childFd std'
  adds := ha.perm (pairs_update hnone x (by decide) (by cases std <;> decide)).symm
  numbers std' y hy := by
    by_cases h : std' = std
    · subst h
      rw [Function.update_self] at hy
      cases hy
      have := hs.first
      omega
    · rw [Function.update_of_ne h] at hy
      have := hs.numbers std' y hy
      omega
  distinct a b y z hy hz heq := by
    have hlt {c : Std} {w : StdPipe} (hc : c ≠ std) (hw : Function.update ends std (some x) c = some w) :
        ends c = some w ∧ w.n < x.n := by
      rw [Function.update_of_ne hc] at hw
      have := hs.numbers c w hw
      exact ⟨hw, by omega⟩
    have hself {w : StdPipe} (hw : Function.update ends std (some x) std = some w) : w = x := by
      rw [Function.update_self] at hw
      exact (Option.some.inj hw).symm
    by_cases ha' : a = std <;> by_cases hb' : b = std
    · rw [ha', hb']
    · obtain rfl := hself (ha' ▸ hy)
      have := (hlt hb' hz).2
      omega
    · obtain rfl := hself (hb' ▸ hz)
      have := (hlt ha' hy).2
      omega
    · exact hs.distinct a b y z (hlt ha' hy).1 (hlt hb' hz).1 heq
  modes std' y hy := by
    by_cases h : std' = std
    · subst h
      rw [Function.update_self] at hy
      cases hy
      rw [hmode, hn]
      cases std'.writes <;> simp [Function.update]
    · rw [Function.update_of_ne h] at hy
      have hne (w w' : Bool) : OpenFile.pipe y.n w ≠ .pipe u.pipes w' := by
        have := (hs.numbers std' y hy).2
        intro heq
        injection heq with heq
        omega
      rw [hmode]
      simp only [Function.update_of_ne (hne _ _)]
      exact hs.modes std' y hy
  first := by
    have := hs.first
    omega

end Spawned

/-- The pipe of a stream. -/
theorem procPipe_std (he : e.frozen = false) (ha : Adds base l u.fds) (flags : ExecFlags) (std : Std) :
    (∃ u' e', procPipe sys (pipeOflags flags std).1 (pipeOflags flags std).2 u e = some ((-1, none, u'), e') ∧
      e'.frozen = false ∧ Adds base l u'.fds ∧ u'.oserrno = 0) ∨
    ∃ (x : StdPipe) (pipes : PFile × PFile) (u' : Unix),
      procPipe sys (pipeOflags flags std).1 (pipeOflags flags std).2 u e = some ((0, some pipes, u'), e) ∧
      (keepEnd std pipes).1 = x.handle flags std ∧ (keepEnd std pipes).2.fd = some x.child ∧ x.n = u.pipes ∧
      Adds base (x.pair std ++ l) u'.fds ∧ u'.pipes = u.pipes + 1 ∧
      u'.nonblock = Function.update (Function.update u.nonblock (.pipe u.pipes (!std.writes)) false)
        (.pipe u.pipes std.writes) (flags.streamNb std) := by
  refine (procPipe_spec sys he ha (pipeOflags flags std).1 (pipeOflags flags std).2).imp_right ?_
  rintro ⟨fd₀, fd₁, u', hrun, ha', hpipes, hmode⟩
  have hne : OpenFile.pipe u.pipes true ≠ .pipe u.pipes false := fun h => by injection h with _ h; cases h
  cases std with
  | stdin => exact ⟨⟨fd₁, fd₀, u.pipes⟩, _, u', hrun, rfl, rfl, rfl, ha', hpipes, hmode⟩
  | stdout =>
    refine ⟨⟨fd₀, fd₁, u.pipes⟩, _, u', hrun, ?_, rfl, rfl, ha'.perm (.swap _ _ _), hpipes, ?_⟩
    · simp [keepEnd, pipeOflags, StdPipe.handle]
    · rw [hmode, Function.update_comm hne.symm]
      rfl
  | stderr =>
    refine ⟨⟨fd₀, fd₁, u.pipes⟩, _, u', hrun, ?_, rfl, rfl, ha'.perm (.swap _ _ _), hpipes, ?_⟩
    · simp [keepEnd, pipeOflags, StdPipe.handle]
    · rw [hmode, Function.update_comm hne.symm]
      rfl

/-- A stream is opened, or the function returns without an error and nothing is left open. -/
theorem openStd_spec (hs : Spawned flags base n₀ u sp ends) (hnone : ends std = none) (he : e.frozen = false) :
    (∃ u' e', openStd sys flags std sp u e = some ((some 0, Spawn.none, u'), e') ∧ e'.frozen = false ∧ e'.err = eOkay ∧
      u'.fds = base) ∨
    ∃ sp' u' e' ends', openStd sys flags std sp u e = some ((none, sp', u'), e') ∧ e'.frozen = false ∧
      Spawned flags base n₀ u' sp' ends' ∧ (∀ std', std' ≠ std → ends' std' = ends std') ∧
      ((ends' std).isSome = true ↔ flags.stream std = true ∨ flags.streamNb std = true) := by
  by_cases hwant : flags.stream std = true ∨ flags.streamNb std = true
  · rcases procPipe_std sys he hs.adds flags std with
      ⟨u₁, e₁, hpipe, hf₁, ha, hno⟩ | ⟨x, pipes, u₁, hpipe, hfile, hchild, hn, ha, hpipes, hmode⟩
    · obtain ⟨u₂, e₂, hclose, hf₂, hfds, hno₂⟩ := hs.closeAll ha e₁
      obtain ⟨e₃, hset, hf₃, herr₃⟩ := setLastErr_lost sys (u := u₂) (hno₂ ▸ hno) (hf₂ hf₁)
        (loc "unix_proc_exec.c" "pcl_proc_exec" std.failLine)
      refine .inl ⟨u₂.noErrno, e₃, ?_, hf₃, herr₃, hfds⟩
      simp only [openStd, if_pos hwant, ErrM.bind_run, hpipe, Option.bind_some, ne_eq, Int.reduceNeg, Int.reduceEq,
        not_false_eq_true, if_true, hclose, hset, ErrM.pure_run]
    · refine .inr ⟨_, u₁, e.thawed, _, ?_, rfl, hs.next hnone hn ha hpipes hmode, fun std' h => ?_, ?_⟩
      · simp only [openStd, if_pos hwant, ErrM.bind_run, hpipe, Option.bind_some, ne_eq, not_true_eq_false, if_false,
          fileClose_run, Option.isSome_some, if_true, hfile, hchild, ErrM.pure_run]
      · exact Function.update_of_ne h ..
      · rw [Function.update_self]
        exact iff_of_true rfl hwant
  · refine .inr ⟨sp, u, e, ends, ?_, he, hs, fun _ _ => rfl, ?_⟩
    · simp only [openStd, if_neg hwant, ErrM.pure_run]
    · rw [hnone]
      exact iff_of_false (by decide) hwant

/-- All streams are opened, or nothing is left open. -/
theorem openStds_spec (stds : List Std) (hnd : stds.Nodup) (hs : Spawned flags base n₀ u sp ends)
    (hnone : ∀ std ∈ stds, ends std = none) (he : e.frozen = false) :
    (∃ u' e', openStds sys flags stds sp u e = some ((some 0, Spawn.none, u'), e') ∧ e'.frozen = false ∧ e'.err = eOkay ∧
      u'.fds = base) ∨
    ∃ sp' u' e' ends', openStds sys flags stds sp u e = some ((none, sp', u'), e') ∧ e'.frozen = false ∧
      Spawned flags base n₀ u' sp' ends' ∧ (∀ std ∉ stds, ends' std = ends std) ∧
      ∀ std ∈ stds, (ends' std).isSome = true ↔ flags.stream std = true ∨ flags.streamNb std = true := by
  induction stds generalizing u sp ends e with
  | nil => exact .inr ⟨sp, u, e, ends, rfl, he, hs, fun _ _ => rfl, fun std h => nomatch h⟩
  | cons std stds ih =>
    obtain ⟨hnot, hnd⟩ := List.nodup_cons.1 hnd
    rcases openStd_spec sys hs (hnone std List.mem_cons_self) he with
      ⟨u₁, e₁, hrun, hf, herr, hfds⟩ | ⟨sp₁, u₁, e₁, ends₁, hrun, hf, hs₁, hsame, hopen⟩
    · refine .inl ⟨u₁, e₁, ?_, hf, herr, hfds⟩
      simp only [openStds, ErrM.bind_run, hrun, Option.bind_some, ErrM.pure_run]
    · have hnone₁ (std' : Std) (h : std' ∈ stds) : ends₁ std' = none := by
        rw [hsame std' fun heq => hnot (heq ▸ h)]
        exact hnone std' (List.mem_cons_of_mem _ h)
      have hstep : openStds sys flags (std :: stds) sp u e = openStds sys flags stds sp₁ u₁ e₁ := by
        simp only [openStds, ErrM.bind_run, hrun, Option.bind_some]
      rw [hstep]
      refine (ih hnd hs₁ hnone₁ hf).imp_right ?_
      rintro ⟨sp', u', e', ends', hrest, hf', hs', hsame', hopen'⟩
      refine ⟨sp', u', e', ends', hrest, hf', hs', fun std' h => ?_, fun std' h => ?_⟩
      · rw [List.mem_cons, not_or] at h
        rw [hsame' std' h.2, hsame std' h.1]
      · rcases List.mem_cons.1 h with rfl | h
        · rw [hsame' std' hnot]
          exact hopen
        · exact hopen' std' h

/-! ### Up to the fork -/

/-- A parser that fails leaves an error. -/
theorem parsecmdLoop_error (start shellCmd : List UInt8) (inQuote : Bool) (arr : List CStr) {r : Option (List CStr)}
    {e e' : ErrState} (hrun : parsecmdLoop start shellCmd inQuote arr e = some (r, e')) (he : e.frozen = false) :
    e'.frozen = false ∧ (r = none → e'.err ≠ eOkay) := by
  have hset (line : Int) (msg : String) (h : (setErrMsg (loc "proc_parsecmd.c" "pcl_proc_parsecmd" line) eSyntax msg >>=
      fun _ => pure none : ErrM (Option (List CStr))) e = some (r, e')) : e'.frozen = false ∧ (r = none → e'.err ≠ eOkay) := by
    rw [ErrM.bind_run, setErrMsg_run _ _ _ _ (show eSyntax ≠ eOkay by decide)] at h
    cases h
    rw [raised_frozen, raised_err _ _ _ _ _ he]
    exact ⟨he, fun _ => by decide⟩
  fun_induction parsecmdLoop start shellCmd inQuote arr
  case case1 => exact hset 87 _ hrun
  case case2 =>
    cases hrun
    exact ⟨he, fun h => absurd h (Option.some_ne_none _)⟩
  case case3 => cases hrun
  case case5 => exact hset 77 _ hrun
  all_goals next ih => exact ih hrun

theorem procParsecmd_error {cmd : CStr} {r : Option Argv} {e e' : ErrState} (hrun : procParsecmd (some cmd) e = some (r, e'))
    (he : e.frozen = false) : e'.frozen = false ∧ (r = none → e'.err ≠ eOkay) := by
  obtain ⟨arr, hloop, rfl, -⟩ := procParsecmd_list hrun
  obtain ⟨hf, herr⟩ := parsecmdLoop_error _ _ _ _ hloop he
  exact ⟨hf, fun hnone => herr (Option.map_eq_none_iff.1 hnone)⟩

/-- The parser gets to the end of the command. -/
def ExecArgs.Parses (exec : ExecArgs) (e : ErrState) : Prop :=
  ∀ command, exec.command = some command →
    (procParsecmd (some (.ofBytes (command.bytes.dropWhile isspace))) e).isSome = true

/-- Where the parent and the child part. -/
structure Parting (flags : ExecFlags) (u : Unix) (f : ExecFork) (u' : Unix) (ends : Std → Option StdPipe) (n : Nat) : Prop where
  before : ∃ u₁, Spawned flags u.fds u.pipes u₁ f.spawn ends ∧ u₁.pipes = n ∧
    ∀ k w, k ≠ n → u'.nonblock (.pipe k w) = u₁.nonblock (.pipe k w)
  opened : ∀ std, (ends std).isSome = true ↔ flags.stream std = true ∨ flags.streamNb std = true
  adds : Adds u.fds ((f.err₁, ⟨.pipe n true, false⟩) :: (f.err₀, ⟨.pipe n false, false⟩) :: pairs ends Std.all) u'.fds

/-- The pipe of a stream cannot be made, or its flags not be set. -/
def StreamFails (flags : ExecFlags) (u : Unix) : Prop :=
  ∃ e r sp u' e', e.frozen = false ∧ openStds sys flags Std.all .none u e = some ((some r, sp, u'), e')

/-- A failure after which the caller has the descriptors it had. Where it is a stream that failed, the error is lost. -/
def ExecFailed (flags : ExecFlags) (x : ErrM (Except (Int × ExecOut) ExecFork × Unix)) (u : Unix) (e : ErrState) : Prop :=
  ∃ r out u' e', x e = some ((.error (r, out), u'), e') ∧ e'.frozen = false ∧ u'.fds = u.fds ∧
    (out.files = fun _ => none) ∧
    (r = -1 ∧ e'.err ≠ eOkay ∨ r = 0 ∧ e'.err = eOkay ∧ out.pid = 0 ∧ StreamFails sys flags u)

/-- Two processes. -/
def ExecParts (flags : ExecFlags) (x : ErrM (Except (Int × ExecOut) ExecFork × Unix)) (u : Unix) (e : ErrState) : Prop :=
  ∃ f u' e' ends n, x e = some ((.ok f, u'), e') ∧ e'.frozen = false ∧ Parting flags u f u' ends n

theorem execPipes_spec (flags : ExecFlags) (argv : List CStr) (u : Unix) (he : e.frozen = false) :
    ExecFailed sys flags (execPipes sys flags argv u) u e ∨ ExecParts flags (execPipes sys flags argv u) u e := by
  rcases openStds_spec sys Std.all (by decide) (Spawned.start flags u) (fun _ _ => rfl) he with
    ⟨u₁, e₁, hopen, hf₁, herr₁, hfds⟩ | ⟨sp, u₁, e₁, ends, hopen, hf₁, hs, -, hopened⟩
  · refine .inl ⟨0, .none, u₁, e₁, ?_, hf₁, hfds, rfl, .inr ⟨rfl, herr₁, rfl, e, _, _, _, _, he, hopen⟩⟩
    simp only [execPipes, ErrM.bind_run, hopen, Option.bind_some, ErrM.pure_run]
    rfl
  · rcases sysPipe_spec sys hs.adds with ⟨u₂, hpipe, hfds, hno, -⟩ | ⟨err₀, err₁, u₂, hpipe, ha, hpipes, hmode⟩
    · obtain ⟨u₃, e₃, hclose, hf₃, hfds₃, hno₃⟩ := hs.closeAll (hfds ▸ hs.adds) e₁
      obtain ⟨e₄, hset, hf₄, herr₄⟩ := setLastErr_run sys (u := u₃) (hno₃ ▸ hno) (hf₃ hf₁)
        (loc "unix_proc_exec.c" "pcl_proc_exec" 215)
      refine .inl ⟨-1, .none, u₃.noErrno, e₄, ?_, hf₄, hfds₃, rfl, .inl ⟨rfl, herr₄⟩⟩
      simp only [execPipes, ErrM.bind_run, hopen, Option.bind_some, hpipe, hclose, hset, ErrM.pure_run]
      rfl
    · cases hfork : sys.fails u₂.calls with
      | some oserr =>
        have ha₃ : Adds u.fds (pairs ends Std.all) (((u₂.failed oserr).close err₀).close err₁).fds := close_both ha rfl
        obtain ⟨u₄, e₄, hclose, -, hfds₄, hno₄⟩ := hs.closeAll ha₃ { e₁ with frozen := true }
        obtain ⟨e₅, hset, hf₅, herr₅⟩ := setLastErr_run sys (u := u₄) (hno₄ ▸ oserr.2)
          (show ({ e₄ with frozen := false } : ErrState).frozen = false from rfl) (loc "unix_proc_exec.c" "pcl_proc_exec" 231)
        refine .inl ⟨-1, { ExecOut.none with pid := -1 }, u₄.noErrno, e₅, ?_, hf₅, hfds₄, rfl, .inl ⟨rfl, herr₅⟩⟩
        simp only [execPipes, ErrM.bind_run, hopen, Option.bind_some, hpipe, hfork, errFreeze_run, hclose, hset,
          ErrM.pure_run]
      | none =>
        refine .inr ⟨⟨sp, err₀, err₁, argv⟩, u₂.called, e₁, ends, u₁.pipes, ?_, hf₁, ⟨u₁, hs, rfl, fun k w hk => ?_⟩,
          fun std => hopened std (by cases std <;> decide), ha⟩
        · simp only [execPipes, ErrM.bind_run, hopen, Option.bind_some, hpipe, hfork, ErrM.pure_run]
        · show u₂.nonblock _ = _
          have hne (w' : Bool) : OpenFile.pipe k w ≠ .pipe u₁.pipes w' := fun h => hk (by injection h)
          rw [hmode, Function.update_of_ne (hne true), Function.update_of_ne (hne false)]

/-- The function has returned and left no descriptor open, or the two part. -/
theorem procExecFork_spec (tl : Tolower) {exec : ExecArgs} (flags : ExecFlags) (u : Unix)
    (he : e.frozen = false) (hparse : exec.Parses e) :
    ExecFailed sys flags (procExecFork sys tl exec flags u) u e ∨ ExecParts flags (procExecFork sys tl exec flags u) u e := by
  have hfail (e' : ErrState) (hf : e'.frozen = false) (herr : e'.err ≠ eOkay)
      (hrun : procExecFork sys tl exec flags u e = some ((.error (-1, .none), u), e')) :
      ExecFailed sys flags (procExecFork sys tl exec flags u) u e :=
    ⟨-1, .none, u, e', hrun, hf, rfl, rfl, .inl ⟨rfl, herr⟩⟩
  have hinval : (e.raised (loc "unix_proc_exec.c" "pcl_proc_exec" 91) eInval 0 none).err ≠ eOkay := by
    rw [raised_err _ _ _ _ _ he]
    decide
  have hbad (l : Loc) : badArg l e = some (-1, e.raised l eInval 0 none) := by rw [badArg_run, he]; rfl
  cases hcmd : exec.command with
  | none =>
    refine .inl (hfail (e.raised (loc "unix_proc_exec.c" "pcl_proc_exec" 91) eInval 0 none) ?_ hinval ?_)
    · rw [raised_frozen, he]
    · simp only [procExecFork, hcmd, ErrM.bind_run, hbad, Option.bind_some, ErrM.pure_run]
      rfl
  | some command =>
    by_cases hempty : command.bytes = []
    · refine .inl (hfail (e.raised (loc "unix_proc_exec.c" "pcl_proc_exec" 91) eInval 0 none) ?_ hinval ?_)
      · rw [raised_frozen, he]
      · simp only [procExecFork, hcmd, if_pos hempty, ErrM.bind_run, hbad, Option.bind_some, ErrM.pure_run]
        rfl
    · obtain ⟨⟨arr, e₁⟩, hrun⟩ := Option.isSome_iff_exists.1 (hparse command hcmd)
      obtain ⟨hf₁, herr₁⟩ := procParsecmd_error hrun he
      cases arr with
      | none =>
        obtain ⟨e₂, htrc, hf₂, herr₂⟩ := errVtrace_fails hf₁ (herr₁ rfl) (loc "unix_proc_exec.c" "pcl_proc_exec" 99)
          (some (.ofBytes (txt "error parsing command: '" ++ command.bytes ++ txt "'")))
        refine .inl (hfail e₂ hf₂ (by rw [herr₂]; exact herr₁ rfl) ?_)
        simp only [procExecFork, hcmd, if_neg hempty, ErrM.bind_run, hrun, Option.bind_some, htrc, ErrM.pure_run]
        rfl
      | some arr =>
        by_cases hcount : arr.count = 0
        · refine .inl (hfail (e₁.raised (loc "unix_proc_exec.c" "pcl_proc_exec" 112) eBadcmd 0
            (some (.lit "command is empty"))) ?_ ?_ ?_)
          · rw [raised_frozen, hf₁]
          · rw [raised_err _ _ _ _ _ hf₁]
            decide
          · simp only [procExecFork, hcmd, if_neg hempty, ErrM.bind_run, hrun, Option.bind_some, if_pos hcount,
              setErrMsg_run _ _ _ _ (show eBadcmd ≠ eOkay by decide), hf₁, ErrM.pure_run]
            rfl
        · have hstep (argv : List CStr) (hargv : argv = if flags.shell then shellArgv sys tl command
              else arr.elements.filterMap id) : procExecFork sys tl exec flags u e = execPipes sys flags argv u e₁ := by
            simp only [procExecFork, hcmd, if_neg hempty, ErrM.bind_run, hrun, Option.bind_some, if_neg hcount, hargv]
          unfold ExecFailed ExecParts
          rw [hstep _ rfl]
          exact execPipes_spec sys flags _ u hf₁

end
end Pcl

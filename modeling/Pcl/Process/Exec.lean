import Pcl.File.Handle
import Pcl.Lib.Descriptors
import Pcl.Log.Vevent
import Pcl.Process.Parsecmd

/-!
# Starting a program

`proc_pipe.c` and `unix_proc_exec.c` of `src/process`: what the calling process does up to the fork, and the calls that
the two processes make after it. Each system call that can fail has a number, and the system says which of them do.
-/

namespace Pcl

def eBadcmd : Int := 7

/-- The standard streams, with their descriptors. -/
inductive Std where
  | stdin
  | stdout
  | stderr
deriving DecidableEq

def Std.all : List Std := [.stdin, .stdout, .stderr]

def Std.fd : Std → Nat
  | stdin => 0
  | stdout => 1
  | stderr => 2

/-- What a descriptor is for: an end of a pipe, or another file. -/
inductive OpenFile where
  | pipe (n : Nat) (write : Bool)
  | other (n : Nat)
deriving DecidableEq

/-- The calling process as the kernel has it: its descriptors, `O_NONBLOCK` of the open files, the pipes there were so
far, the calls that could fail, and `errno`. -/
structure Unix where
  fds : FdTable OpenFile
  nonblock : OpenFile → Bool
  pipes : Nat
  calls : Nat
  oserrno : UInt32

abbrev Oserr := {oserr : UInt32 // oserr ≠ 0}

/-- What the system allows and what it answers: the descriptors that a process may have, the calls that fail, what `fork`
returns to the parent, the clock, `SHELL`, and the calls of the child before it runs the program. -/
structure UnixSystem where
  limit : Nat
  emfile : Oserr
  fails : Nat → Option Oserr
  os2pcl : UInt32 → Int
  okay_iff : ∀ oserr, os2pcl oserr = eOkay ↔ oserr = 0
  pid : Nat
  pid_pos : 0 < pid
  time : Int × Nat
  shell : Option CStr
  getuid : CStr → Option UInt32
  initgroups : CStr → UInt32 → Bool
  getgid : CStr → Option UInt32
  setgid : UInt32 → Bool
  setuid : UInt32 → Bool
  chdir : CStr → Option Oserr
  getcwd : Option CStr
  setenv : CStr → Option Oserr
  execvp : List CStr → Option Oserr

namespace Unix

def called (u : Unix) : Unix := { u with calls := u.calls + 1 }

def failed (u : Unix) (oserr : Oserr) : Unix := { u with calls := u.calls + 1, oserrno := oserr }

def close (u : Unix) (fd : Nat) : Unix := { u with fds := u.fds.close fd }

end Unix

variable (sys : UnixSystem)

/-- `SETLASTERR`; `pcl_err_clear`, with which the error is set, resets `errno` as well. -/
def setLastErr (l : Loc) (u : Unix) : ErrM (Int × Unix) := do
  let err ← errGet
  let r ← errVset l (sys.os2pcl u.oserrno) u.oserrno none
  return (r, if err.frozen then u else { u with oserrno := 0 })

/-- `pipe`: the two lowest descriptors. -/
def sysPipe (u : Unix) : Option (Nat × Nat) × Unix :=
  match sys.fails u.calls with
  | some oserr => (none, u.failed oserr)
  | none =>
    match u.fds.lowest sys.limit with
    | none => (none, u.failed sys.emfile)
    | some rd =>
      let fds := u.fds.opened rd (.pipe u.pipes false)
      match fds.lowest sys.limit with
      | none => (none, u.failed sys.emfile)
      | some wr => (some (rd, wr),
          { fds := fds.opened wr (.pipe u.pipes true)
            nonblock := Function.update (Function.update u.nonblock (.pipe u.pipes false) false) (.pipe u.pipes true) false
            pipes := u.pipes + 1
            calls := u.calls + 1
            oserrno := u.oserrno })

/-! ### `pcl_proc_pipe` -/

/-- A flag of a descriptor is read with `fcntl`, and set. -/
def fcntlSet (lineGet lineSet : Int) (set : Unix → Unix) (u : Unix) : ErrM (Bool × Unix) :=
  match sys.fails u.calls with
  | some oserr => do
    let (_, u) ← setLastErr sys (loc "proc_pipe.c" "pcl_proc_pipe" lineGet) (u.failed oserr)
    return (false, u)
  | none =>
    let u := u.called
    match sys.fails u.calls with
    | some oserr => do
      let (_, u) ← setLastErr sys (loc "proc_pipe.c" "pcl_proc_pipe" lineSet) (u.failed oserr)
      return (false, u)
    | none => return (true, set u.called)

def setNonblock (fd : Nat) (u : Unix) : Unix :=
  match u.fds.file fd with
  | some f => { u with nonblock := Function.update u.nonblock f true }
  | none => u

/-- The loop's body for one end of the pipe. -/
def pipeFlags (fd : Nat) (oflags : OFlags) (u : Unix) : ErrM (Bool × Unix) := do
  let (ok, u) ← if oflags.nonblock then fcntlSet sys 97 99 (setNonblock fd) u else pure (true, u)
  if ok = false then return (false, u)
  else if oflags.cloexec then fcntlSet sys 114 116 (fun u => { u with fds := u.fds.setCloexec fd }) u
  else return (true, u)

/-- `pcl_proc_pipe`. -/
def procPipe (rdOflags wrOflags : OFlags) (u : Unix) : ErrM (Int × Option (PFile × PFile) × Unix) :=
  match sysPipe sys u with
  | (none, u) => do
    let (r, u) ← setLastErr sys (loc "proc_pipe.c" "pcl_proc_pipe" 86) u
    return (r, none, u)
  | (some (fd₀, fd₁), u) => do
    let (ok, u) ← pipeFlags sys fd₀ rdOflags u
    if ok = false then return (-1, none, (u.close fd₀).close fd₁)
    else
      let (ok, u) ← pipeFlags sys fd₁ wrOflags u
      if ok = false then return (-1, none, (u.close fd₀).close fd₁)
      else
        let rdOflags := { rdOflags with wronly := false, rdwr := false }
        let pipe₀ := ipclFileInit (ipclFileAlloc fd₀ {}) rdOflags
        let wrOflags := { wrOflags with rdwr := false, wronly := true }
        let pipe₁ := ipclFileAlloc fd₁ {}
        -- it is pipes[0] again
        let pipe₀ := ipclFileInit pipe₀ wrOflags
        return (0, some (pipe₀, pipe₁), u)

/-! ### `pcl_proc_exec` up to the fork -/

/-- The input of a `pcl_proc_exec_t`. -/
structure ExecArgs where
  command : Option CStr
  user : Option CStr
  group : Option CStr
  cwd : Option CStr
  ldpath : Option CStr

/-- The flags `PCL_EXEC_xxx`; those of a stream are functions of it. -/
structure ExecFlags where
  stream : Std → Bool
  streamNb : Std → Bool
  shell : Bool
  handle : Bool
  ldpath : Bool

/-- The output of a `pcl_proc_exec_t`. -/
structure ExecOut where
  pid : Int
  handle : Int
  start : Int × Nat
  files : Std → Option PFile

def ExecOut.none : ExecOut := ⟨0, 0, (0, 0), fun _ => .none⟩

/-- The files for the parent and the descriptors for the child. -/
structure Spawn where
  files : Std → Option PFile
  childFd : Std → Option Nat

def Spawn.none : Spawn := ⟨fun _ => .none, fun _ => .none⟩

/-- The descriptors that `CLOSE_FDS` closes, in its order. -/
def Spawn.childFds (sp : Spawn) : List Nat := Std.all.filterMap sp.childFd

/-- The descriptors that `CLOSE_FILES` closes. -/
def Spawn.fileFds (sp : Spawn) : List Nat := Std.all.filterMap fun std => (sp.files std).bind PFile.fd

/-- What the `pcl_file_close` of `CLOSE_FILES` do to the error state. -/
def closeFiles (sp : Spawn) : ErrM Unit := do
  fileClose ((sp.files .stdin).map fun f => f.flags.flock) []
  fileClose ((sp.files .stdout).map fun f => f.flags.flock) []
  fileClose ((sp.files .stderr).map fun f => f.flags.flock) []

/-- `CLOSE_ALL`. -/
def closeAll (sp : Spawn) (u : Unix) : ErrM Unix := do
  closeFiles sp
  return (sp.childFds ++ sp.fileFds).foldl Unix.close u

def Std.failLine : Std → Int
  | stdin => 165
  | stdout => 182
  | stderr => 199

/-- The flags of the read end and of the write end: those asked for are for the end that the caller keeps. -/
def pipeOflags (flags : ExecFlags) (std : Std) : OFlags × OFlags :=
  let mine : OFlags := { nonblock := flags.streamNb std, cloexec := true }
  match std with
  | .stdin => ({}, mine)
  | .stdout | .stderr => (mine, {})

/-- Of the two ends, the caller's and the child's. -/
def keepEnd (std : Std) (pipes : PFile × PFile) : PFile × PFile :=
  match std with
  | .stdin => (pipes.2, pipes.1)
  | .stdout | .stderr => pipes

/-- The pipe for a stream, if there is to be one; the function may return then. -/
def openStd (flags : ExecFlags) (std : Std) (sp : Spawn) (u : Unix) : ErrM (Option Int × Spawn × Unix) :=
  if flags.stream std = true ∨ flags.streamNb std = true then do
    let oflags := pipeOflags flags std
    let (r, pipes, u) ← procPipe sys oflags.1 oflags.2 u
    if r ≠ 0 then
      let u ← closeAll sp u
      -- `errno` is that of the first `SETLASTERR`
      let (r, u) ← setLastErr sys (loc "unix_proc_exec.c" "pcl_proc_exec" std.failLine) u
      return (some r, Spawn.none, u)
    else
      match pipes with
      -- `pipes` was not set
      | none => ErrM.undef
      | some pipes =>
        let (file, child) := keepEnd std pipes
        -- its descriptor was taken out
        fileClose (some child.flags.flock) []
        return (none, ⟨Function.update sp.files std (some file), Function.update sp.childFd std child.fd⟩, u)
  else return (none, sp, u)

def openStds (flags : ExecFlags) : List Std → Spawn → Unix → ErrM (Option Int × Spawn × Unix)
  | [], sp, u => return (none, sp, u)
  | std :: stds, sp, u => do
    let (r, sp, u) ← openStd sys flags std sp u
    match r with
    | some r => return (some r, sp, u)
    | none => openStds flags stds sp u

/-- The arguments for `PCL_EXEC_SHELL`. -/
def shellArgv (tl : Tolower) (command : CStr) : List CStr :=
  let shell := sys.shell.getD (.lit "/bin/sh")
  let has (name : String) : Bool := (stristr tl (txt name) shell.bytes).isSome
  let login : List CStr := if has "/tcsh" || has "/csh" then [.lit "-m"] else if has "/zsh" then [] else [.lit "-l"]
  [shell] ++ login ++ [.lit "-c", command]

/-- What the parent and the child have when they part. -/
structure ExecFork where
  spawn : Spawn
  err₀ : Nat
  err₁ : Nat
  argv : List CStr

/-- The function returns before it has started a program. -/
def execFails (r : Int) (u : Unix) : Except (Int × ExecOut) ExecFork × Unix := (.error (r, .none), u)

/-- The pipes and the fork. -/
def execPipes (flags : ExecFlags) (argv : List CStr) (u : Unix) : ErrM (Except (Int × ExecOut) ExecFork × Unix) := do
  let (r, sp, u) ← openStds sys flags Std.all .none u
  match r with
  | some r => return execFails r u
  | none =>
    match sysPipe sys u with
    | (none, u) =>
      let u ← closeAll sp u
      let (r, u) ← setLastErr sys (loc "unix_proc_exec.c" "pcl_proc_exec" 215) u
      return execFails r u
    | (some (err₀, err₁), u) =>
      match sys.fails u.calls with
      | some oserr =>
        let u := u.failed oserr
        errFreeze true
        let u ← closeAll sp ((u.close err₀).close err₁)
        errFreeze false
        let (r, u) ← setLastErr sys (loc "unix_proc_exec.c" "pcl_proc_exec" 231) u
        return (.error (r, { ExecOut.none with pid := -1 }), u)
      | none => return (.ok ⟨sp, err₀, err₁, argv⟩, u.called)

/-- `pcl_proc_exec` as far as the fork: it has returned, or the two part. -/
def procExecFork (tl : Tolower) (exec : ExecArgs) (flags : ExecFlags) (u : Unix) :
    ErrM (Except (Int × ExecOut) ExecFork × Unix) :=
  match exec.command with
  | none => do
    let r ← badArg (loc "unix_proc_exec.c" "pcl_proc_exec" 91)
    return execFails r u
  | some command =>
    if command.bytes = [] then do
      let r ← badArg (loc "unix_proc_exec.c" "pcl_proc_exec" 91)
      return execFails r u
    else do
      match ← procParsecmd (some (.ofBytes (command.bytes.dropWhile isspace))) with
      | none =>
        let r ← errVtrace (loc "unix_proc_exec.c" "pcl_proc_exec" 99)
          (some (.ofBytes (txt "error parsing command: '" ++ command.bytes ++ txt "'")))
        return execFails r u
      | some arr =>
        if arr.count = 0 then
          let r ← setErrMsg (loc "unix_proc_exec.c" "pcl_proc_exec" 112) eBadcmd "command is empty"
          return execFails r u
        else execPipes sys flags (if flags.shell then shellArgv sys tl command else arr.elements.filterMap id) u

/-! ### After the fork -/

/-- What becomes of the child: it exits without a word, it fails to run the program, or the program runs. -/
inductive ChildFate where
  | silent
  | failed (err : Int)
  | runs
deriving DecidableEq

/-- The user and group of the child. -/
def childUser (exec : ExecArgs) : Bool :=
  let uid : Option UInt32 := match exec.user with
    | none => some (-1)
    | some user =>
      match sys.getuid user with
      | none => none
      | some uid => if sys.initgroups user uid then some uid else none
  match uid with
  | none => false
  | some uid =>
    let group : Bool := match exec.group with
      | none => true
      | some group =>
        match sys.getgid group with
        | none => false
        | some gid => sys.setgid gid
    group && (uid = -1 || sys.setuid uid)

/-- The error of the child before it runs the program; with a frozen error state `pcl_chdir` does not fail. -/
def childSetup (exec : ExecArgs) (flags : ExecFlags) (frozen : Bool) : Int :=
  let err : Int := match exec.cwd with
    | none => eOkay
    | some cwd =>
      if cwd.bytes = [] then eOkay
      else match sys.chdir cwd with
        | some oserr => if frozen then eOkay else sys.os2pcl oserr
        | none => eOkay
  if err = eOkay ∧ flags.ldpath = true then
    match (exec.ldpath.or exec.cwd).or sys.getcwd with
    | none => err
    | some ldpath =>
      match sys.setenv ldpath with
      | some oserr => sys.os2pcl oserr
      | none => err
  else err

/-- What the child does when it has its streams. -/
def childFate (exec : ExecArgs) (flags : ExecFlags) (argv : List CStr) (frozen : Bool) : ChildFate :=
  if childUser sys exec = false then .silent
  else if childSetup sys exec flags frozen ≠ eOkay then .failed (childSetup sys exec flags frozen)
  else match sys.execvp argv with
    | some oserr => .failed (sys.os2pcl oserr)
    | none => .runs

/-- What the child does for a stream. -/
def childStd (sp : Spawn) (std : Std) : List (ChildAct Int) :=
  match sp.childFd std with
  | none => []
  | some fd => (((sp.files std).bind PFile.fd).toList.map fun fd => .own (.close fd)) ++
      [.own (.dup2 fd std.fd), .own (.close fd)]

/-- The child's calls from where its streams are in place. -/
def childLast (f : ExecFork) : ChildFate → List (ChildAct Int)
  | .silent => [.own .exit]
  | .failed err => [.write f.err₁ err, .own (.close f.err₁), .own .exit]
  | .runs => [.own .exec]

def childActs (f : ExecFork) (fate : ChildFate) : List (ChildAct Int) :=
  [.own (.close f.err₀), .own (.cloexec f.err₁)] ++ Std.all.flatMap (childStd f.spawn) ++ childLast f fate

def parentActs (f : ExecFork) : List ParentAct :=
  f.spawn.childFds.map (fun fd => .own (.close fd)) ++ [.own (.close f.err₁), .read f.err₀] ++
    f.spawn.fileFds.map (fun fd => .onData (.close fd)) ++ [.own (.close f.err₀)]

/-- The two processes when they part. -/
def forked (f : ExecFork) (fate : ChildFate) (u : Unix) : Forked OpenFile Int where
  parent := u.fds
  parentActs := parentActs f
  got := none
  child := u.fds
  childActs := childActs f fate
  buf := []

/-- What `pcl_proc_exec` returns in the parent, when it has read `got`. -/
def procExecResult (exec : ExecArgs) (flags : ExecFlags) (f : ExecFork) (got : Option Int) : ErrM (Int × ExecOut) := do
  let (err, out) ← match got with
    | some err =>
      closeFiles f.spawn
      pure (err, { ExecOut.none with pid := sys.pid })
    | none => pure (0, ({ pid := sys.pid, handle := 0, start := sys.time, files := f.spawn.files } : ExecOut))
  if err ≠ 0 then
    let r ← errVset (loc "unix_proc_exec.c" "pcl_proc_exec" 259) err 0
      (some (.ofBytes (txt "Failed to execute '" ++ (exec.command.map CStr.bytes).getD [] ++ txt "'")))
    return (r, out)
  else return (0, { out with handle := if flags.handle then sys.pid else 0 })

/-- `pcl_proc_exec` in the parent, which reads `got` when there is a child. -/
def procExec (tl : Tolower) (exec : ExecArgs) (flags : ExecFlags) (u : Unix) (got : Option Int) :
    ErrM (Int × ExecOut) := do
  match ← procExecFork sys tl exec flags u with
  | (.error r, _) => return r
  | (.ok f, _) => procExecResult sys exec flags f got

end Pcl

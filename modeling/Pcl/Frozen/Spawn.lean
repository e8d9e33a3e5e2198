import Pcl.Dir.Remove
import Pcl.Frozen.Thaw
import Pcl.Io.Tmpfile
import Pcl.Process.Popen

/-!
# Files and programs under a frozen error state

What `pcl_file_open`, `pcl_fdopen`, `pcl_tmpfile`, `pcl_readdir`, `pcl_proc_exec` and `pcl_popen` do to a frozen error
state. A failure that sets an error is taken for a success there, so `pcl_file_open` does not get to the
`pcl_file_close` of its error path; `pcl_tmpfile` gets to one with the first directory it takes, and `pcl_proc_exec` with
the first pipe for a stream, or where it cannot fork.
-/

namespace Pcl

open ErrM

/-! ### Files -/

namespace OpenAnswers
variable (a : OpenAnswers)

end OpenAnswers

/-- The mode of the stream for a file. -/
def PFile.streamMode (file : PFile) : StreamMode :=
  if file.flags.read && file.flags.write then .wPlus else if file.flags.write then .w else .r

/-- There is a file, and `fdopen` opens a stream on it. -/
def FdopenThaws (fails : Option Oserr) (file : Option PFile) (fds : FdTable OpenFile) : Prop :=
  ∃ f, file = some f ∧ sysFdopen fails fds f.fd f.streamMode = none

section
variable (sys : TmpSystem) {pre suf : CStr} {randLen : Nat}

/-- The names fit, and one of the directories is taken. -/
def TmpThaws (dir pre suf : Option CStr) : Prop :=
  pre.elim 0 CStr.strlen + suf.elim 0 CStr.strlen ≤ maxName ∧ ∃ c ∈ tmpdirs sys dir, c.Taken sys true

end

/-! ### `pcl_readdir` -/

section
variable (sys : UnixSystem) {u : Unix} {flags : ExecFlags}

/-- The calls that set the flags of one end of a pipe. -/
def flagCalls (oflags : OFlags) : Nat := (if oflags.nonblock then 2 else 0) + if oflags.cloexec then 2 else 0

/-- In a frozen state `pcl_proc_pipe` makes a pipe with these flags. -/
def PipeMade (oflags : OFlags × OFlags) (u : Unix) : Prop :=
  (sysPipe sys u).1.isSome ∧ ∀ i, i < flagCalls oflags.1 + flagCalls oflags.2 → sys.fails (u.calls + 1 + i) = none

/-- The caller asks for a pipe for the stream. -/
def ExecFlags.asks (flags : ExecFlags) (std : Std) : Bool := flags.stream std || flags.streamNb std

/-- `pcl_proc_exec` makes the pipe of the first stream that is asked for; of none, it makes that for the error and cannot
fork. -/
def SpawnThaws (flags : ExecFlags) (u : Unix) : Prop :=
  match Std.all.find? flags.asks with
  | some std => PipeMade sys (pipeOflags flags std) u
  | none => (sysPipe sys u).1.isSome ∧ sys.fails (u.calls + 1) ≠ none

/-- There is a command, and behind it the state is thawed. -/
def ExecThaws (exec : ExecArgs) (flags : ExecFlags) (u : Unix) : Prop :=
  ∃ command argv, exec.command = some command ∧ command.bytes ≠ [] ∧
    procParsecmd (some (.ofBytes (command.bytes.dropWhile isspace))) .iced = some (some argv, .iced) ∧
    argv.count ≠ 0 ∧ SpawnThaws sys flags u

variable (tl : Tolower) (exec : ExecArgs)

variable (fails : Option Oserr) (format : Formatter) (command : Option CStr)

/-- The command is accepted, and the start of its program thaws the state. -/
def PopenThaws (u : Unix) : Prop := ∃ std nonblock cmd,
  popenCommand format command .iced = some (some (std, nonblock, cmd), .iced) ∧
    ExecThaws sys (popenArgs cmd) (popenFlags std nonblock) u

end

end Pcl

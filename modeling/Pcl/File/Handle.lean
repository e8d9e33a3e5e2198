import Pcl.File.Tryio
import Pcl.Socket.Transfer

/-!
# File objects on Unix

`file_alloc.c`, `file_init.c`, the access mode of `flagconv.c`, and the I/O functions `unix_read.c`, `unix_write.c`,
`unix_tryread.c` and `unix_trywrite.c` of `src/file`. What the system calls come to is given.
-/

namespace Pcl

def eBadf : Int := 6

/-- `EINTR` and `ETIMEDOUT` of Linux. -/
def eintr : UInt32 := 4
def etimedout : UInt32 := 110

/-- The flags `PCL_O_xxx` that a pipe can be asked for; none is `PCL_O_RDONLY`. -/
structure OFlags where
  wronly : Bool := false
  rdwr : Bool := false
  append : Bool := false
  nonblock : Bool := false
  cloexec : Bool := false
deriving DecidableEq

/-- The flags `PCL_FF_xxx`. -/
structure FFlags where
  flock : Bool := false
  nonblock : Bool := false
  append : Bool := false
  read : Bool := false
  write : Bool := false
  olock : Bool := false
deriving DecidableEq

/-- A `pcl_file_t`; no descriptor is `PCL_BADFD`. -/
structure PFile where
  flags : FFlags
  fd : Option Nat
deriving DecidableEq

/-- `ipcl_oflags_to_fflags`. -/
def ipclOflagsToFflags (oflags : OFlags) : FFlags where
  read := !oflags.wronly
  write := oflags.wronly || oflags.rdwr
  append := oflags.append
  nonblock := oflags.nonblock

/-- `ipcl_file_alloc`. -/
def ipclFileAlloc (fd : Nat) (fflags : FFlags) : PFile := ⟨fflags, some fd⟩

/-- `ipcl_file_init`. -/
def ipclFileInit (file : PFile) (oflags : OFlags) : PFile :=
  let f := ipclOflagsToFflags oflags
  let flags : FFlags := {
    flock := file.flags.flock || f.flock
    nonblock := file.flags.nonblock || f.nonblock
    append := file.flags.append || f.append
    read := file.flags.read || f.read
    write := file.flags.write || f.write
    olock := file.flags.olock || f.olock }
  { file with flags }

/-! ### I/O -/

/-- A result of `read` or `write`. -/
abbrev SysResult := Except UInt32 Nat

/-- The loop of `pcl_file_read` and `pcl_file_write` over `read` and `write`: a call that was interrupted is made again,
once. -/
def fileIo (os2pcl : UInt32 → Int) (file func : String) (first second : SysResult) : ErrM Int :=
  match first with
  | .ok n => return n
  | .error oserr =>
    if oserr ≠ eintr then errVset (loc file func 53) (os2pcl oserr) oserr none
    else match second with
      | .ok n => return n
      | .error oserr =>
        if oserr ≠ eintr then errVset (loc file func 53) (os2pcl oserr) oserr none
        else errVset (loc file func 57) (os2pcl oserr) oserr none

/-- `pcl_file_read`. -/
def fileRead (os2pcl : UInt32 → Int) (file : Option PFile) (first second : SysResult) : ErrM Int :=
  match file with
  | none => badArg (loc "unix_read.c" "pcl_file_read" 42)
  | some file =>
    if file.flags.read = false then
      setErrMsg (loc "unix_read.c" "pcl_file_read" 45) eNotsup "file not opened for read operations"
    else fileIo os2pcl "unix_read.c" "pcl_file_read" first second

/-- `pcl_file_write`. -/
def fileWrite (os2pcl : UInt32 → Int) (file : Option PFile) (first second : SysResult) : ErrM Int :=
  match file with
  | none => badArg (loc "unix_write.c" "pcl_file_write" 42)
  | some file =>
    if file.flags.write = false then
      setErrMsg (loc "unix_write.c" "pcl_file_write" 45) eNotsup "file not opened for write operations"
    else fileIo os2pcl "unix_write.c" "pcl_file_write" first second

/-- What `poll` comes to. -/
inductive PollOutcome where
  | failed (oserr : UInt32)
  | timeout
  | events (nval hup err : Bool)
deriving DecidableEq

/-- The wait of `pcl_file_tryread` and `pcl_file_trywrite`, and the I/O behind it; a reader does not mind `POLLHUP`. -/
def fileTryio (os2pcl : UInt32 → Int) (src func : String) (hupFails : Bool) (msTimeout : Int) (poll : PollOutcome)
    (io : ErrM Int) : ErrM Int :=
  let run : ErrM Int := do
    let r ← io
    if r = -1 then
      let _ ← trc (loc src func 71)
    return r
  if msTimeout > 0 then
    match poll with
    | .failed oserr => errVset (loc src func 58) (os2pcl oserr) oserr none
    | .timeout => errVset (loc src func 61) eAgain etimedout none
    | .events nval hup err =>
      if nval then setErrMsg (loc src func 64) eBadf "file descriptor is invalid or not open"
      else if (hup && hupFails) || err then setErr (loc src func 67) eConnreset
      else run
  else run

/-- `pcl_file_tryread`. -/
def fileTryread (os2pcl : UInt32 → Int) (file : Option PFile) (msTimeout : Int) (poll : PollOutcome)
    (first second : SysResult) : ErrM Int :=
  match file with
  | none => badArg (loc "unix_tryread.c" "pcl_file_tryread" 42)
  | some f =>
    if f.flags.read = false then
      setErrMsg (loc "unix_tryread.c" "pcl_file_tryread" 45) eNotsup "file not opened for read operations"
    else if f.flags.nonblock = false then
      setErrMsg (loc "unix_tryread.c" "pcl_file_tryread" 48) eNotsup "file not opened for async I/O"
    else fileTryio os2pcl "unix_tryread.c" "pcl_file_tryread" false msTimeout poll (fileRead os2pcl file first second)

/-- `pcl_file_trywrite`. -/
def fileTrywrite (os2pcl : UInt32 → Int) (file : Option PFile) (msTimeout : Int) (poll : PollOutcome)
    (first second : SysResult) : ErrM Int :=
  match file with
  | none => badArg (loc "unix_trywrite.c" "pcl_file_trywrite" 42)
  | some f =>
    if f.flags.write = false then
      setErrMsg (loc "unix_trywrite.c" "pcl_file_trywrite" 45) eNotsup "file not opened for write operations"
    else if f.flags.nonblock = false then
      setErrMsg (loc "unix_trywrite.c" "pcl_file_trywrite" 48) eNotsup "file not opened for async I/O"
    else fileTryio os2pcl "unix_trywrite.c" "pcl_file_trywrite" true msTimeout poll (fileWrite os2pcl file first second)

end Pcl

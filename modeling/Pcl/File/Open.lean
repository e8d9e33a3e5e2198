import Pcl.Log.Vevent

/-!
# Opening a file

`file_open.c`, `unix_file_open.c`, `file_lock.c` and `unlink.c` of `src/file` on Linux, where `open` takes no lock. What
the system calls come to is given.
-/

namespace Pcl

/-- What `open`, `fcntl` and `unlink` come to: their errors, if any. -/
structure OpenAnswers where
  os2pcl : UInt32 → Int
  openErr : Option UInt32
  lockErr : Option UInt32
  unlinkErr : Option UInt32

/-- `PCL_O_EXLOCK` and `PCL_O_SHLOCK`, of which the first overwrites the second. -/
inductive OpenLock where
  | exlock
  | shlock

def OpenLock.failLine : OpenLock → Int
  | exlock => 73
  | shlock => 85

/-- What a file that was opened is: whether its descriptor is a bad one, and whether it is locked. -/
structure OpenedFile where
  badfd : Bool
  flock : Bool

namespace OpenAnswers
variable (a : OpenAnswers)

/-- `pcl_file_lock`, with an operation that there is. -/
def fileLock (file : OpenedFile) : ErrM (Int × OpenedFile) :=
  if file.badfd then do
    let r ← badArg (loc "file_lock.c" "pcl_file_lock" 39)
    return (r, file)
  else
    match a.lockErr with
    | some oserr => do
      let r ← errVset (loc "file_lock.c" "pcl_file_lock" 64) (a.os2pcl oserr) oserr none
      return (r, file)
    | none => return (0, { file with flock := true })

/-- `pcl_unlink`. -/
def unlink : ErrM Int :=
  match a.unlinkErr with
  | none => return 0
  | some oserr => errVset (loc "unlink.c" "pcl_unlink" 60) (a.os2pcl oserr) oserr none

/-- The lock of a file that `ipcl_file_open` has opened. -/
def lockFile (path : CStr) (lock : Option OpenLock) : ErrM (Int × OpenedFile) :=
  match lock with
  | none => return (0, ⟨false, false⟩)
  | some lock => do
    let (r, file) ← a.fileLock ⟨false, false⟩
    if r ≠ 0 then
      let r ← errVtrace (loc "unix_file_open.c" "ipcl_file_open" lock.failLine)
        (some (.ofBytes (txt "file open cannot aquire lock on '" ++ path.bytes ++ txt "'")))
      return (r, file)
    else return (0, { file with flock := true })

/-- `ipcl_file_open`; `temp` is `PCL_O_TEMP`. -/
def ipclFileOpen (path : CStr) (lock : Option OpenLock) (temp : Bool) : ErrM (Int × OpenedFile) :=
  match a.openErr with
  | some oserr => do
    let r ← errVset (loc "unix_file_open.c" "ipcl_file_open" 63) (a.os2pcl oserr) oserr none
    return (r, ⟨true, false⟩)
  | none => do
    let (r, file) ← a.lockFile path lock
    if r ≠ 0 then return (r, file)
    else if temp then
      let _ ← a.unlink
      return (0, file)
    else return (0, file)

/-- `pcl_file_open`. -/
def fileOpen (path : Option CStr) (lock : Option OpenLock) (temp : Bool) : ErrM (Option OpenedFile) :=
  match path.filter (·.bytes ≠ []) with
  | none => setErrNull (loc "file_open.c" "pcl_file_open" 39) eInval
  | some path => do
    let (r, file) ← a.ipclFileOpen path lock temp
    if r ≠ 0 then
      fileClose (some file.flock) []
      let _ ← errVtrace (loc "file_open.c" "pcl_file_open" 56) (some path)
      return none
    else return some file

theorem unlink_returns (e : ErrState) : ∃ r e', a.unlink e = some (r, e') := by
  unfold unlink
  cases a.unlinkErr with
  | none => exact ⟨0, e, rfl⟩
  | some oserr => exact errVset_returns e _ _ _ _

theorem fileLock_returns (file : OpenedFile) (e : ErrState) :
    ∃ r file' e', a.fileLock file e = some ((r, file'), e') := by
  unfold fileLock
  split
  · simp only [ErrM.bind_run, badArg_run]
    exact ⟨_, _, _, rfl⟩
  · cases a.lockErr with
    | none => exact ⟨_, _, e, rfl⟩
    | some oserr =>
      obtain ⟨r, e', hset⟩ := errVset_returns e (loc "file_lock.c" "pcl_file_lock" 64) (a.os2pcl oserr) oserr none
      simp only [ErrM.bind_run, hset]
      exact ⟨_, _, e', rfl⟩

theorem lockFile_returns (path : CStr) (lock : Option OpenLock) (e : ErrState) :
    ∃ r file e', a.lockFile path lock e = some ((r, file), e') := by
  unfold lockFile
  cases lock with
  | none => exact ⟨_, _, e, rfl⟩
  | some lock =>
    obtain ⟨r, file, e', hlock⟩ := a.fileLock_returns ⟨false, false⟩ e
    simp only [ErrM.bind_run, hlock, Option.bind_some]
    split
    · simp only [ErrM.bind_run, errVtrace_run]
      exact ⟨_, _, _, rfl⟩
    · exact ⟨_, _, e', rfl⟩

theorem ipclFileOpen_returns (path : CStr) (lock : Option OpenLock) (temp : Bool) (e : ErrState) :
    ∃ r file e', a.ipclFileOpen path lock temp e = some ((r, file), e') := by
  unfold ipclFileOpen
  cases a.openErr with
  | some oserr =>
    obtain ⟨r, e', hset⟩ := errVset_returns e (loc "unix_file_open.c" "ipcl_file_open" 63) (a.os2pcl oserr) oserr none
    simp only [ErrM.bind_run, hset]
    exact ⟨_, _, e', rfl⟩
  | none =>
    obtain ⟨r, file, e', hlock⟩ := a.lockFile_returns path lock e
    simp only [ErrM.bind_run, hlock, Option.bind_some]
    split
    · exact ⟨_, _, e', rfl⟩
    · cases temp with
      | true =>
        obtain ⟨r', e'', hunlink⟩ := a.unlink_returns e'
        simp only [if_true, ErrM.bind_run, hunlink]
        exact ⟨_, _, e'', rfl⟩
      | false => exact ⟨_, _, e', rfl⟩

theorem fileOpen_returns (path : Option CStr) (lock : Option OpenLock) (temp : Bool) (e : ErrState) :
    ∃ file e', a.fileOpen path lock temp e = some (file, e') := by
  unfold fileOpen
  cases path.filter (·.bytes ≠ []) with
  | none => exact ⟨none, _, setErrNull_run _ _ _ (by decide)⟩
  | some path =>
    obtain ⟨r, file, e', hopen⟩ := a.ipclFileOpen_returns path lock temp e
    simp only [ErrM.bind_run, hopen, Option.bind_some]
    split
    · simp only [ErrM.bind_run, fileClose_run, Option.bind_some, errVtrace_run]
      exact ⟨_, _, rfl⟩
    · exact ⟨_, _, rfl⟩

end OpenAnswers

end Pcl

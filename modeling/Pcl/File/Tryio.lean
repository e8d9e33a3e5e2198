import Pcl.ErrState

/-!
# Asynchronous file I/O on Windows

`src/file/win32_tryio.c`. The two directions of a file have an `OVERLAPPED` each, whose `Offset` and `OffsetHigh` are
one 64-bit value here. What the OS answers during a call is given, and the OS's own view of a direction is kept
beside that of the library: whether an operation is outstanding, and the bytes completed. The timeout decides
nothing but the outcome of the wait.
-/

namespace Pcl

def eAcces : Int := 2
def eAgain : Int := 3
def eNotsup : Int := 36

namespace Tryio

/-! ### The OS -/

def errorHandleEof : UInt32 := 38
def waitTimeout : UInt32 := 258
def errorOperationAborted : UInt32 := 995
def errorIoIncomplete : UInt32 := 996
def errorIoPending : UInt32 := 997

/-- What `ReadFile`, `WriteFile` or `GetOverlappedResult` comes to: the bytes of a completed operation, or the last
error. -/
inductive IoOutcome where
  | done (amt : UInt32)
  | failed (oserr : UInt32)
deriving DecidableEq

/-- What `WaitForSingleObject` comes to. -/
inductive WaitOutcome where
  | timeout
  | signaled
  | failed (oserr : UInt32)
deriving DecidableEq

/-- The answers of the OS during a call: to a new operation, to the question for the result of a pending one, to the
wait and to the question after it, and whether `CancelIoEx` leaves nothing outstanding. -/
structure Answers where
  issue : IoOutcome
  result : IoOutcome
  wait : WaitOutcome
  signaled : IoOutcome
  cancelled : Bool

/-- The operation goes on. -/
def InProgress (oserr : UInt32) : Prop := oserr = errorIoPending ∨ oserr = errorIoIncomplete

instance (oserr : UInt32) : Decidable (InProgress oserr) := inferInstanceAs (Decidable (_ ∨ _))

/-- A direction of a file as the OS sees it. -/
structure OsSide where
  outstanding : Bool
  completed : Nat

/-- An operation, new or outstanding, comes to this. -/
def OsSide.report (os : OsSide) : IoOutcome → OsSide
  | .done amt => ⟨false, os.completed + amt.toNat⟩
  | .failed oserr => { os with outstanding := decide (InProgress oserr) }

/-! ### The library -/

/-- `struct ipcl_win32_aio`. -/
structure Aio where
  offset : UInt64
  pending : UInt64

/-- A direction of a file. `rewound` is how many bytes had been completed when the offset was last set back. -/
structure Side where
  aio : Aio
  os : OsSide
  rewound : Nat

/-- What `tag_pcl_file` says of a handle: the flags that `tryio` tests, and whether it is a pipe's. -/
structure Handle where
  read : Bool
  write : Bool
  nonblock : Bool
  pipe : Bool

/-- The result of a call: the offset and size of the operation it issued, and the bytes of the one that completed. -/
structure Outcome where
  ret : Int
  issued : Option (UInt64 × UInt32)
  completed : Option UInt32

/-- A `DWORD` as an `int`. -/
def dwordInt (amt : UInt32) : Int := if amt.toNat < 2 ^ 31 then amt.toNat else amt.toNat - 2 ^ 32

section
variable (me : UInt64) (os2pcl : UInt32 → Int)

/-- `SETOSERR`. -/
def setOsErr (line : Int) (oserr : UInt32) : ErrM Int := errVset (loc "win32_tryio.c" "tryio" line) (os2pcl oserr) oserr none

/-- `GetOverlappedResult` gave the bytes. -/
def consume (side : Side) (issued : Option (UInt64 × UInt32)) (amt : UInt32) : ErrM (Outcome × Side) :=
  return (⟨dwordInt amt, issued, some amt⟩, { side with aio := ⟨side.aio.offset + amt.toUInt64, 0⟩ })

/-- `CANCEL_IO`. -/
def cancelIo (side : Side) (issued : Option (UInt64 × UInt32)) (isread : Bool) (answers : Answers) (oserr : UInt32) :
    ErrM (Outcome × Side) := do
  let side : Side := ⟨⟨0, 0⟩, ⟨side.os.outstanding && !answers.cancelled, side.os.completed⟩, side.os.completed⟩
  let r ← if isread ∧ oserr = errorHandleEof then pure 0 else setOsErr os2pcl 192 oserr
  return (⟨r, issued, none⟩, side)

/-- `SETERR_OS(PCL_EAGAIN, oserr)`. -/
def again (side : Side) (issued : Option (UInt64 × UInt32)) (line : Int) (oserr : UInt32) : ErrM (Outcome × Side) := do
  let r ← errVset (loc "win32_tryio.c" "tryio" line) eAgain oserr none
  return (⟨r, issued, none⟩, side)

/-- The wait for an operation in progress. -/
def waitIo (side : Side) (issued : Option (UInt64 × UInt32)) (isread : Bool) (answers : Answers) : ErrM (Outcome × Side) :=
  match answers.wait with
  | .timeout => again side issued 152 waitTimeout
  | .signaled =>
    let side := { side with os := side.os.report answers.signaled }
    match answers.signaled with
    | .done amt => consume side issued amt
    | .failed oserr =>
      -- not ready yet
      if oserr = errorIoIncomplete then again side issued 177 oserr
      else cancelIo os2pcl side issued isread answers oserr
  | .failed oserr => cancelIo os2pcl side issued isread answers oserr

/-- From `PENDING_IO` on, or from the failure of the operation. -/
def finishIo (side : Side) (issued : Option (UInt64 × UInt32)) (isread : Bool) (answers : Answers) :
    IoOutcome → ErrM (Outcome × Side)
  | .done amt => consume side issued amt
  | .failed oserr =>
    if oserr = errorIoPending ∨ oserr = errorIoIncomplete then waitIo os2pcl side issued isread answers
    -- something cancelled our I/O request
    else if oserr = errorOperationAborted then do
      let r ← setOsErr os2pcl 125 oserr
      return (⟨r, issued, none⟩, side)
    else cancelIo os2pcl side issued isread answers oserr

/-- `SETERRMSG`. -/
def refuse (side : Side) (line : Int) (err : Int) (msg : CStr) : ErrM (Outcome × Side) := do
  let r ← errVset (loc "win32_tryio.c" "tryio" line) err 0 (some msg)
  return (⟨r, none, none⟩, side)

/-- `tryio`. -/
def tryio (file : Handle) (side : Side) (count : Nat) (isread : Bool) (answers : Answers) : ErrM (Outcome × Side) :=
  if isread ∧ !file.read then refuse side 52 eNotsup (.lit "file not opened for read operations")
  else if ¬ isread ∧ !file.write then refuse side 52 eNotsup (.lit "file not opened for write operations")
  else if !file.nonblock then refuse side 55 eNotsup (.lit "file not opened for async I/O")
  else if side.aio.pending ≠ 0 then
    -- can't start IO op in one thread and resume it in another
    if side.aio.pending ≠ me then
      refuse side 65 eAcces (.ofBytes (txt "cannot resume async I/O that was started by another thread '" ++
        txt (toString (side.aio.pending.toNat % 2 ^ 32)) ++ txt "'"))
    else
      finishIo os2pcl { side with os := side.os.report answers.result } none isread answers answers.result
  else
    let offset := if file.pipe then 0 else side.aio.offset
    let side := { side with aio := ⟨offset, me⟩, os := side.os.report answers.issue }
    finishIo os2pcl side (some (offset, UInt32.ofNat count)) isread answers answers.issue

/-- `pcl_file_tryread`. -/
def fileTryread (file : Handle) (side : Side) (args : Bool) (count : Nat) (answers : Answers) : ErrM (Outcome × Side) := do
  if !args then
    let r ← badArg (loc "win32_tryio.c" "pcl_file_tryread" 199)
    return (⟨r, none, none⟩, side)
  else
    let (out, side) ← tryio me os2pcl file side count true answers
    let r ← if out.ret < 0 then trc (loc "win32_tryio.c" "pcl_file_tryread" 202) else pure out.ret
    return ({ out with ret := r }, side)

/-- `pcl_file_trywrite`. -/
def fileTrywrite (file : Handle) (side : Side) (args : Bool) (count : Nat) (answers : Answers) : ErrM (Outcome × Side) := do
  if !args then
    let r ← badArg (loc "win32_tryio.c" "pcl_file_trywrite" 209)
    return (⟨r, none, none⟩, side)
  else
    let (out, side) ← tryio me os2pcl file side count false answers
    let r ← if out.ret ≠ 0 then trc (loc "win32_tryio.c" "pcl_file_trywrite" 212) else pure 0
    return ({ out with ret := r }, side)

end
end Tryio
end Pcl

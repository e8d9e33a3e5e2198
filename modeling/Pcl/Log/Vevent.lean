import Pcl.Error.Transport

/-!
# Printing under a frozen error state

`pcl_err_vfprintf`, `pcl_err_vsprintf` and `pcl_log_vevent` freeze the error state while they format, so that the
calls that they make do not change what they print, and `pcl_file_close` while it cleans up. What is printed and which
of the inner calls report errors is given.
-/

namespace Pcl

/-- The errors that inner calls report, one after the other. -/
def report : List (Loc × Fault) → ErrM Unit
  | [] => return ()
  | (l, fault) :: rest => do
    let _ ← errVset l fault.err fault.oserr fault.msg
    report rest

/-- What is printed: the text, the errors of the calls that format it, and how much of it is written. -/
structure Printed where
  text : List UInt8
  faults : List (Loc × Fault)
  written : Nat

/-- `ipcl_err_serialize`: no text without an error and its trace. -/
def errSerialize (out : Printed) : ErrM (Option (List UInt8)) := do
  let err ← errGet
  if err.strace = [] ∨ err.err = eOkay then return none
  else
    report out.faults
    return some out.text

/-- The state frozen during a computation, and then as it was. -/
def whileFrozen {α : Type} (x : ErrM α) : ErrM α := do
  let err ← errGet
  let wasFrozen := err.frozen
  errFreeze true
  let a ← x
  errFreeze wasFrozen
  return a

/-- `pcl_err_vfprintf`. -/
def errVfprintf (out : Printed) : ErrM Int := do
  match ← whileFrozen (errSerialize out) with
  | none => return 0
  | some b => return if out.written ≠ b.length then -1 else b.length

/-- `pcl_err_vsprintf`: the result, and what is copied to the buffer of `size` bytes. -/
def errVsprintf (size : Nat) (out : Printed) : ErrM (Int × Option (List UInt8)) := do
  match ← whileFrozen (errSerialize out) with
  | none => return (0, none)
  | some b => return if size ≤ b.length then (-1, none) else (b.length, some (b ++ [0]))

/-- The fields of `tag_pcl_log_event` that decide something here. -/
structure LogEvent where
  level : UInt32
  exitLevels : UInt32

/-- `PCL_LOGLEV_HASTRACE`. -/
def hasTrace (level : UInt32) : Bool := level &&& ((level &&& 0xff) <<< 8) ≠ 0

/-- `pcl_log_vevent`: `line` is the line of the event, `trace` what is printed of the error behind it. -/
def logVevent (e : Option LogEvent) (line trace : Printed) : ErrM Int :=
  match e with
  | none => return 0
  | some e => do
    errFreeze true
    report line.faults
    let count : Int := line.written
    let more ← if hasTrace e.level then errVfprintf trace else pure 0
    errFreeze false
    -- exit
    if e.exitLevels &&& e.level ≠ 0 then ErrM.undef
    else return count + more

/-- `pcl_file_close`; a file that is locked is unlocked, which may fail. -/
def fileClose (file : Option Bool) (unlocking : List (Loc × Fault)) : ErrM Unit :=
  match file with
  | none => return ()
  | some locked => do
    errFreeze true
    if locked then report unlocking
    errFreeze false

theorem fileClose_run (e : ErrState) (file : Option Bool) :
    fileClose file [] e = some ((), if file.isSome then e.thawed else e) := by
  cases file with
  | none => rfl
  | some locked => cases locked <;> rfl

/-! ### They leave a frozen state alone -/

open ErrM

theorem report_ignores (faults : List (Loc × Fault)) : (report faults).Ignores := by
  induction faults with
  | nil => exact .pure ()
  | cons p rest ih => exact (errVset_ignores _ _ _ _).bind fun _ => ih

theorem errGet_ignores : errGet.Ignores := fun e _ => ⟨e, rfl⟩

theorem errSerialize_ignores (out : Printed) : (errSerialize out).Ignores := by
  refine errGet_ignores.bind fun err => ?_
  split
  · exact .pure none
  · exact (report_ignores _).bind fun _ => .pure _

end Pcl

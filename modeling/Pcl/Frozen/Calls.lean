import Pcl.Frozen.Json
import Pcl.Frozen.Spawn

/-!
# Calls under a frozen error state

What a call of the library does to an error state that the application has frozen, and what a run of calls does: the
freeze is respected just when no call of the run gets to a thaw.
-/

namespace Pcl

open ErrM

/-! ### Calls -/

/-- A path that `pcl_json_compile` gave. -/
structure CompiledPath where
  nodes : List PathNode
  compiled : ∃ path e e', jsonCompile path e = some (some nodes, e')

/-- What a function that neither freezes nor thaws does to the error state. -/
inductive ErrStep where
  | set (l : Loc) (err : Int) (oserr : UInt32) (msg : Option CStr)
  | trace (l : Loc) (msg : Option CStr)
  | clear

def ErrStep.run : ErrStep → ErrM Int
  | set l err oserr msg => errVset l err oserr msg
  | trace l msg => errVtrace l msg
  | clear => errClear

def runSteps : List ErrStep → ErrM Unit
  | [] => return ()
  | step :: steps => do
    let _ ← step.run
    runSteps steps

/-- A call of the library, with its arguments and what the system answers; `objputNew` is one of the functions
`pcl_json_objputxxx`, `vevent` also one of those that log through `pcl_log_vevent`, and `other` one of any function that
neither freezes nor thaws. -/
inductive LibCall (K V R : Type) where
  | freeze
  | step (step : ErrStep)
  | fprintf (out : Printed)
  | sprintf (size : Nat) (out : Printed)
  | json (message : Option CStr)
  | setjson (error : Option (Json R))
  | htablePut (ht : Option (HTable K V)) (key : Option K) (value : Option V) (unique : Bool)
  | objput (obj : Option (Json R)) (key : Option CStr) (value : Option (Json R)) (flags : JsonFlags)
  | objputNew (D : Doubles R) (value : NewValue R) (obj : Option (Json R)) (key : CStr) (flags : JsonFlags)
  | decode (D : Doubles R) (mem : Stale) (json : Option (List UInt8)) (len : Nat)
  | matchPath (root : Json R) (path : CompiledPath)
  | query (j : Option (Json R)) (path : Option CStr)
  | vevent (event : Option LogEvent) (line trace : Printed)
  | close (file : Option Bool) (unlocking : List (Loc × Fault))
  | fileOpen (answers : OpenAnswers) (path : Option CStr) (lock : Option OpenLock) (temp : Bool)
  | fdopen (sys : UnixSystem) (fails : Option Oserr) (file : Option PFile) (fds : FdTable OpenFile)
  | tmpfile (sys : TmpSystem) (dir pre suf : Option CStr) (pathp keep : Bool)
  | readdir (sys : DirSystem) (dir : Option DirStream) (ent : Bool) (stat : Option EntryStat)
  | procExec (sys : UnixSystem) (tl : Tolower) (exec : ExecArgs) (flags : ExecFlags) (u : Unix) (got : Option Int)
  | popen (sys : UnixSystem) (fails : Option Oserr) (tl : Tolower) (format : Formatter) (command : Option CStr) (u : Unix)
  | other (steps : List ErrStep)

/-- The computation returns, with this state. -/
def ErrM.Reaches {α : Type} (x : ErrM α) (e e' : ErrState) : Prop := ∃ a, x e = some (a, e')

namespace LibCall
variable {K V R : Type} (errName : Int → CStr) (errOsname : UInt32 → CStr)

/-- The call returns from the first state with the second. -/
def Runs : LibCall K V R → ErrState → ErrState → Prop
  | freeze => (errFreeze true).Reaches
  | step s => s.run.Reaches
  | fprintf out => (errVfprintf out).Reaches
  | sprintf size out => (errVsprintf size out).Reaches
  | json message => (errVjson (R := R) errName errOsname message).Reaches
  | setjson error => (errSetjson error).Reaches
  | htablePut ht key value unique => ((Operation.htablePut ht key value unique : Operation K V Unit _).run).Reaches
  | objput obj key value flags => (jsonObjput obj key value flags).Reaches
  | objputNew D value obj key flags => (value.objput D obj key flags).Reaches
  | decode D mem text len => (pclJsonDecode D mem text len).Reaches
  | matchPath root path => fun e e' => ∃ fuel, (jsonMatch fuel root path.nodes).Reaches e e'
  | query j path => fun e e' => ∃ fuel, (jsonQuery fuel j path).Reaches e e'
  | vevent event line trace => (logVevent event line trace).Reaches
  | close file unlocking => (fileClose file unlocking).Reaches
  | fileOpen answers path lock temp => (answers.fileOpen path lock temp).Reaches
  | fdopen sys fails file fds => (sys.pclFdopen fails file fds).Reaches
  | tmpfile sys dir pre suf pathp keep => (pclTmpfile sys dir pre suf pathp keep).Reaches
  | readdir sys dir ent stat => (readdirStat sys dir ent stat).Reaches
  | procExec sys tl exec flags u got => (Pcl.procExec sys tl exec flags u got).Reaches
  | popen sys fails tl format command u => fun e e' => ∃ res fate, PopenRuns sys fails tl format command u e res fate e'
  | other steps => (runSteps steps).Reaches

/-- The call gets to a thaw. -/
def Thaws : LibCall K V R → Prop
  | json _ => True
  | htablePut ht key _ _ => ht.isSome ∧ key.isSome
  | objput obj key value _ => IsObject obj ∧ key.isSome ∧ value.isSome
  | objputNew D value obj _ flags => IsObject obj ∧ value.Made D flags
  | decode D mem text len => DecodePuts D mem text len
  | matchPath root path => WalkThaws path.nodes root
  | query j path => QueryThaws j path
  | vevent event _ _ => event.isSome
  | close file _ => file.isSome
  | fdopen _ fails file fds => FdopenThaws fails file fds
  | tmpfile sys dir pre suf _ _ => TmpThaws sys dir pre suf
  | procExec sys _ exec flags u _ => ExecThaws sys exec flags u
  | popen sys _ _ format command u => PopenThaws sys format command u
  | _ => False

end LibCall

section
variable {K V R : Type} {errName : Int → CStr} {errOsname : UInt32 → CStr} {e e' : ErrState}

variable (errName errOsname)

/-- A run of calls that all return. -/
def Returns : List (LibCall K V R) → ErrState → ErrState → Prop
  | [], e, e' => e' = e
  | c :: calls, e, e' => ∃ s, c.Runs errName errOsname e s ∧ Returns calls s e'

end

end Pcl

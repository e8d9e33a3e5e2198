import Pcl.Lib.Volume
import Pcl.Dir.Mkdirs

/-!
# Directories and all that is in them

`pcl_rmdir_r` of `src/dir/rmdir_r.c` with `pcl_opendir`, `pcl_readdir`, `pcl_rmdir`, `pcl_realpath` and `pcl_unlink` on
Unix, over a tree of directories, links and files of other types. Two processes that change the tree at once are left
out, and so are the `lstat` of an entry, which `pcl_rmdir_r` does not ask for, and the memory of a `pcl_dir_t`.
-/

namespace Pcl
open FileTree (Component Link Node)

def eNomore : Int := 51

def ebusy : UInt32 := 16
def eisdir : UInt32 := 21
def einval : UInt32 := 22
def enametoolong : UInt32 := 36
def enotempty : UInt32 := 39
def eloop : UInt32 := 40

/-- `PATH_MAX`. -/
def maxPath : Nat := 4096

/-- The links on one path that the system follows. -/
def maxLinks : Nat := 40

/-- The buffer of `pcl_rmdir_r`. -/
def rmdirBuf : Nat := 32 * 1024

/-! ### The volume -/

/-- `pcl_dirent_type_t`. -/
inductive DirentType where
  | unknown
  | fifo
  | char
  | dir
  | block
  | file
  | link
  | socket
deriving DecidableEq

/-- What is no directory. -/
inductive FileKind where
  | fifo
  | char
  | block
  | file
  | link (target : List UInt8)
  | socket
deriving DecidableEq

/-- What a directory may have in it. -/
structure ProperName (n : Name) : Prop where
  ne_nil : n ≠ []
  no_sep : pathSep ∉ n
  no_nul : 0 ∉ n
  ne_here : n ≠ txt "."
  ne_up : n ≠ txt ".."
  fits : n.length < 256

structure Disk extends Volume Name UInt32 FileKind where
  proper : ∀ n p, node (n :: p) ≠ none → ProperName n

def Disk.remove (d : Disk) (n : Name) (p : List Name) (h : d.names (n :: p) = []) : Disk where
  toVolume := d.toVolume.remove n p h
  proper n' q hq := by
    refine d.proper n' q fun hnone => hq ?_
    by_cases heq : n' :: q = n :: p
    · exact if_pos heq
    · exact (if_neg heq).trans hnone

def FileKind.target : FileKind → Option (Link Name)
  | .link target => some ⟨target.head? = some pathSep, components target⟩
  | _ => none

/-- What `d_type` says where the file system knows. -/
def direntType : Option (Node UInt32 FileKind) → DirentType
  | some (.dir _) => .dir
  | some (.file .fifo) => .fifo
  | some (.file .char) => .char
  | some (.file .block) => .block
  | some (.file .file) => .file
  | some (.file (.link _)) => .link
  | some (.file .socket) => .socket
  | none => .unknown

abbrev OsErr := {oserr : UInt32 // oserr ≠ 0}

/-- The process and the system: the table of `pcl_err_os2pcl`, which has no entry for `PCL_ENOMORE` on Unix; the current
directory; what is not removed and which directories are not opened, and why; where reading a directory fails, and after
how many entries; where `d_type` is known; and the order of the entries, which "." and ".." are among. -/
structure DirSystem where
  os2pcl : UInt32 → Int
  cwd : List Name
  refuse : List Name → Option OsErr
  unreadable : List Name → Option OsErr
  breaks : List Name → Option (Nat × OsErr)
  typed : List Name → Bool
  order : List Name → List Name → List Name
  okay_iff : ∀ oserr, os2pcl oserr = eOkay ↔ oserr = 0
  ne_nomore : ∀ oserr, os2pcl oserr ≠ eNomore
  order_perm : ∀ p l, (order p l).Perm (txt "." :: txt ".." :: l)

/-- A `DIR` of the system: what it has yet to return, and what comes behind that. -/
structure DirStream where
  rest : List (Name × DirentType)
  fails : Option OsErr

/-- `pcl_dirent_t`. -/
structure Dirent where
  type : DirentType
  namlen : UInt16
  name : CStr

/-! ### Calls of the system -/

section
variable (sys : DirSystem) (d : Disk)

def DirSystem.start (path : List UInt8) : List Name := if path.head? = some pathSep then [] else sys.cwd

/-- The length of the text of a location. -/
def locationLength (p : List Name) : Nat := (p.flatMap fun n => pathSep :: n).length

def astrayErrno : FileTree.Astray → UInt32
  | .obstacle .missing => enoent
  | .obstacle .notDir => enotdir
  | .loop => eloop

/-- Where a path leads. -/
def leads (t : Tree FileKind) (path : List UInt8) : Except FileTree.Astray (List Name) :=
  t.resolve FileKind.target maxLinks (sys.start path) (components path)

/-- `realpath`. -/
def sysRealpath (path : CStr) : Except UInt32 (List Name) :=
  if path.bytes = [] then .error enoent
  else if path.strlen ≥ maxPath then .error enametoolong
  else
    match leads sys d.toFileTree path.bytes with
    | .error a => .error (astrayErrno a)
    | .ok p =>
      if d.node p = none then .error enoent
      else if locationLength p ≥ maxPath then .error enametoolong
      else .ok p

/-- What `opendir` finds in a directory. -/
def direntsOf (p : List Name) : List (Name × DirentType) :=
  (sys.order p (d.names p)).map fun n =>
    (n, if n = txt "." ∨ n = txt ".." then .dir
        else if sys.typed (n :: p) then direntType (d.node (n :: p)) else .unknown)

/-- `opendir`. -/
def sysOpendir (p : List Name) : Except UInt32 DirStream :=
  match d.node p with
  | none => .error enoent
  | some (.file _) => .error enotdir
  | some (.dir _) =>
    match sys.unreadable p, sys.breaks p with
    | some oserr, _ => .error oserr
    | none, none => .ok ⟨direntsOf sys d p, none⟩
    | none, some (n, oserr) => .ok ⟨(direntsOf sys d p).take n, some oserr⟩

/-- The directory and the last component of a path. -/
def sysParent (path : CStr) : Except UInt32 (List Name × Component Name) :=
  if path.bytes = [] then .error enoent
  else if path.strlen ≥ maxPath then .error enametoolong
  else
    match (components path.bytes).getLast? with
    -- the root
    | none => .error ebusy
    | some c =>
      match d.resolve FileKind.target maxLinks (sys.start path.bytes) (components path.bytes).dropLast with
      | .error a => .error (astrayErrno a)
      | .ok p =>
        match d.node p with
        | none => .error enoent
        | some (.file _) => .error enotdir
        | some (.dir _) => .ok (p, c)

/-- `unlink`. -/
def sysUnlink (path : CStr) : Except UInt32 Disk :=
  match sysParent sys d path with
  | .error oserr => .error oserr
  | .ok (p, .name n) =>
    match d.node (n :: p) with
    | none => .error enoent
    | some (.dir _) => .error eisdir
    | some (.file _) =>
      if path.bytes.getLast? = some pathSep then .error enotdir
      else
        match sys.refuse (n :: p) with
        | some oserr => .error oserr
        | none => if h : d.names (n :: p) = [] then .ok (d.remove n p h) else .error eisdir
  | .ok (_, _) => .error eisdir

/-- `rmdir`. -/
def sysRmdir (path : CStr) : Except UInt32 Disk :=
  match sysParent sys d path with
  | .error oserr => .error oserr
  | .ok (_, .here) => .error einval
  | .ok (_, .up) => .error enotempty
  | .ok (p, .name n) =>
    match d.node (n :: p) with
    | none => .error enoent
    | some (.file _) => .error enotdir
    | some (.dir _) =>
      match sys.refuse (n :: p) with
      | some oserr => .error oserr
      | none => if h : d.names (n :: p) = [] then .ok (d.remove n p h) else .error enotempty

end

/-! ### The calls -/

section
variable (sys : DirSystem)

/-- `pcl_realpath`; the answer is the location that the path is to. -/
def pclRealpath (d : Disk) (path : CStr) : ErrM (Option (List Name)) := do
  if path.bytes = [] then setErrNull (loc "realpath.c" "pcl_realpath" 53) eInval
  else
    match sysRealpath sys d path with
    | .error oserr =>
      let _ ← errVset (loc "realpath.c" "pcl_realpath" 74) (sys.os2pcl oserr) oserr none
      return none
    | .ok p => return some p

/-- `pcl_opendir`. -/
def pclOpendir (d : Disk) (path : CStr) : ErrM (Option DirStream) := do
  if path.bytes = [] then setErrNull (loc "opendir.c" "pcl_opendir" 45) eInval
  else
    match ← pclRealpath sys d path with
    | none => trcNull (loc "opendir.c" "pcl_opendir" 51)
    | some p =>
      match sysOpendir sys d p with
      | .error oserr =>
        let msg := CStr.ofBytes (txt "Cannot open directory: " ++ path.bytes)
        let _ ← errVset (loc "opendir.c" "pcl_opendir" 90) (sys.os2pcl oserr) oserr (some msg)
        return none
      | .ok dir => return some dir

/-- What `pcl_readdir` does not report. -/
def isDots (e : Name × DirentType) : Bool := e.1 = txt "." ∨ e.1 = txt ".."

/-- `pcl_readdir`. -/
def pclReaddir (dir : DirStream) : ErrM (Option Dirent × DirStream) :=
  match dir.rest.dropWhile isDots with
  | [] => do
    match dir.fails with
    | some oserr =>
      let _ ← errVset (loc "readdir.c" "pcl_readdir" 144) (sys.os2pcl oserr) oserr none
      return (none, ⟨[], dir.fails⟩)
    | none =>
      let _ ← setErr (loc "readdir.c" "pcl_readdir" 148) eNomore
      return (none, ⟨[], dir.fails⟩)
  | (name, type) :: rest => do
    let name := CStr.ofBytes name
    let namlen := UInt16.ofNat name.strlen
    let (_, buf) ← strncpy (some (List.replicate 512 0)) (some name) namlen.toUInt64
    return (some ⟨type, namlen, .ofBytes (buf.getD [])⟩, ⟨rest, dir.fails⟩)

/-- What `pcl_readdir` gets when the `lstat` of an entry is asked for: the path that `pcl_aspprintf` makes, or its negative
result, and the error of `lstat`. -/
structure EntryStat where
  path : Except {r : Int // r < 0} CStr
  lstatErr : Option UInt32

/-- `pcl_lstat` of a path that is not empty. -/
def pclLstat (lstatErr : Option UInt32) : ErrM Int :=
  match lstatErr with
  | none => return 0
  | some oserr => do
    let r ← errVset (loc "unix_statent.c" "ipcl_statent" 110) (sys.os2pcl oserr) oserr none
    if r ≠ 0 then trc (loc "statent.c" "pcl_statent" 65) else return 0

/-- `pcl_readdir` for any caller: `ent` tells whether there is a place for the entry, and the `lstat` may be asked for. -/
def readdirStat (dir : Option DirStream) (ent : Bool) (stat : Option EntryStat) : ErrM (Option Dirent × Option DirStream) :=
  match dir, ent with
  | some dir, true => do
    let (e, dir) ← pclReaddir sys dir
    match e, stat with
    | some e, some stat =>
      match stat.path with
      | .error r =>
        let _ ← setErr (loc "readdir.c" "pcl_readdir" 203) (-r.1)
        return (none, some dir)
      | .ok _ =>
        let r ← pclLstat sys stat.lstatErr
        if r ≠ 0 then
          let _ ← trc (loc "readdir.c" "pcl_readdir" 209)
          return (none, some dir)
        else return (some e, some dir)
    | e, _ => return (e, some dir)
  | dir, _ => do
    let _ ← setErr (loc "readdir.c" "pcl_readdir" 49) eInval
    return (none, dir)

/-- `pcl_unlink`. -/
def DirSystem.pclUnlink (d : Disk) (path : CStr) : ErrM (Int × Disk) :=
  match sysUnlink sys d path with
  | .ok d => return (0, d)
  | .error oserr => do
    let r ← errVset (loc "unlink.c" "pcl_unlink" 60) (sys.os2pcl oserr) oserr none
    return (r, d)

/-- `pcl_rmdir`. -/
def pclRmdir (d : Disk) (path : CStr) : ErrM (Int × Disk) :=
  if path.bytes = [] then do
    let r ← badArg (loc "rmdir.c" "pcl_rmdir" 39)
    return (r, d)
  else
    match sysRmdir sys d path with
    | .ok d => return (0, d)
    | .error oserr => do
      let r ← errVset (loc "rmdir.c" "pcl_rmdir" 56) (sys.os2pcl oserr) oserr none
      return (r, d)

/-- The name of an entry is written behind the path and a separator. -/
def appendEntry (path name : CStr) : ErrM CStr := do
  let (_, buf) ← strncpy (some (List.replicate (rmdirBuf - path.strlen - 1) 0)) (some name) 0
  match buf with
  | some (b :: buf) => return .ofBytes (path.bytes ++ [pathSep] ++ b :: buf)
  | _ => ErrM.undef

/-- The loop of `rmdir_r`, with a bound on the entries; `none` where there are no more. -/
def rmdirLoop (recurse : CStr → Disk → ErrM (Int × Disk)) (path : CStr) :
    Nat → DirStream → Disk → ErrM (Option Int × Disk)
  | 0, _, _ => ErrM.undef
  | n + 1, dir, d => do
    let (ent, dir) ← pclReaddir sys dir
    match ent with
    | none => return (none, d)
    | some ent => do
      let full ← appendEntry path ent.name
      if ent.type = .dir then do
        let (r, d) ← recurse full d
        if r ≠ 0 then do
          let r ← trc (loc "rmdir_r.c" "rmdir_r" 62)
          return (some r, d)
        else rmdirLoop recurse path n dir d
      else do
        let (r, d) ← sys.pclUnlink d full
        if r ≠ 0 then do
          let r ← trc (loc "rmdir_r.c" "rmdir_r" 69)
          return (some r, d)
        else rmdirLoop recurse path n dir d

/-- `rmdir_r`, with a bound on the depth. -/
def rmdirR : Nat → CStr → Disk → ErrM (Int × Disk)
  | 0, _, _ => ErrM.undef
  | k + 1, path, d => do
    let dir ← pclOpendir sys d path
    match dir with
    | none => do
      let r ← trc (loc "rmdir_r.c" "rmdir_r" 45)
      return (r, d)
    | some dir => do
      let (r, d) ← rmdirLoop sys (rmdirR k) path (dir.rest.length + 1) dir d
      match r with
      | some r => return (r, d)
      | none => do
        let err ← errLast
        if err ≠ eNomore then do
          let r ← trc (loc "rmdir_r.c" "rmdir_r" 78)
          return (r, d)
        else do
          let (r, d) ← pclRmdir sys d path
          if r ≠ 0 then do
            let r ← trc (loc "rmdir_r.c" "rmdir_r" 81)
            return (r, d)
          else return (0, d)

/-- `pcl_rmdir_r`; a path that is opened is shorter than `PATH_MAX`, and each level adds to it. -/
def pclRmdirR (path : CStr) (d : Disk) : ErrM (Int × Disk) := do
  let (_, buf) ← strncpy (some (List.replicate rmdirBuf 0)) (some path) 0
  let (r, d) ← rmdirR sys (maxPath + 1) (.ofBytes (buf.getD [])) d
  if r ≠ 0 then do
    let r ← trc (loc "rmdir_r.c" "pcl_rmdir_r" 94)
    return (r, d)
  else return (0, d)

end
end Pcl

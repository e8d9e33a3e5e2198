import Pcl.File.Open
import Pcl.Io.Vsprintf
import Pcl.Str.Hex

/-!
# Names of temporary files

`src/io/tmpfile.c` on Unix, with what it calls of `src/stat`. What the system and the random generator
answer is given, call by call. The memory for a path is counted with one character for each random byte, where the
hexadecimal text of a byte takes two.
-/

namespace Pcl

/-- `PCL_MAXNAME`. -/
def maxName : Nat := 255

/-- `RANDLEN`. -/
def maxRand : Nat := 8

/-- `PATH_MAX` of the system, the NUL included. -/
def pathMax : Nat := 4096

/-- `S_ISDIR`. -/
def sIsdir (mode : UInt32) : Bool := mode &&& 0xF000 == 0x4000

/-- `EBADF`. -/
def ebadf : UInt32 := 9

/-- What the system answers: the variable `TMPDIR`, `P_tmpdir`, the mode or the error of a path, and, by the number of the
attempt, the random bytes and the errors of `open` and `unlink`. `uninit` is what `st.mode` holds before it is set. -/
structure TmpSystem where
  os2pcl : UInt32 → Int
  tmpdir : Option CStr
  pTmpdir : CStr
  stat : CStr → Except UInt32 UInt32
  uninit : Nat → UInt32
  rand : Nat → Nat → UInt8
  openErr : Nat → Option UInt32
  unlinkErr : Nat → Option UInt32
  fdopenErr : Option UInt32
  stat_short : ∀ path mode, stat path = .ok mode → path.strlen < pathMax

/-- One pass of the inner loop: the directory, the size of the memory for the path, the random bytes, and the path that
was tried. -/
structure Attempt where
  dir : CStr
  pathLen : Nat
  rand : List UInt8
  path : CStr
deriving DecidableEq

/-- A directory that may be tried, with the uninitialised mode. -/
structure TmpCandidate where
  dir : Option CStr
  uninit : UInt32

/-! ### Calls of the system -/

/-- `pcl_stat`, for the mode. -/
def pclStat (sys : TmpSystem) (path : CStr) (uninit : UInt32) : ErrM (Int × UInt32) :=
  if path.bytes = [] then do
    let r ← badArg (loc "statent.c" "pcl_statent" 44)
    return (r, uninit)
  else
    match sys.stat path with
    | .ok mode => return (0, mode)
    | .error oserr => do
      let r ← errVset (loc "unix_statent.c" "ipcl_statent" 110) (sys.os2pcl oserr) oserr none
      let r ← if r ≠ 0 then trc (loc "statent.c" "pcl_statent" 65) else pure 0
      return (r, 0)

/-- What the system answers to the attempt number `k`; a temporary file is not locked. -/
def TmpSystem.answers (sys : TmpSystem) (k : Nat) : OpenAnswers := ⟨sys.os2pcl, sys.openErr k, none, sys.unlinkErr k⟩

/-- `pcl_file_open`; a file is whether its descriptor is a bad one. -/
def pclFileOpen (sys : TmpSystem) (k : Nat) (path : CStr) (temp : Bool) : ErrM (Option Bool) := do
  let file ← (sys.answers k).fileOpen (some path) none temp
  return file.map OpenedFile.badfd

/-- `pcl_fdopen`: whether there is a stream. -/
def pclFdopen (sys : TmpSystem) (badfd : Bool) : ErrM Bool :=
  match if badfd then some ebadf else sys.fdopenErr with
  | some oserr => do
    let _ ← errVset (loc "fdopen.c" "pcl_fdopen" 89) (sys.os2pcl oserr) oserr none
    return false
  | none => do
    -- stole the handle, nuke the file
    fileClose (some false) []
    return true

/-! ### `pcl_tmpfile` -/

/-- The format of a path, `"%Ps%/%Ps%s%Ps"`. -/
def tmpFormat : List XChar :=
  [X '%', X 'P', X 's', X '%', X '/', X '%', X 'P', X 's', X '%', X 's', X '%', X 'P', X 's']

/-- The inner loop with `left` attempts left; `randhex` and `path` are the two buffers. -/
def tmpAttempts (sys : TmpSystem) (pre suf : CStr) (randLen : Nat) (temp : Bool) (tmpdir : CStr) :
    Nat → Nat → List UInt8 → List UInt8 → ErrM (Option (Bool × CStr) × List Attempt)
  | 0, _, _, _ => return (none, [])
  | left + 1, k, randhex, path => do
    -- generate random part of temp name
    let rand := (List.range randLen).map (sys.rand k)
    let (_, randhex) ← hexEncode randhex rand
    -- create tmp path
    match pclSprintf path tmpFormat [tmpdir, pre, CStr.ofBytes randhex, suf] with
    | none => ErrM.undef
    | some (_, path) =>
      let attempt := ⟨tmpdir, path.length, rand, CStr.ofBytes path⟩
      -- create tmp file
      let file ← pclFileOpen sys k (CStr.ofBytes path) temp
      match file with
      | some file => return (some (file, CStr.ofBytes path), [attempt])
      | none =>
        let (found, tried) ← tmpAttempts sys pre suf randLen temp tmpdir left (k + 1) randhex path
        return (found, attempt :: tried)

/-- The outer loop, before the attempt number `k`. -/
def tmpDirs (sys : TmpSystem) (pre suf : CStr) (randLen : Nat) (temp : Bool) :
    List TmpCandidate → Nat → ErrM (Option (Bool × CStr) × List Attempt)
  | [], _ => return (none, [])
  | ⟨none, _⟩ :: more, k => tmpDirs sys pre suf randLen temp more k
  | ⟨some tmpdir, uninit⟩ :: more, k => do
    let (r, mode) ← pclStat sys tmpdir uninit
    if r ≠ 0 ∨ ¬ sIsdir mode then tmpDirs sys pre suf randLen temp more k
    else
      -- first +1 is path separator and 2nd +1 is NUL
      let pathLen := tmpdir.strlen + 1 + pre.strlen + randLen + suf.strlen + 1
      -- try 3 times then move to next tmpdir
      let (found, tried) ← tmpAttempts sys pre suf randLen temp tmpdir 3 k (List.replicate (maxRand * 2 + 1) 0)
        (List.replicate pathLen 0)
      match found with
      | some file => return (some file, tried)
      | none =>
        let (found, tried') ← tmpDirs sys pre suf randLen temp more (k + tried.length)
        return (found, tried ++ tried')

/-- The directories, in the order in which they are tried. -/
def tmpdirs (sys : TmpSystem) (dir : Option CStr) : List TmpCandidate :=
  [⟨dir, sys.uninit 0⟩, ⟨sys.tmpdir, sys.uninit 1⟩, ⟨some sys.pTmpdir, sys.uninit 2⟩, ⟨some (.lit "."), sys.uninit 3⟩]

/-- `pcl_tmpfile`: whether there is a stream, what is stored in `*pathp`, and the attempts. -/
def pclTmpfile (sys : TmpSystem) (dir pre suf : Option CStr) (pathp keep : Bool) :
    ErrM (Bool × Option CStr × List Attempt) :=
  let prefixLen := pre.elim 0 CStr.strlen
  let suffixLen := suf.elim 0 CStr.strlen
  if maxName < prefixLen + suffixLen then do
    let _ ← setErrMsg (loc "tmpfile.c" "pcl_tmpfile" 55) eInval
      "prefix and suffix cannot exceed maximum file name length '255'"
    return (false, none, [])
  else do
    let randLen := min maxRand (maxName - (prefixLen + suffixLen))
    let (found, tried) ← tmpDirs sys (pre.getD (.lit "")) (suf.getD (.lit "")) randLen (!keep) (tmpdirs sys dir) 0
    match found with
    | none =>
      let _ ← setErr (loc "tmpfile.c" "pcl_tmpfile" 132) eNotfound
      return (false, none, tried)
    | some (badfd, path) =>
      let out := if pathp then some path else none
      -- convert to a FILE stream
      let stream ← pclFdopen sys badfd
      if stream then return (true, out, tried)
      else
        fileClose (some false) []
        let _ ← trc (loc "tmpfile.c" "pcl_tmpfile" 145)
        return (false, out, tried)

/-! ### The paths that are tried -/

/-- The file name with the whole of its three parts. -/
def tmpName (pre : CStr) (rand : List UInt8) (suf : CStr) : List UInt8 := pre.bytes ++ (hexPairs rand ++ suf.bytes)

namespace Attempt

/-- The path with the whole of its parts. -/
def full (pre suf : CStr) (a : Attempt) : List UInt8 := a.dir.bytes ++ ch '/' :: tmpName pre a.rand suf

/-- The path is complete, its name is not too long, and it fits its memory. -/
structure Meets (pre suf : CStr) (a : Attempt) : Prop where
  path : a.path.bytes = a.full pre suf
  name : (tmpName pre a.rand suf).length ≤ maxName
  fits : a.path.strlen + 1 ≤ a.pathLen

/-- What an attempt with `randLen` random bytes tries: as much of the full path as fits. -/
structure Cut (pre suf : CStr) (randLen : Nat) (a : Attempt) : Prop where
  rand : a.rand.length = randLen
  size : a.pathLen = a.dir.strlen + 1 + pre.strlen + randLen + suf.strlen + 1
  path : a.path.bytes = (a.full pre suf).take (a.pathLen - 1)

end Attempt

/-- The directory passes the test for one, the error state being frozen or not. Of an empty path a frozen state keeps the
error, and what is tested is the uninitialised mode. -/
def TmpCandidate.Taken (sys : TmpSystem) (frozen : Bool) (c : TmpCandidate) : Prop :=
  ∃ d, c.dir = some d ∧
    if d.bytes = [] then frozen = true ∧ sIsdir c.uninit = true else ∃ mode, sys.stat d = .ok mode ∧ sIsdir mode = true

/-- Every path that `pcl_tmpfile` tries is a complete path in one of its directories. -/
def TmpfileMeets (sys : TmpSystem) (dir pre suf : Option CStr) (pathp keep : Bool) (e : ErrState) : Prop :=
  ∃ stream out tried e', pclTmpfile sys dir pre suf pathp keep e = some ((stream, out, tried), e') ∧
    ∀ a ∈ tried, (∃ c ∈ tmpdirs sys dir, c.dir = some a.dir) ∧ a.Meets (pre.getD (.lit "")) (suf.getD (.lit ""))

section
variable {pre suf : CStr} {randLen : Nat} {a : Attempt}

theorem tmpName_length (pre : CStr) (rand : List UInt8) (suf : CStr) :
    (tmpName pre rand suf).length = pre.strlen + rand.length * 2 + suf.strlen := by
  unfold tmpName CStr.strlen
  rw [List.length_append, List.length_append, hexPairs_length]
  omega

theorem Attempt.full_length (pre suf : CStr) (a : Attempt) :
    (a.full pre suf).length = a.dir.strlen + 1 + pre.strlen + a.rand.length * 2 + suf.strlen := by
  unfold full
  rw [List.length_append, List.length_cons, tmpName_length]
  unfold CStr.strlen
  omega

/-- Without random bytes nothing is cut off; each one costs a character. -/
theorem Attempt.Cut.meets_iff (h : a.Cut pre suf randLen) (hname : pre.strlen + randLen + suf.strlen ≤ maxName) :
    a.Meets pre suf ↔ randLen = 0 := by
  have hfull := a.full_length pre suf
  rw [h.rand] at hfull
  have hsize := h.size
  constructor
  · intro hm
    have hlen := congrArg List.length (h.path.symm.trans hm.path)
    rw [List.length_take, hfull] at hlen
    omega
  · intro h0
    have hpath : a.path.bytes = a.full pre suf := by rw [h.path, List.take_of_length_le (by omega)]
    refine ⟨hpath, ?_, ?_⟩
    · rw [tmpName_length, h.rand]
      omega
    · have hlen := congrArg List.length hpath
      rw [hfull] at hlen
      unfold CStr.strlen at hlen hsize ⊢
      omega

theorem tmpFormat_conv :
    Fmtconv.conv tmpFormat = [X '%', X 's', X '/', X '%', X 's', X '%', X 's', X '%', X 's'] := by decide +kernel

/-- The text of a path. -/
theorem tmpFormat_text (tmpdir hex : CStr) :
    formatted (Fmtconv.conv tmpFormat) [tmpdir, pre, hex, suf] =
      some (tmpdir.bytes ++ ch '/' :: (pre.bytes ++ (hex.bytes ++ suf.bytes))) := by
  rw [tmpFormat_conv, formatted_arg, formatted_literal (by decide), formatted_arg, formatted_arg, formatted_arg,
    formatted_nil]
  simp only [Option.map_some, List.append_nil]
  rfl

theorem Attempt.nul_not_mem_full (a : Attempt) : (0 : UInt8) ∉ a.full pre suf := by
  have hhex : (0 : UInt8) ∉ hexPairs a.rand := fun h => (hexPairs_spec a.rand 0 h).2 rfl
  have hsep : (0 : UInt8) ≠ ch '/' := by decide
  simp only [full, tmpName, List.mem_append, List.mem_cons, a.dir.nul_free, pre.nul_free, suf.nul_free, hhex, hsep, or_false,
    not_false_eq_true]

end

/-! ### The loops -/

section
variable (sys : TmpSystem) {pre suf tmpdir : CStr} {randLen : Nat}

theorem pclStat_returns (d : CStr) (uninit : UInt32) (e : ErrState) :
    ∃ r mode e', pclStat sys d uninit e = some ((r, mode), e') ∧ e'.frozen = e.frozen ∧
      ((r ≠ 0 ∨ ¬ sIsdir mode) ↔ ¬ TmpCandidate.Taken sys e.frozen ⟨some d, uninit⟩) := by
  have htaken : TmpCandidate.Taken sys e.frozen ⟨some d, uninit⟩ ↔
      if d.bytes = [] then e.frozen = true ∧ sIsdir uninit = true else ∃ mode, sys.stat d = .ok mode ∧ sIsdir mode = true :=
    ⟨fun ⟨_, hd, h⟩ => by cases hd; exact h, fun h => ⟨d, rfl, h⟩⟩
  rw [htaken]
  unfold pclStat
  by_cases hempty : d.bytes = []
  · simp only [if_pos hempty, ErrM.bind_run, badArg_run, Option.bind_some, ErrM.pure_run]
    refine ⟨_, _, _, rfl, raised_frozen _ _ _ _ _, ?_⟩
    cases e.frozen <;> simp
  · rw [if_neg hempty, if_neg hempty]
    cases hstat : sys.stat d with
    | ok mode => exact ⟨0, mode, e, rfl, rfl, by simp⟩
    | error oserr =>
      obtain ⟨r, e', hset, hfrozen⟩ :=
        errVset_keeps e (loc "unix_statent.c" "ipcl_statent" 110) (sys.os2pcl oserr) oserr none
      -- the mode is zeroed, so it does not matter whether the error was kept
      have hmode : sIsdir 0 = false := by decide
      simp only [ErrM.bind_run, hset, Option.bind_some]
      by_cases hr : r = 0
      · rw [if_neg (not_not.2 hr)]
        exact ⟨0, 0, e', rfl, hfrozen, by simp [hmode]⟩
      · rw [if_pos hr, ErrM.bind_run, trc_run, Option.bind_some]
        exact ⟨_, 0, _, rfl, by rw [traced_frozen, hfrozen], by simp [hmode]⟩

theorem fileClose_unlocked (e : ErrState) : fileClose (some false) [] e = some ((), e.thawed) := rfl

theorem pclFileOpen_returns (k : Nat) (path : CStr) (temp : Bool) (e : ErrState) :
    ∃ file e', pclFileOpen sys k path temp e = some (file, e') := by
  obtain ⟨file, e', hopen⟩ := (sys.answers k).fileOpen_returns (some path) none temp e
  refine ⟨file.map OpenedFile.badfd, e', ?_⟩
  rw [pclFileOpen, ErrM.bind_run, hopen]
  rfl

theorem pclFdopen_returns (badfd : Bool) (e : ErrState) : ∃ stream e', pclFdopen sys badfd e = some (stream, e') := by
  unfold pclFdopen
  cases (if badfd then some ebadf else sys.fdopenErr) with
  | some oserr =>
    obtain ⟨r, e', hset⟩ := errVset_returns e (loc "fdopen.c" "pcl_fdopen" 89) (sys.os2pcl oserr) oserr none
    simp only [ErrM.bind_run, hset]
    exact ⟨_, e', rfl⟩
  | none => exact ⟨true, e.thawed, rfl⟩

/-- The buffer for a path holds a cut. -/
theorem tmpFormat_cuts (hdir : tmpdir.strlen < pathMax) (hname : pre.strlen + randLen + suf.strlen ≤ maxName)
    {rand path : List UInt8} (hrand : rand.length = randLen) {hex : CStr} (hhex : hex.bytes = hexPairs rand)
    (hpath : path.length = tmpdir.strlen + 1 + pre.strlen + randLen + suf.strlen + 1) :
    ∃ r out, pclSprintf path tmpFormat [tmpdir, pre, hex, suf] = some (r, out) ∧ out.length = path.length ∧
      Attempt.Cut pre suf randLen ⟨tmpdir, out.length, rand, .ofBytes out⟩ := by
  have htext : formatted (Fmtconv.conv tmpFormat) [tmpdir, pre, hex, suf] =
      some (Attempt.full pre suf ⟨tmpdir, path.length, rand, tmpdir⟩) := by
    rw [tmpFormat_text, hhex]
    rfl
  have hfull := Attempt.full_length pre suf ⟨tmpdir, path.length, rand, tmpdir⟩
  have hint : (Attempt.full pre suf ⟨tmpdir, path.length, rand, tmpdir⟩).length < 2 ^ 31 := by
    dsimp only at hfull
    unfold pathMax maxName at *
    omega
  have hne : path ≠ [] := List.ne_nil_of_length_pos (by omega)
  obtain ⟨r, out, hrun, hlen, htext⟩ := pclSprintf_cuts hne htext hint (Attempt.nul_not_mem_full _)
  exact ⟨r, out, hrun, hlen, hrand, hlen.trans hpath, by rw [hlen]; exact htext⟩

/-- The inner loop tries at least once, and only cuts. -/
theorem tmpAttempts_cuts (hdir : tmpdir.strlen < pathMax) (hrand : randLen ≤ maxRand)
    (hname : pre.strlen + randLen + suf.strlen ≤ maxName) (temp : Bool) (left k : Nat) {randhex path : List UInt8}
    (hhex : randhex.length = maxRand * 2 + 1)
    (hpath : path.length = tmpdir.strlen + 1 + pre.strlen + randLen + suf.strlen + 1) (e : ErrState) :
    ∃ found tried e', tmpAttempts sys pre suf randLen temp tmpdir left k randhex path e = some ((found, tried), e') ∧
      (∀ a ∈ tried, a.dir = tmpdir ∧ a.Cut pre suf randLen) ∧ (left ≠ 0 → tried ≠ []) := by
  induction left generalizing k randhex path e with
  | zero => exact ⟨none, [], e, rfl, by simp, by simp⟩
  | succ left ih =>
    obtain ⟨rand, hbytes⟩ : ∃ rand, rand = (List.range randLen).map (sys.rand k) := ⟨_, rfl⟩
    have hlen : rand.length = randLen := by rw [hbytes, List.length_map, List.length_range]
    have hfit : rand.length * 2 + 1 ≤ randhex.length := by omega
    have hencode := hexEncode_ok hfit e
    obtain ⟨r, out, hprint, hout, hcut⟩ := tmpFormat_cuts hdir hname hlen
      (hexEncode_text rand (randhex.drop (rand.length * 2 + 1))) hpath
    obtain ⟨file, e₁, hopen⟩ := pclFileOpen_returns sys k (.ofBytes out) temp e
    unfold tmpAttempts
    simp only [← hbytes, ErrM.bind_run, hencode, Option.bind_some, hprint, hopen]
    cases file with
    | some file => exact ⟨_, _, e₁, rfl, by simpa using hcut, by simp⟩
    | none =>
      have hhex' : (hexPairs rand ++ 0 :: randhex.drop (rand.length * 2 + 1)).length = maxRand * 2 + 1 := by
        rw [List.length_append, List.length_cons, List.length_drop, hexPairs_length]
        omega
      obtain ⟨found, tried, e₂, hrest, htried, -⟩ := ih (k + 1) hhex' (hout.trans hpath) e₁
      simp only [ErrM.bind_run, hrest, Option.bind_some, ErrM.pure_run]
      exact ⟨found, _, e₂, rfl, List.forall_mem_cons.2 ⟨⟨rfl, hcut⟩, htried⟩, by simp⟩

/-- What the system finds is not longer than it allows. -/
theorem TmpCandidate.Taken.short {frozen : Bool} {d : CStr} {uninit : UInt32}
    (h : TmpCandidate.Taken sys frozen ⟨some d, uninit⟩) : d.strlen < pathMax := by
  obtain ⟨d, hd, h⟩ := h
  cases hd
  split at h
  · next hempty =>
    unfold CStr.strlen
    rw [hempty]
    decide
  · obtain ⟨mode, hstat, -⟩ := h
    exact sys.stat_short d mode hstat

/-- The outer loop only tries cuts, in its own directories, and tries something just where one of them is taken. -/
theorem tmpDirs_cuts (hrand : randLen ≤ maxRand) (hname : pre.strlen + randLen + suf.strlen ≤ maxName) (temp : Bool)
    (dirs : List TmpCandidate) (k : Nat) (e : ErrState) :
    ∃ found tried e', tmpDirs sys pre suf randLen temp dirs k e = some ((found, tried), e') ∧
      (∀ a ∈ tried, (∃ c ∈ dirs, c.dir = some a.dir) ∧ a.Cut pre suf randLen) ∧
      (tried = [] ↔ ∀ c ∈ dirs, ¬ c.Taken sys e.frozen) := by
  induction dirs generalizing k e with
  | nil => exact ⟨none, [], e, rfl, by simp, by simp⟩
  | cons c more ih =>
    have hlater {tried : List Attempt}
        (h : ∀ a ∈ tried, (∃ c ∈ more, c.dir = some a.dir) ∧ a.Cut pre suf randLen) :
        ∀ a ∈ tried, (∃ d ∈ c :: more, d.dir = some a.dir) ∧ a.Cut pre suf randLen := fun a ha => by
      obtain ⟨⟨d, hd, hdir⟩, hcut⟩ := h a ha
      exact ⟨⟨d, List.mem_cons_of_mem c hd, hdir⟩, hcut⟩
    rcases c with ⟨_ | tmpdir, uninit⟩
    · obtain ⟨found, tried, e', hrun, hcuts, hnone⟩ := ih k e
      have hskip : ¬ TmpCandidate.Taken sys e.frozen ⟨none, uninit⟩ := fun ⟨_, hd, _⟩ => nomatch hd
      exact ⟨found, tried, e', hrun, hlater hcuts, by rw [hnone, List.forall_mem_cons, and_iff_right hskip]⟩
    · obtain ⟨r, mode, e₁, hstat, hfrozen, htest⟩ := pclStat_returns sys tmpdir uninit e
      unfold tmpDirs
      simp only [ErrM.bind_run, hstat, Option.bind_some]
      by_cases htaken : TmpCandidate.Taken sys e.frozen ⟨some tmpdir, uninit⟩
      · rw [if_neg fun h => htest.1 h htaken]
        have hhex : (List.replicate (maxRand * 2 + 1) (0 : UInt8)).length = maxRand * 2 + 1 := List.length_replicate
        have hpath : (List.replicate (tmpdir.strlen + 1 + pre.strlen + randLen + suf.strlen + 1) (0 : UInt8)).length =
            tmpdir.strlen + 1 + pre.strlen + randLen + suf.strlen + 1 := List.length_replicate
        obtain ⟨found, tried, e₂, hrun, hcuts, htried⟩ :=
          tmpAttempts_cuts sys htaken.short hrand hname temp 3 k hhex hpath e₁
        have hhere : ∀ a ∈ tried, (∃ c ∈ (⟨some tmpdir, uninit⟩ : TmpCandidate) :: more, c.dir = some a.dir) ∧
            a.Cut pre suf randLen := fun a ha =>
          ⟨⟨_, List.mem_cons_self, congrArg some (hcuts a ha).1.symm⟩, (hcuts a ha).2⟩
        have hne : ¬ ∀ c ∈ (⟨some tmpdir, uninit⟩ : TmpCandidate) :: more, ¬ c.Taken sys e.frozen := fun h =>
          h _ List.mem_cons_self htaken
        simp only [ErrM.bind_run, hrun, Option.bind_some]
        cases found with
        | some file => exact ⟨_, tried, e₂, rfl, hhere, iff_of_false (htried (by decide)) hne⟩
        | none =>
          obtain ⟨found, tried', e₃, hrest, hcuts', -⟩ := ih (k + tried.length) e₂
          simp only [ErrM.bind_run, hrest, Option.bind_some, ErrM.pure_run]
          refine ⟨found, tried ++ tried', e₃, rfl, ?_, ?_⟩
          · exact List.forall_mem_append.2 ⟨hhere, hlater hcuts'⟩
          · exact iff_of_false (fun h => htried (by decide) (List.append_eq_nil_iff.1 h).1) hne
      · rw [if_pos (htest.2 htaken)]
        obtain ⟨found, tried, e', hrun, hcuts, hnone⟩ := ih k e₁
        rw [hfrozen] at hnone
        exact ⟨found, tried, e', hrun, hlater hcuts, by rw [hnone, List.forall_mem_cons, and_iff_right htaken]⟩

end

/-! ### `pcl_tmpfile` -/

section
variable (sys : TmpSystem) (dir pre suf : Option CStr) (pathp keep : Bool) (e : ErrState)

theorem getD_strlen (s : Option CStr) : (s.getD (.lit "")).strlen = s.elim 0 CStr.strlen := by
  cases s with
  | none => rfl
  | some s => rfl

/-- Names that are refused are not tried. -/
theorem pclTmpfile_refuses (h : maxName < pre.elim 0 CStr.strlen + suf.elim 0 CStr.strlen) :
    ∃ e', pclTmpfile sys dir pre suf pathp keep e = some ((false, none, []), e') := by
  unfold pclTmpfile
  simp only [if_pos h, ErrM.bind_run, setErrMsg_run _ _ _ _ (by decide : eInval ≠ eOkay), Option.bind_some, ErrM.pure_run]
  exact ⟨_, rfl⟩

/-- For other names the attempts are those of the outer loop. -/
theorem pclTmpfile_cuts (h : pre.elim 0 CStr.strlen + suf.elim 0 CStr.strlen ≤ maxName) :
    ∃ stream out tried e', pclTmpfile sys dir pre suf pathp keep e = some ((stream, out, tried), e') ∧
      (∀ a ∈ tried, (∃ c ∈ tmpdirs sys dir, c.dir = some a.dir) ∧ a.Cut (pre.getD (.lit "")) (suf.getD (.lit ""))
        (min maxRand (maxName - (pre.elim 0 CStr.strlen + suf.elim 0 CStr.strlen)))) ∧
      (tried = [] ↔ ∀ c ∈ tmpdirs sys dir, ¬ c.Taken sys e.frozen) := by
  obtain ⟨randLen, hrandLen⟩ : ∃ n, n = min maxRand (maxName - (pre.elim 0 CStr.strlen + suf.elim 0 CStr.strlen)) := ⟨_, rfl⟩
  have hname : (pre.getD (.lit "")).strlen + randLen + (suf.getD (.lit "")).strlen ≤ maxName := by
    rw [getD_strlen, getD_strlen]
    omega
  obtain ⟨found, tried, e₁, hrun, htried⟩ := tmpDirs_cuts sys (hrandLen ▸ min_le_left _ _) hname (!keep) (tmpdirs sys dir) 0 e
  unfold pclTmpfile
  simp only [if_neg (Nat.not_lt.2 h), ← hrandLen, ErrM.bind_run, hrun, Option.bind_some]
  rcases found with _ | ⟨badfd, path⟩
  · simp only [ErrM.bind_run, setErr_run _ _ _ (by decide : eNotfound ≠ eOkay), Option.bind_some, ErrM.pure_run]
    exact ⟨_, _, tried, _, rfl, htried⟩
  · obtain ⟨stream, e₂, hopen⟩ := pclFdopen_returns sys badfd e₁
    simp only [ErrM.bind_run, hopen, Option.bind_some]
    cases stream with
    | true => exact ⟨_, _, tried, e₂, rfl, htried⟩
    | false =>
      simp only [Bool.false_eq_true, if_false, ErrM.bind_run, fileClose_unlocked, Option.bind_some, trc_run, ErrM.pure_run]
      exact ⟨_, _, tried, _, rfl, htried⟩

/-- The paths are complete just where the names leave no room for random bytes, or there is no directory to try. -/
theorem tmpfile_meets_iff : TmpfileMeets sys dir pre suf pathp keep e ↔
    maxName ≤ pre.elim 0 CStr.strlen + suf.elim 0 CStr.strlen ∨ ∀ c ∈ tmpdirs sys dir, ¬ c.Taken sys e.frozen := by
  unfold TmpfileMeets
  rcases Nat.lt_or_ge maxName (pre.elim 0 CStr.strlen + suf.elim 0 CStr.strlen) with hlong | hshort
  · obtain ⟨e', hrun⟩ := pclTmpfile_refuses sys dir pre suf pathp keep e hlong
    exact iff_of_true ⟨_, _, _, e', hrun, by simp⟩ (.inl hlong.le)
  · obtain ⟨stream, out, tried, e', hrun, hcuts, hnone⟩ := pclTmpfile_cuts sys dir pre suf pathp keep e hshort
    have hmeets : ∀ a ∈ tried, a.Meets (pre.getD (.lit "")) (suf.getD (.lit "")) ↔
        maxName ≤ pre.elim 0 CStr.strlen + suf.elim 0 CStr.strlen := fun a ha => by
      rw [(hcuts a ha).2.meets_iff (by rw [getD_strlen, getD_strlen]; omega)]
      unfold maxRand
      omega
    constructor
    · rintro ⟨_, _, _, _, hrun', hall⟩
      cases hrun.symm.trans hrun'
      rcases List.eq_nil_or_concat tried with hnil | ⟨_, a, htried⟩
      · exact .inr (hnone.1 hnil)
      · have ha : a ∈ tried := by simp [htried]
        exact .inl ((hmeets a ha).1 (hall a ha).2)
    · rintro (hfull | hdirs)
      · exact ⟨_, _, _, e', hrun, fun a ha => ⟨(hcuts a ha).1, (hmeets a ha).2 hfull⟩⟩
      · exact ⟨_, _, _, e', hrun, by simp [hnone.2 hdirs]⟩

end

/-- Of all paths, "/tmp" is a directory, and every file can be created. -/
def tmpOnly : TmpSystem where
  os2pcl _ := eInval
  tmpdir := none
  pTmpdir := .lit "/tmp"
  stat path := if path = .lit "/tmp" then .ok 0x41FF else .error 2
  uninit _ := 0
  rand _ _ := 0xAB
  openErr _ := none
  unlinkErr _ := none
  fdopenErr := none
  stat_short path mode h := by
    split at h
    · next heq =>
      rw [heq]
      decide
    · cases h

/-- The names of C sources in "/tmp" lose their suffix. -/
theorem tmpfile_loses_suffix :
    ¬ TmpfileMeets tmpOnly (some (.lit "/tmp")) (some (.lit "x")) (some (.lit ".c")) false false .zero := by
  rintro ⟨_, _, tried, _, hrun, hall⟩
  obtain ⟨_, _, _, _, hrun', hcuts, hnone⟩ :=
    pclTmpfile_cuts tmpOnly (some (.lit "/tmp")) (some (.lit "x")) (some (.lit ".c")) false false .zero (by decide)
  cases hrun.symm.trans hrun'
  have hstat : tmpOnly.stat (.lit "/tmp") = .ok 0x41FF := by simp [tmpOnly]
  have htaken : TmpCandidate.Taken tmpOnly ErrState.zero.frozen ⟨some (.lit "/tmp"), 0⟩ :=
    ⟨.lit "/tmp", rfl, by rw [if_neg (by decide)]; exact ⟨0x41FF, hstat, by decide⟩⟩
  have hne : tried ≠ [] := fun h => hnone.1 h _ List.mem_cons_self htaken
  obtain ⟨a, ha⟩ := List.exists_mem_of_ne_nil tried hne
  have hrand := ((hcuts a ha).2.meets_iff (by decide)).1 (hall a ha).2
  exact absurd hrand (by decide)

end Pcl

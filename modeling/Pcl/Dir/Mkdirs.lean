import Pcl.Lib.FileTree
import Pcl.Str.Bounded

/-!
# Directories with their parents

`pcl_mkdirs` of `src/dir/mkdirs.c` and `pcl_mkdir` on Unix, over a tree of directories and regular files. A name that
is there already counts as progress, whatever it is; so a path that ends in a regular file is reported as created. Under
a frozen error state `pcl_mkdir` reports no failure at all.
-/

namespace Pcl
open FileTree (Component Denial)

abbrev Name := List UInt8

/-- Directories have a mode. -/
abbrev Tree (F : Type) := FileTree Name UInt32 F

/-- `PCL_PPATHSEPCHAR`. -/
def pathSep : UInt8 := ch '/'

def enoent : UInt32 := 2
def eexist : UInt32 := 17
def enotdir : UInt32 := 20

/-- The buffer of `pcl_mkdirs`. -/
def mkdirsBuf : Nat := 16 * 1024

/-- The process and the system: the table of `pcl_err_os2pcl`, which has one entry for `PCL_EEXIST` and one for
`PCL_EOKAY`, the mask and the current directory, and where a missing directory is refused for another reason. -/
structure MkdirSystem where
  os2pcl : UInt32 → Int
  umask : UInt32
  cwd : List Name
  refuse : List Name → Option {oserr : UInt32 // oserr ≠ 0 ∧ oserr ≠ eexist}
  exist_iff : ∀ oserr, os2pcl oserr = eExist ↔ oserr = eexist
  okay_iff : ∀ oserr, os2pcl oserr = eOkay ↔ oserr = 0

/-! ### Paths -/

def component (s : Name) : Component Name :=
  if s = txt "." then .here else if s = txt ".." then .up else .name s

/-- The components of a path; repeated separators, and one at an end, are none. -/
def components (path : List UInt8) : List (Component Name) :=
  ((path.splitOn pathSep).filter (· ≠ [])).map component

/-- The name at a position. -/
def nameOf (rest : List UInt8) : Name := rest.takeWhile (· != pathSep)

/-- The separator behind it, if there is one, and what follows. -/
def tailOf (rest : List UInt8) : List UInt8 := rest.dropWhile (· != pathSep)

theorem behind_sep_lt {rest more : List UInt8} {sep : UInt8} (h : tailOf rest = sep :: more) :
    more.length < rest.length := by
  have hsuffix : sep :: more <:+ rest := h ▸ List.dropWhile_suffix _
  exact hsuffix.length_le

/-- Where a path starts. -/
def MkdirSystem.start (sys : MkdirSystem) (path : List UInt8) : List Name :=
  if path.head? = some pathSep then [] else sys.cwd

/-! ### The calls -/

section
variable {F : Type} (sys : MkdirSystem) (t : Tree F)

def denialErrno : Denial {oserr : UInt32 // oserr ≠ 0 ∧ oserr ≠ eexist} → UInt32
  | .obstacle .missing => enoent
  | .obstacle .notDir => enotdir
  | .exist => eexist
  | .refused reason => reason

/-- `mkdir` of the system. -/
def sysMkdir (path : CStr) (mode : UInt32) : Except UInt32 (Tree F) :=
  if path.bytes = [] then .error enoent
  else
    match t.mkdir sys.refuse (mode &&& ~~~sys.umask) (sys.start path.bytes) (components path.bytes) with
    | .ok t => .ok t
    | .error denial => .error (denialErrno denial)

/-- `pcl_mkdir`. -/
def pclMkdir (path : CStr) (mode : UInt32) : ErrM (Int × Tree F) :=
  match sysMkdir sys t path mode with
  | .ok t => return (0, t)
  | .error oserr => do
    let msg := CStr.ofBytes (txt "failed to create directory: '" ++ path.bytes ++ txt "'")
    let r ← errVset (loc "mkdir.c" "pcl_mkdir" 65) (sys.os2pcl oserr) oserr (some msg)
    return (r, t)

/-- `pcl_err_last`. -/
def errLast : ErrM Int := fun e => some (e.err, e)

/-- The loop of `pcl_mkdirs`; the buffer holds `before` up to `path_pos` and `rest` from there on. -/
def mkdirsLoop (path : CStr) (mode : UInt32) (before rest : List UInt8) (t : Tree F) : ErrM (Int × Tree F) := do
  let name := nameOf rest
  let (r, t) ← pclMkdir sys t (.ofBytes (before ++ name)) mode
  let err ← errLast
  if r ≠ 0 ∧ err ≠ eExist then
    let msg := CStr.ofBytes (txt "failed to create directories: '" ++ path.bytes ++ txt "'")
    let r ← errVtrace (loc "mkdirs.c" "pcl_mkdirs" 77) (some msg)
    return (r, t)
  else
    match _h : tailOf rest with
    | [] => return (0, t)
    | sep :: more => mkdirsLoop path mode (before ++ name ++ [sep]) more t
termination_by rest.length
decreasing_by exact behind_sep_lt _h

/-- `pcl_mkdirs`. -/
def pclMkdirs (path : CStr) (mode : UInt32) : ErrM (Int × Tree F) := do
  let (copied, buf) ← strncpy (some (List.replicate mkdirsBuf 0)) (some path) 0
  match copied, buf with
  | true, some buf =>
    -- Skip '/' root
    match (CStr.ofBytes buf).bytes with
    | [] => mkdirsLoop sys path mode [] [] t
    | c :: rest => if c = pathSep then mkdirsLoop sys path mode [c] rest t else mkdirsLoop sys path mode [] (c :: rest) t
  | _, _ => ErrM.undef

end

/-! ### Positions in the path -/

theorem component_eq_nil_iff (s : Name) : [s].filter (· ≠ []) = if s = [] then [] else [s] := by
  by_cases h : s = [] <;> simp [h]

theorem components_name {s : Name} (h : pathSep ∉ s) : components s = if s = [] then [] else [component s] := by
  unfold components
  rw [List.splitOn_eq_singleton h, component_eq_nil_iff]
  split <;> rfl

theorem components_nil : components [] = [] := components_name List.not_mem_nil

theorem components_append (s s' : List UInt8) : components (s ++ pathSep :: s') = components s ++ components s' := by
  unfold components
  rw [List.splitOn_append_cons_self, List.filter_append, List.map_append]

theorem components_sep (s : List UInt8) : components (pathSep :: s) = components s := by
  have h := components_append [] s
  rwa [List.nil_append, components_nil, List.nil_append] at h

theorem name_append_tail (rest : List UInt8) : nameOf rest ++ tailOf rest = rest := List.takeWhile_append_dropWhile

theorem sep_not_mem_name (rest : List UInt8) : pathSep ∉ nameOf rest := fun h => by
  simpa using List.mem_takeWhile_imp h

theorem tail_sep {rest more : List UInt8} {sep : UInt8} (h : tailOf rest = sep :: more) : sep = pathSep := by
  have hne : tailOf rest ≠ [] := h ▸ List.cons_ne_nil _ _
  have hhead := List.head_dropWhile_not (· != pathSep) hne
  have hsep : (tailOf rest).head hne = sep := by simp only [h, List.head_cons]
  unfold tailOf at hsep
  rw [hsep] at hhead
  simpa using hhead

theorem components_rest (rest : List UInt8) : components rest = components (nameOf rest) ++ components (tailOf rest) := by
  conv_lhs => rw [← name_append_tail rest]
  cases htail : tailOf rest with
  | nil => rw [List.append_nil, components_nil, List.append_nil]
  | cons sep more =>
    cases tail_sep htail
    rw [components_append, components_sep]

theorem components_cons {rest : List UInt8} {c : Component Name} (h : components (nameOf rest) = [c]) :
    components rest = c :: components (tailOf rest) := by
  rw [components_rest, h]
  rfl

/-- Where `path_pos` stands: `cs` are the components in front of it. -/
structure Position (path before rest : List UInt8) (cs : List (Component Name)) : Prop where
  text : before ++ rest = path
  closed : ∀ s, components (before ++ s) = cs ++ components s
  head : before ≠ [] ∨ rest.head? ≠ some pathSep

namespace Position
variable {path before rest : List UInt8} {cs : List (Component Name)}

theorem components_path (h : Position path before rest cs) :
    components path = cs ++ components (nameOf rest) ++ components (tailOf rest) := by
  rw [← h.text, h.closed, components_rest, List.append_assoc]

theorem next (h : Position path before rest cs) {sep : UInt8} {more : List UInt8} (hmore : tailOf rest = sep :: more) :
    Position path (before ++ nameOf rest ++ [sep]) more (cs ++ components (nameOf rest)) where
  text := by
    rw [← h.text]
    conv_rhs => rw [← name_append_tail rest, hmore]
    simp
  closed s := by
    cases tail_sep hmore
    have hsplit : before ++ nameOf rest ++ [pathSep] ++ s = before ++ (nameOf rest ++ pathSep :: s) := by simp
    rw [hsplit, h.closed, components_append, List.append_assoc]
  head := .inl (by simp)

/-- The text that `pcl_mkdir` is called with. -/
theorem call (sys : MkdirSystem) (h : Position path before rest cs) (hpath : path ≠ []) :
    before ++ nameOf rest ≠ [] ∧ components (before ++ nameOf rest) = cs ++ components (nameOf rest) ∧
      sys.start (before ++ nameOf rest) = sys.start path := by
  have hne : before ++ nameOf rest ≠ [] := by
    intro hnil
    obtain ⟨hbefore, hname⟩ := List.append_eq_nil_iff.1 hnil
    have htail := name_append_tail rest
    rw [hname, List.nil_append] at htail
    cases hrest : tailOf rest with
    | nil => exact hpath (by rw [← h.text, hbefore, ← htail, hrest]; rfl)
    | cons sep more =>
      rw [← htail, hrest, tail_sep hrest] at h
      exact h.head.elim (fun h => h hbefore) fun h => h rfl
  refine ⟨hne, h.closed _, ?_⟩
  have hsplit : path = before ++ nameOf rest ++ tailOf rest := by rw [List.append_assoc, name_append_tail, h.text]
  unfold MkdirSystem.start
  rw [hsplit, List.head?_append_of_ne_nil _ hne]

end Position

/-! ### One call -/

/-- The path names a directory. -/
def NamesDir {F : Type} (sys : MkdirSystem) (t : Tree F) (path : List UInt8) : Prop :=
  path ≠ [] ∧ t.DirAt (sys.start path) (components path)

/-- The locations that the path passes and the one that it leads to. -/
def Along (sys : MkdirSystem) (path : List UInt8) (p : List Name) : Prop :=
  ∃ cs, cs <+: components path ∧ p = FileTree.follow (sys.start path) cs

section
variable {F : Type} {sys : MkdirSystem} {t t' : Tree F} {path : CStr} {mode : UInt32} {before rest : List UInt8}
  {cs : List (Component Name)} {p : List Name}

theorem denialErrno_iff (d : Denial {oserr : UInt32 // oserr ≠ 0 ∧ oserr ≠ eexist}) :
    denialErrno d ≠ 0 ∧ (denialErrno d = eexist ↔ d = .exist) := by
  rcases d with (_ | _) | _ | ⟨oserr, h0, hexist⟩
  · exact ⟨by decide, by decide⟩
  · exact ⟨by decide, by decide⟩
  · exact ⟨by decide, by decide⟩
  · exact ⟨h0, iff_of_false hexist (by simp)⟩

theorem pclMkdir_made (h : sysMkdir sys t path mode = .ok t') (e : ErrState) :
    pclMkdir sys t path mode e = some ((0, t'), e) := by
  unfold pclMkdir
  rw [h]
  rfl

theorem pclMkdir_fails {oserr : UInt32} (h : sysMkdir sys t path mode = .error oserr) (h0 : oserr ≠ 0) (e : ErrState) :
    ∃ e', pclMkdir sys t path mode e = some ((if e.frozen then 0 else -1, t), e') ∧ e'.frozen = e.frozen ∧
      (e.frozen = false → e'.err = sys.os2pcl oserr) := by
  have herr : sys.os2pcl oserr ≠ eOkay := fun h => h0 ((sys.okay_iff oserr).1 h)
  unfold pclMkdir
  simp only [h, ErrM.bind_run, errVset_run _ _ _ _ _ herr, Option.bind_some, ErrM.pure_run]
  exact ⟨_, rfl, raised_frozen _ _ _ _ _, fun hf => raised_err _ _ _ _ _ hf⟩

/-- The loop behind a name. -/
def mkdirsOn (sys : MkdirSystem) (path : CStr) (mode : UInt32) (before tail : List UInt8) (t : Tree F) :
    ErrM (Int × Tree F) :=
  match tail with
  | [] => return (0, t)
  | sep :: more => mkdirsLoop sys path mode (before ++ [sep]) more t

theorem mkdirsLoop_eq : mkdirsLoop sys path mode before rest t =
    pclMkdir sys t (.ofBytes (before ++ nameOf rest)) mode >>= fun out => errLast >>= fun err =>
      if out.1 ≠ 0 ∧ err ≠ eExist then
        errVtrace (loc "mkdirs.c" "pcl_mkdirs" 77)
          (some (.ofBytes (txt "failed to create directories: '" ++ path.bytes ++ txt "'"))) >>= fun r => pure (r, out.2)
      else mkdirsOn sys path mode (before ++ nameOf rest) (tailOf rest) out.2 := by
  rw [mkdirsLoop]
  have hon (t : Tree F) : (match _h : tailOf rest with
      | [] => return (0, t)
      | sep :: more => mkdirsLoop sys path mode (before ++ nameOf rest ++ [sep]) more t) =
      mkdirsOn sys path mode (before ++ nameOf rest) (tailOf rest) t := by
    unfold mkdirsOn
    split
    · next h => rw [h]
    · next h => rw [h]
  simp only [hon]

/-- At a position, `mkdir` is called for the components up to the name. -/
theorem sysMkdir_at (hpos : Position path.bytes before rest cs) (hpath : path.bytes ≠ []) :
    sysMkdir sys t (.ofBytes (before ++ nameOf rest)) mode =
      match t.mkdir sys.refuse (mode &&& ~~~sys.umask) (sys.start path.bytes) (cs ++ components (nameOf rest)) with
      | .ok t => .ok t
      | .error denial => .error (denialErrno denial) := by
  obtain ⟨hne, hcomponents, hstart⟩ := hpos.call sys hpath
  have hnul : (0 : UInt8) ∉ before ++ nameOf rest := by
    intro h
    have hsplit : path.bytes = before ++ nameOf rest ++ tailOf rest := by
      rw [List.append_assoc, name_append_tail, hpos.text]
    exact path.nul_free (hsplit ▸ List.mem_append_left _ h)
  have htext : (CStr.ofBytes (before ++ nameOf rest)).bytes = before ++ nameOf rest :=
    congrArg CStr.bytes (CStr.ofBytes_bytes ⟨_, hnul⟩)
  unfold sysMkdir
  rw [htext, if_neg hne, hcomponents, hstart]

/-- A directory that was created. -/
theorem mkdirsLoop_made (hpos : Position path.bytes before rest cs) (hpath : path.bytes ≠ [])
    (hmk : t.mkdir sys.refuse (mode &&& ~~~sys.umask) (sys.start path.bytes) (cs ++ components (nameOf rest)) = .ok t')
    (e : ErrState) : mkdirsLoop sys path mode before rest t e =
      mkdirsOn sys path mode (before ++ nameOf rest) (tailOf rest) t' e := by
  have hsys : sysMkdir sys t (.ofBytes (before ++ nameOf rest)) mode = .ok t' := by
    rw [sysMkdir_at hpos hpath, hmk]
  rw [mkdirsLoop_eq, ErrM.bind_run, pclMkdir_made hsys, Option.bind_some]
  rfl

/-- Where `mkdir` fails, the loop goes on if something is there, or if the error state is frozen. -/
theorem mkdirsLoop_fails (path : CStr) {oserr : UInt32}
    (hsys : sysMkdir sys t (.ofBytes (before ++ nameOf rest)) mode = .error oserr)
    (h0 : oserr ≠ 0) (e : ErrState) :
    (e.frozen = true ∨ oserr = eexist → ∃ e', e'.frozen = e.frozen ∧ mkdirsLoop sys path mode before rest t e =
      mkdirsOn sys path mode (before ++ nameOf rest) (tailOf rest) t e') ∧
    (¬ (e.frozen = true ∨ oserr = eexist) →
      ∃ r e', r ≠ 0 ∧ mkdirsLoop sys path mode before rest t e = some ((r, t), e')) := by
  obtain ⟨e', hrun, hfrozen, herr⟩ := pclMkdir_fails hsys h0 e
  have hlast : errLast e' = some (e'.err, e') := rfl
  rw [mkdirsLoop_eq, ErrM.bind_run, hrun, Option.bind_some]
  simp only [ErrM.bind_run, hlast, Option.bind_some]
  cases hf : e.frozen with
  | true => exact ⟨fun _ => ⟨e', hfrozen.trans hf, rfl⟩, fun h => absurd (.inl rfl) h⟩
  | false =>
    rw [herr hf]
    by_cases hd : oserr = eexist
    · rw [(sys.exist_iff _).2 hd]
      exact ⟨fun _ => ⟨e', hfrozen.trans hf, rfl⟩, fun h => absurd (.inr hd) h⟩
    · have hstop : (if false = true then (0 : Int) else -1) ≠ 0 ∧ sys.os2pcl oserr ≠ eExist :=
        ⟨by decide, fun h => hd ((sys.exist_iff _).1 h)⟩
      have hokay : e'.err ≠ eOkay := by
        rw [herr hf]
        exact fun h => h0 ((sys.okay_iff _).1 h)
      rw [if_pos hstop]
      simp only [ErrM.bind_run, errVtrace_run, Option.bind_some, ErrM.pure_run, hfrozen, hf, hokay, Bool.false_eq_true,
        or_self, if_false]
      exact ⟨fun h => absurd h (by simp [hd]), fun _ => ⟨-1, _, by decide, rfl⟩⟩

theorem mkdirsLoop_kept (hpos : Position path.bytes before rest cs) (hpath : path.bytes ≠ [])
    {d : Denial {oserr : UInt32 // oserr ≠ 0 ∧ oserr ≠ eexist}}
    (hmk : t.mkdir sys.refuse (mode &&& ~~~sys.umask) (sys.start path.bytes) (cs ++ components (nameOf rest)) = .error d)
    (e : ErrState) :
    (e.frozen = true ∨ d = .exist → ∃ e', e'.frozen = e.frozen ∧ mkdirsLoop sys path mode before rest t e =
      mkdirsOn sys path mode (before ++ nameOf rest) (tailOf rest) t e') ∧
    (¬ (e.frozen = true ∨ d = .exist) → ∃ r e', r ≠ 0 ∧ mkdirsLoop sys path mode before rest t e = some ((r, t), e')) := by
  have hsys : sysMkdir sys t (.ofBytes (before ++ nameOf rest)) mode = .error (denialErrno d) := by
    rw [sysMkdir_at hpos hpath, hmk]
  obtain ⟨hne, hexist⟩ := denialErrno_iff d
  rw [← hexist]
  exact mkdirsLoop_fails path hsys hne e

/-! ### The loop -/

/-- One turn of the loop that creates nothing and does not come to a directory. -/
theorem mkdirsLoop_idles (hpath : path.bytes ≠ []) (hpos : Position path.bytes before rest cs)
    {d : Denial {oserr : UInt32 // oserr ≠ 0 ∧ oserr ≠ eexist}}
    (hmk : t.mkdir sys.refuse (mode &&& ~~~sys.umask) (sys.start path.bytes) (cs ++ components (nameOf rest)) = .error d)
    (hdir : ¬ t.DirAt (sys.start path.bytes) (cs ++ components (nameOf rest))) (e : ErrState)
    (hmore : ∀ sep more e₁, tailOf rest = sep :: more →
      ∃ r e', mkdirsLoop sys path mode (before ++ nameOf rest ++ [sep]) more t e₁ = some ((r, t), e') ∧
        (r = 0 ↔ e₁.frozen = true ∨ t.FileAt (sys.start path.bytes) (components path.bytes))) :
    ∃ r e', mkdirsLoop sys path mode before rest t e = some ((r, t), e') ∧
      (r = 0 ↔ e.frozen = true ∨ t.FileAt (sys.start path.bytes) (components path.bytes)) := by
  have hexist := FileTree.mkdir_exist_iff hmk
  rw [or_iff_right hdir] at hexist
  have hfile : t.FileAt (sys.start path.bytes) (components path.bytes) ↔ components (tailOf rest) = [] ∧ d = .exist := by
    rw [hpos.components_path, FileTree.fileAt_append hdir, hexist]
  obtain ⟨hgoes, hstops⟩ := mkdirsLoop_kept hpos hpath hmk e
  by_cases hgo : e.frozen = true ∨ d = .exist
  · obtain ⟨e₁, hfrozen, hrun⟩ := hgoes hgo
    rw [hrun]
    cases htail : tailOf rest with
    | nil => exact ⟨0, e₁, rfl, iff_of_true rfl (by rwa [hfile, htail, components_nil, and_iff_right rfl])⟩
    | cons sep more =>
      rw [← hfrozen]
      exact hmore sep more e₁ htail
  · obtain ⟨r, e', hr, hrun⟩ := hstops hgo
    refine ⟨r, e', hrun, iff_of_false hr ?_⟩
    rw [hfile]
    exact fun h => hgo (h.imp_right And.right)

/-- Behind a location that is no directory and that cannot become one, nothing changes; a failure is not reported where
there is something at the end, or where the error state is frozen. -/
theorem mkdirsLoop_stuck (hpath : path.bytes ≠ []) (hpos : Position path.bytes before rest cs)
    {d : Denial {oserr : UInt32 // oserr ≠ 0 ∧ oserr ≠ eexist}}
    (hmk : t.mkdir sys.refuse (mode &&& ~~~sys.umask) (sys.start path.bytes) cs = .error d)
    (hdir : ¬ t.DirAt (sys.start path.bytes) cs) (e : ErrState) :
    ∃ r e', mkdirsLoop sys path mode before rest t e = some ((r, t), e') ∧
      (r = 0 ↔ e.frozen = true ∨ t.FileAt (sys.start path.bytes) (components path.bytes)) := by
  induction hn : rest.length using Nat.strong_induction_on generalizing before rest cs d e with
  | _ n ih =>
    obtain ⟨d₁, hmk₁⟩ := FileTree.mkdir_behind hmk hdir (components (nameOf rest))
    have hdir₁ := FileTree.not_dirAt_append hdir (components (nameOf rest))
    refine mkdirsLoop_idles hpath hpos hmk₁ hdir₁ e fun sep more e₁ htail => ?_
    exact ih _ (hn ▸ behind_sep_lt htail) (hpos.next htail) hmk₁ hdir₁ e₁ rfl

/-- How the loop ends: what is at the end of the path then, and what is reported. -/
structure MkdirsEnds (sys : MkdirSystem) (path : List UInt8) (frozen : Bool) (t : Tree F) (p : List Name)
    (cs : List (Component Name)) (out : Int × Tree F) : Prop where
  grows : FileTree.Grows (Along sys path) t out.2
  dir_iff : out.2.DirAt (sys.start path) (components path) ↔
    t.Reaches sys.refuse p cs ∧ t.Open sys.refuse (FileTree.follow p cs)
  file_iff : out.2.FileAt (sys.start path) (components path) ↔ t.Reaches sys.refuse p cs ∧ t.IsFile (FileTree.follow p cs)
  result_iff : out.1 = 0 ↔ frozen = true ∨ out.2.DirAt (sys.start path) (components path) ∨
    out.2.FileAt (sys.start path) (components path)

/-- At the end of the path. -/
theorem MkdirsEnds.done (hcomponents : components path.bytes = cs) (hw : t.walk (sys.start path.bytes) cs = .ok p)
    (hp : t.IsDir p) (frozen : Bool) : MkdirsEnds sys path.bytes frozen t p [] (0, t) := by
  have hdir : t.DirAt (sys.start path.bytes) (components path.bytes) := by
    rw [hcomponents]
    exact ⟨p, hw, hp⟩
  have hfile : ¬ t.FileAt (sys.start path.bytes) (components path.bytes) := by
    rw [hcomponents, FileTree.fileAt_iff hw]
    exact hp.not_isFile
  exact ⟨.refl _ t, iff_of_true hdir ⟨trivial, .inl hp⟩, iff_of_false hfile fun h => hp.not_isFile h.2,
    iff_of_true rfl (.inr (.inl hdir))⟩

/-- From the next location to the one before it; the tree may have grown there. -/
theorem MkdirsEnds.through {frozen : Bool} {c : Component Name} {out : Int × Tree F} (hp : t.IsDir p)
    (hgrows : FileTree.Grows (Along sys path.bytes) t t') (hopen : ∀ q, t'.Open sys.refuse q ↔ t.Open sys.refuse q)
    (hreaches : ∀ q cs, t'.Reaches sys.refuse q cs ↔ t.Reaches sys.refuse q cs)
    (h : MkdirsEnds sys path.bytes frozen t' (c.step p) cs out) : MkdirsEnds sys path.bytes frozen t p (c :: cs) out := by
  have hreach : t.Reaches sys.refuse p (c :: cs) ↔ t'.Reaches sys.refuse (c.step p) cs := by
    rw [hreaches]
    exact and_iff_right (.inl hp)
  refine ⟨hgrows.trans h.grows, ?_, ?_, h.result_iff⟩
  · rw [h.dir_iff, hreach, hopen]
    rfl
  · rw [h.file_iff, hreach, hgrows.isFile_iff]
    rfl

/-- Behind a location that blocks the path. -/
theorem mkdirsLoop_blocked (hpath : path.bytes ≠ []) (hpos : Position path.bytes before rest cs)
    (hw : t.walk (sys.start path.bytes) cs = .ok p) (hp : t.IsDir p) {c : Component Name}
    (hname : components (nameOf rest) = [c]) (hc : ¬ t.Open sys.refuse (c.step p))
    {d : Denial {oserr : UInt32 // oserr ≠ 0 ∧ oserr ≠ eexist}}
    (hmk : t.mkdir sys.refuse (mode &&& ~~~sys.umask) (sys.start path.bytes) (cs ++ [c]) = .error d) (e : ErrState) :
    ∃ r e', mkdirsLoop sys path mode before rest t e = some ((r, t), e') ∧
      MkdirsEnds sys path.bytes e.frozen t p (components rest) (r, t) := by
  have hdir : ¬ t.DirAt (sys.start path.bytes) (cs ++ [c]) := fun hd =>
    hc (.inl ((FileTree.dirAt_iff (FileTree.walk_step hw hp)).1 hd))
  have hcomponents := hpos.components_path
  rw [hname] at hcomponents
  obtain ⟨hblockDir, hblockFile⟩ := FileTree.blocked_iff hw hp hc (components (tailOf rest))
  have hends {r : Int} (hr : r = 0 ↔ e.frozen = true ∨ t.FileAt (sys.start path.bytes) (components path.bytes)) :
      MkdirsEnds sys path.bytes e.frozen t p (components rest) (r, t) := by
    have hnone : ¬ t.DirAt (sys.start path.bytes) (components path.bytes) := by
      rw [hcomponents]
      exact FileTree.not_dirAt_append hdir _
    rw [components_cons hname]
    refine ⟨.refl _ t, ?_, ?_, by rw [hr, or_iff_right hnone]⟩
    · rw [hcomponents, ← hblockDir, List.append_assoc]
      rfl
    · rw [hcomponents, ← hblockFile, List.append_assoc]
      rfl
  obtain ⟨r, e', hrun, hr⟩ := mkdirsLoop_idles hpath hpos (hname ▸ hmk) (hname ▸ hdir) e fun sep more e₁ htail => by
    have hnext := hpos.next htail
    rw [hname] at hnext
    exact mkdirsLoop_stuck hpath hnext hmk hdir e₁
  exact ⟨r, e', hrun, hends hr⟩

/-- From a directory, the loop creates what can be created along the path. -/
theorem mkdirsLoop_ends (mode : UInt32) (hpath : path.bytes ≠ []) (hpos : Position path.bytes before rest cs)
    (hw : t.walk (sys.start path.bytes) cs = .ok p) (hp : t.IsDir p) (e : ErrState) :
    ∃ out e', mkdirsLoop sys path mode before rest t e = some (out, e') ∧
      MkdirsEnds sys path.bytes e.frozen t p (components rest) out := by
  induction hn : rest.length using Nat.strong_induction_on generalizing before rest cs t p e with
  | _ n ih =>
    -- behind a directory at the end of the name
    have hon {t₁ : Tree F} {p₁ : List Name} {e₁ : ErrState}
        (hw₁ : t₁.walk (sys.start path.bytes) (cs ++ components (nameOf rest)) = .ok p₁) (hp₁ : t₁.IsDir p₁)
        (hfrozen : e₁.frozen = e.frozen) :
        ∃ out e', mkdirsOn sys path mode (before ++ nameOf rest) (tailOf rest) t₁ e₁ = some (out, e') ∧
          MkdirsEnds sys path.bytes e.frozen t₁ p₁ (components (tailOf rest)) out := by
      cases htail : tailOf rest with
      | nil =>
        have hcomponents := hpos.components_path
        rw [htail, components_nil, List.append_nil] at hcomponents
        rw [components_nil]
        exact ⟨_, e₁, rfl, .done hcomponents hw₁ hp₁ e.frozen⟩
      | cons sep more =>
        have hnext := hpos.next htail
        cases tail_sep htail
        rw [components_sep, ← hfrozen]
        exact ih _ (hn ▸ behind_sep_lt htail) hnext hw₁ hp₁ e₁ rfl
    by_cases hempty : nameOf rest = []
    · have hnone : components (nameOf rest) = [] := by rw [hempty, components_nil]
      rw [components_rest, hnone, List.nil_append]
      rw [hnone, List.append_nil] at hon
      have hmk := FileTree.mkdir_exist sys.refuse (mode &&& ~~~sys.umask) hw hp.ne_none
      rw [← List.append_nil cs, ← hnone] at hmk
      obtain ⟨e₁, hfrozen, hrun⟩ := (mkdirsLoop_kept hpos hpath hmk e).1 (.inr rfl)
      rw [hrun]
      exact hon hw hp hfrozen
    · have hname : components (nameOf rest) = [component (nameOf rest)] := by
        rw [components_name (sep_not_mem_name rest), if_neg hempty]
      generalize component (nameOf rest) = c at hname
      rw [hname] at hon
      have hrest := components_cons hname
      have hwalk : t.walk (sys.start path.bytes) (cs ++ [c]) = .ok (c.step p) := FileTree.walk_step hw hp
      rcases FileTree.mkdir_step sys.refuse (mode &&& ~~~sys.umask) hw hp c with
        ⟨hthere, hmk⟩ | ⟨reason, hnone, hrefuse, hmk⟩ | ⟨t', hnone, hrefuse, hmk, hdir, hgrows⟩
      · by_cases hd : t.IsDir (c.step p)
        · obtain ⟨e₁, hfrozen, hrun⟩ := (mkdirsLoop_kept hpos hpath (hname ▸ hmk) e).1 (.inr rfl)
          obtain ⟨out, e', hout, hends⟩ := hon hwalk hd hfrozen
          exact ⟨out, e', hrun.trans hout, hrest ▸ hends.through hp (.refl _ t) (fun _ => Iff.rfl) fun _ _ => Iff.rfl⟩
        · have hblocked : ¬ t.Open sys.refuse (c.step p) := fun ho => ho.elim hd fun h => hthere h.1
          obtain ⟨r, e', hrun, hends⟩ := mkdirsLoop_blocked hpath hpos hw hp hname hblocked hmk e
          exact ⟨_, e', hrun, hends⟩
      · have hblocked : ¬ t.Open sys.refuse (c.step p) := by
          rintro (hd | ⟨-, h⟩)
          · exact hd.ne_none hnone
          · rw [hrefuse] at h
            cases h
        obtain ⟨r, e', hrun, hends⟩ := mkdirsLoop_blocked hpath hpos hw hp hname hblocked hmk e
        exact ⟨_, e', hrun, hends⟩
      · have hS : ∀ q, q = c.step p → sys.refuse q = none := fun q hq => hq ▸ hrefuse
        have halong : ∀ q, q = c.step p → Along sys path.bytes q := by
          rintro q rfl
          refine ⟨cs ++ [c], ?_, FileTree.walk_follow hwalk⟩
          rw [hpos.components_path, hname]
          exact List.prefix_append _ _
        obtain ⟨out, e', hout, hends⟩ := hon (hgrows.walk hwalk) hdir rfl
        exact ⟨out, e', (mkdirsLoop_made hpos hpath (hname ▸ hmk) e).trans hout,
          hrest ▸ hends.through hp (hgrows.mono halong) (fun _ => hgrows.open_iff hS) fun _ _ => hgrows.reaches_iff hS⟩

/-- `pcl_mkdirs` is its loop, from the start of the path or behind the root. -/
theorem pclMkdirs_loop (sys : MkdirSystem) (t : Tree F) (hlen : path.strlen < mkdirsBuf) (mode : UInt32) (e : ErrState) :
    ∃ before rest, Position path.bytes before rest [] ∧
      pclMkdirs sys t path mode e = mkdirsLoop sys path mode before rest t e := by
  have hfit : path.strlen < (List.replicate mkdirsBuf (0 : UInt8)).length := by rwa [List.length_replicate]
  obtain ⟨out, hcopy, htext⟩ := strncpy_copies hfit e
  unfold pclMkdirs
  simp only [ErrM.bind_run, hcopy, Option.bind_some, htext]
  cases hbytes : path.bytes with
  | nil => exact ⟨[], [], ⟨rfl, fun _ => rfl, .inr (by simp)⟩, rfl⟩
  | cons c rest =>
    by_cases hc : c = pathSep
    · simp only [if_pos hc]
      refine ⟨[c], rest, ⟨rfl, fun s => ?_, .inl (List.cons_ne_nil _ _)⟩, rfl⟩
      rw [hc]
      exact components_sep s
    · simp only [if_neg hc]
      exact ⟨[], c :: rest, ⟨rfl, fun _ => rfl, .inr (by simpa using hc)⟩, rfl⟩

end

/-! ### `pcl_mkdirs` -/

section
variable {F : Type} (sys : MkdirSystem) (t : Tree F) (path : CStr)

/-- When it reports success the path names a directory, and only directories along the path were added. -/
def MkdirsMeets (mode : UInt32) (e : ErrState) : Prop :=
  ∃ r t' e', pclMkdirs sys t path mode e = some ((r, t'), e') ∧ (r = 0 → NamesDir sys t' path.bytes) ∧
    FileTree.Grows (Along sys path.bytes) t t'

/-- All that the path passes, and its end, is a directory or can be created. -/
def Mkdirable : Prop :=
  path.bytes ≠ [] ∧ t.IsDir (sys.start path.bytes) ∧
    t.Reaches sys.refuse (sys.start path.bytes) (components path.bytes) ∧
    t.Open sys.refuse (FileTree.follow (sys.start path.bytes) (components path.bytes))

/-- All that the path passes is a directory or can be created, and at its end is a regular file. -/
def EndsInFile : Prop :=
  t.IsDir (sys.start path.bytes) ∧ t.Reaches sys.refuse (sys.start path.bytes) (components path.bytes) ∧
    t.IsFile (FileTree.follow (sys.start path.bytes) (components path.bytes))

variable {sys t path}

theorem components_ne_nil {s : List UInt8} (hs : s ≠ []) (hhead : s.head? ≠ some pathSep) : components s ≠ [] := by
  have hname : nameOf s ≠ [] := by
    cases s with
    | nil => exact absurd rfl hs
    | cons c s =>
      have hc : c ≠ pathSep := by simpa using hhead
      unfold nameOf
      simp [hc]
  rw [components_rest, components_name (sep_not_mem_name s), if_neg hname]
  simp

/-- What is at the end of a nonempty path, and what is reported. -/
theorem pclMkdirs_ends (sys : MkdirSystem) (t : Tree F) {path : CStr} (hlen : path.strlen < mkdirsBuf)
    (hpath : path.bytes ≠ []) (mode : UInt32) (e : ErrState) :
    ∃ r t' e', pclMkdirs sys t path mode e = some ((r, t'), e') ∧ FileTree.Grows (Along sys path.bytes) t t' ∧
      (NamesDir sys t' path.bytes ↔ Mkdirable sys t path) ∧
      (r = 0 ↔ e.frozen = true ∨ Mkdirable sys t path ∨ EndsInFile sys t path) := by
  obtain ⟨before, rest, hpos, hrun⟩ := pclMkdirs_loop sys t hlen mode e
  rw [hrun]
  unfold NamesDir Mkdirable EndsInFile
  have hcomponents : components path.bytes = components rest := by rw [← hpos.text, hpos.closed]; rfl
  by_cases hstart : t.IsDir (sys.start path.bytes)
  · obtain ⟨⟨r, t'⟩, e', hloop, hends⟩ := mkdirsLoop_ends mode hpath hpos rfl hstart e
    refine ⟨r, t', e', hloop, hends.grows, ?_, ?_⟩
    · rw [and_iff_right hpath, hends.dir_iff, and_iff_right hpath, and_iff_right hstart, hcomponents]
    · rw [hends.result_iff, hends.dir_iff, hends.file_iff, and_iff_right hpath, and_iff_right hstart, and_iff_right hstart,
        hcomponents]
  · have hdir : ¬ t.DirAt (sys.start path.bytes) [] := fun ⟨_, hw, hd⟩ => by
      cases hw
      exact hstart hd
    have hhead : path.bytes.head? ≠ some pathSep := fun h => by
      unfold MkdirSystem.start at hstart
      rw [if_pos h] at hstart
      exact hstart t.root
    have hnodir : ¬ t.DirAt (sys.start path.bytes) (components path.bytes) := FileTree.not_dirAt_append hdir _
    have hnofile : ¬ t.FileAt (sys.start path.bytes) (components path.bytes) := fun h =>
      components_ne_nil hpath hhead ((FileTree.fileAt_append hdir).1 h).1
    obtain ⟨d, hmk⟩ := FileTree.mkdir_start t sys.refuse (mode &&& ~~~sys.umask) (sys.start path.bytes)
    obtain ⟨r, e', hloop, hr⟩ := mkdirsLoop_stuck hpath hpos hmk hdir e
    refine ⟨r, t, e', hloop, .refl _ t, ?_, ?_⟩
    · exact iff_of_false (fun h => hnodir h.2) fun h => hstart h.2.1
    · rw [hr, or_iff_left hnofile, or_iff_left]
      exact fun h => h.elim (fun h => hstart h.2.1) fun h => hstart h.1

/-- An empty path is refused. -/
theorem pclMkdirs_empty (sys : MkdirSystem) (t : Tree F) (hlen : path.strlen < mkdirsBuf) (hpath : path.bytes = [])
    (mode : UInt32) (e : ErrState) :
    ∃ r e', pclMkdirs sys t path mode e = some ((r, t), e') ∧ (r = 0 ↔ e.frozen = true) := by
  obtain ⟨before, rest, hpos, hrun⟩ := pclMkdirs_loop sys t hlen mode e
  obtain ⟨rfl, rfl⟩ := List.append_eq_nil_iff.1 (hpos.text.trans hpath)
  have hsys : sysMkdir sys t (.ofBytes ([] ++ nameOf [])) mode = .error enoent := if_pos rfl
  obtain ⟨hgoes, hstops⟩ := mkdirsLoop_fails path hsys (by decide) e
  rw [hrun]
  have hne : enoent ≠ eexist := by decide
  rw [or_iff_left hne] at hgoes hstops
  by_cases hf : e.frozen = true
  · obtain ⟨e', -, hloop⟩ := hgoes hf
    exact ⟨0, e', hloop, iff_of_true rfl hf⟩
  · obtain ⟨r, e', hr, hloop⟩ := hstops hf
    exact ⟨r, e', hloop, iff_of_false hr hf⟩

/-- A success is one just where the path can be made, or, with an error state that is not frozen, does not end in a regular
file. -/
theorem mkdirs_meets_iff (sys : MkdirSystem) (t : Tree F) (path : CStr) (hlen : path.strlen < mkdirsBuf) (mode : UInt32)
    (e : ErrState) :
    MkdirsMeets sys t path mode e ↔ Mkdirable sys t path ∨ e.frozen = false ∧ ¬ EndsInFile sys t path := by
  unfold MkdirsMeets
  by_cases hpath : path.bytes = []
  · obtain ⟨r, e', hrun, hr⟩ := pclMkdirs_empty sys t hlen hpath mode e
    have hno : ¬ Mkdirable sys t path := fun h => h.1 hpath
    have hfile : ¬ EndsInFile sys t path := by
      rintro ⟨hd, -, hf⟩
      rw [hpath, components_nil] at hf
      rw [hpath] at hd
      exact hd.not_isFile hf
    rw [or_iff_right hno, and_iff_left hfile, hrun]
    constructor
    · rintro ⟨_, _, _, heq, hsuccess, -⟩
      cases heq
      exact Bool.eq_false_iff.2 fun hf => (hsuccess (hr.2 hf)).1 hpath
    · intro hf
      exact ⟨r, t, e', rfl, fun h0 => absurd (hr.1 h0) (by simp [hf]), .refl _ t⟩
  · obtain ⟨r, t', e', hrun, hgrows, hnames, hr⟩ := pclMkdirs_ends sys t hlen hpath mode e
    rw [hrun]
    constructor
    · rintro ⟨_, _, _, heq, hsuccess, -⟩
      cases heq
      by_cases hmk : Mkdirable sys t path
      · exact .inl hmk
      · have hfails : r ≠ 0 := fun h0 => hmk (hnames.1 (hsuccess h0))
        have hcauses := fun h => hfails (hr.2 h)
        exact .inr ⟨Bool.eq_false_iff.2 fun hf => hcauses (.inl hf), fun hf => hcauses (.inr (.inr hf))⟩
    · intro h
      refine ⟨r, t', e', rfl, fun h0 => hnames.2 ?_, hgrows⟩
      rcases h with hmk | ⟨hf, hfile⟩
      · exact hmk
      · rcases hr.1 h0 with hfrozen | hmk | hends
        · rw [hf] at hfrozen
          cases hfrozen
        · exact hmk
        · exact absurd hends hfile

end

/-- A process in the root directory that is refused nothing. -/
def rootProcess : MkdirSystem where
  os2pcl oserr := if oserr = eexist then eExist else if oserr = 0 then eOkay else 54
  umask := 0x12
  cwd := []
  refuse _ := none
  exist_iff oserr := by
    split
    · simp_all
    · split <;> simp_all [eExist, eOkay]
  okay_iff oserr := by
    split
    · next h =>
      rw [h]
      decide
    · split <;> simp_all [eOkay]

/-- The root directory with the regular file "f". -/
def oneFile : Tree Unit where
  node p := if p = [] then some (.dir 0x1ED) else if p = [txt "f"] then some (.file ()) else none
  root := ⟨0x1ED, rfl⟩
  closed n p h := by
    rw [if_neg (List.cons_ne_nil n p)] at h
    split at h
    · next hp => exact ⟨0x1ED, if_pos (List.cons.inj hp).2⟩
    · exact absurd rfl h

/-- A directory beside the file. -/
theorem mkdirs_meets_iff_new : (CStr.lit "d").strlen < mkdirsBuf ∧
    MkdirsMeets rootProcess oneFile (.lit "d") 0x1FF .zero := by
  have hcomponents : components (CStr.lit "d").bytes = [.name (txt "d")] := by
    rw [components_name (by decide)]
    rfl
  refine ⟨by decide, (mkdirs_meets_iff rootProcess oneFile (.lit "d") (by decide) 0x1FF .zero).2 (.inl ?_)⟩
  unfold Mkdirable
  rw [hcomponents]
  exact ⟨by decide, oneFile.root, ⟨.inl oneFile.root, trivial⟩, .inr ⟨by decide, rfl⟩⟩

/-- The file itself. -/
theorem mkdirs_accepts_file : (CStr.lit "f").strlen < mkdirsBuf ∧
    ¬ MkdirsMeets rootProcess oneFile (.lit "f") 0x1FF .zero := by
  have hcomponents : components (CStr.lit "f").bytes = [.name (txt "f")] := by
    rw [components_name (by decide)]
    rfl
  have hlen : (CStr.lit "f").strlen < mkdirsBuf := by decide
  have hfile : oneFile.IsFile [txt "f"] := ⟨(), by decide⟩
  have hends : EndsInFile rootProcess oneFile (.lit "f") := by
    unfold EndsInFile
    rw [hcomponents]
    exact ⟨oneFile.root, ⟨.inl oneFile.root, trivial⟩, hfile⟩
  have hmk : ¬ Mkdirable rootProcess oneFile (.lit "f") := by
    unfold Mkdirable
    rw [hcomponents]
    rintro ⟨-, -, -, hd | ⟨hnone, -⟩⟩
    · exact hd.not_isFile hfile
    · exact hfile.ne_none hnone
  obtain ⟨r, t', e', hrun, -, hnames, hr⟩ :=
    pclMkdirs_ends rootProcess oneFile hlen (by decide) 0x1FF .zero
  refine ⟨hlen, ?_⟩
  rintro ⟨_, _, _, hrun', hsuccess, -⟩
  cases hrun.symm.trans hrun'
  exact hmk (hnames.1 (hsuccess (hr.2 (.inr (.inr hends)))))

end Pcl

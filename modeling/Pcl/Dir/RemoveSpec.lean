import Pcl.Dir.Remove

/-!
# The calls of a removal

What `pcl_opendir`, `pcl_readdir`, `pcl_unlink` and `pcl_rmdir` do, each with what makes it fail, and one turn of the loop
of `rmdir_r`.
-/

namespace Pcl
open FileTree (Component Shrinks)

variable {sys : DirSystem} {d d' : Disk} {path full : CStr} {p q : List Name} {n : Name} {e e' : ErrState}
  {oserr : UInt32}

/-! ### Errors -/

/-- An error was set, unless the state is frozen. -/
structure ErrSet (e e' : ErrState) : Prop where
  frozen : e'.frozen = e.frozen
  err : e.frozen = false → e'.err ≠ eOkay

theorem DirSystem.ne_okay (sys : DirSystem) (h : oserr ≠ 0) : sys.os2pcl oserr ≠ eOkay := fun herr =>
  h ((sys.okay_iff _).1 herr)

theorem errVset_failing (e : ErrState) (l : Loc) {err : Int} (herr : err ≠ eOkay) (oserr : UInt32) (msg : Option CStr) :
    ∃ r e', errVset l err oserr msg e = some (r, e') ∧ ErrSet e e' ∧ (e.frozen = false → r = -1 ∧ e'.err = err) := by
  refine ⟨_, _, errVset_run e l err oserr msg herr, ⟨raised_frozen .., fun he => ?_⟩,
    fun he => ⟨by rw [he]; rfl, raised_err _ _ _ _ _ he⟩⟩
  rw [raised_err _ _ _ _ _ he]
  exact herr

theorem trc_failing (l : Loc) (h : ErrSet e e') :
    ∃ r e'', trc l e' = some (r, e'') ∧ ErrSet e e'' ∧ (e.frozen = false → r = -1) := by
  refine ⟨_, _, trc_run e' l, ⟨(traced_frozen ..).trans h.frozen, fun he => ?_⟩, fun he => ?_⟩
  · rw [traced_err]
    exact h.err he
  · rw [h.frozen, he]
    simp [h.err he]

/-! ### Paths -/

theorem ProperName.component (hn : ProperName n) : component n = .name n := by
  unfold Pcl.component
  rw [if_neg hn.ne_here, if_neg hn.ne_up]

theorem components_entry (hn : ProperName n) (hfull : full.bytes = path.bytes ++ [pathSep] ++ n) :
    components full.bytes = components path.bytes ++ [.name n] := by
  rw [hfull, List.append_assoc, List.singleton_append, components_append, components_name hn.no_sep, if_neg hn.ne_nil,
    hn.component]

theorem start_entry (hpath : path.bytes ≠ []) (hfull : full.bytes = path.bytes ++ [pathSep] ++ n) :
    sys.start full.bytes = sys.start path.bytes := by
  unfold DirSystem.start
  rw [hfull, List.append_assoc, List.head?_append_of_ne_nil _ hpath]

theorem leads_entry {t : Tree FileKind} (hn : ProperName n) (hpath : path.bytes ≠ [])
    (hfull : full.bytes = path.bytes ++ [pathSep] ++ n) (hq : leads sys t path.bytes = .ok q) (hd : t.IsDir (n :: q)) :
    leads sys t full.bytes = .ok (n :: q) := by
  unfold leads at hq ⊢
  rw [components_entry hn hfull, start_entry hpath hfull]
  exact FileTree.resolve_child hq hd

theorem strlen_entry (hfull : full.bytes = path.bytes ++ [pathSep] ++ n) : full.strlen = path.strlen + 1 + n.length := by
  unfold CStr.strlen
  rw [hfull, List.length_append, List.length_append, List.length_singleton]

/-- The name of an entry fits behind a path that was opened. -/
theorem appendEntry_run {name : CStr} (hshort : path.strlen < maxPath) (hn : ProperName name.bytes) (e : ErrState) :
    ∃ full : CStr, appendEntry path name e = some (full, e) ∧ full.bytes = path.bytes ++ [pathSep] ++ name.bytes := by
  have hroom : name.strlen < (List.replicate (rmdirBuf - path.strlen - 1) (0 : UInt8)).length := by
    have hfits := hn.fits
    rw [List.length_replicate]
    unfold rmdirBuf maxPath CStr.strlen at *
    omega
  obtain ⟨out, hrun, hout⟩ := strncpy_copies hroom e
  have hlen : out ≠ [] := by
    rintro rfl
    exact hn.ne_nil (hout.symm.trans rfl)
  unfold appendEntry
  rw [ErrM.bind_run, hrun, Option.bind_some]
  cases out with
  | nil => exact absurd rfl hlen
  | cons b buf =>
    refine ⟨_, rfl, ?_⟩
    -- there is no NUL in front of the name
    have hnul : (0 : UInt8) ∉ path.bytes ++ [pathSep] := by
      rw [List.mem_append, List.mem_singleton]
      rintro (h | h)
      · exact path.nul_free h
      · exact absurd h (by decide)
    rw [← hout]
    unfold CStr.ofBytes
    simp only
    rw [List.takeWhile_append_of_pos]
    intro b hb
    simpa using fun h0 : b = 0 => hnul (h0 ▸ hb)

/-! ### Calls of the system -/

theorem sysParent_ok {c : Component Name} (h : sysParent sys d path = .ok (p, c)) :
    path.bytes ≠ [] ∧ path.strlen < maxPath ∧ (components path.bytes).getLast? = some c ∧
      d.resolve FileKind.target maxLinks (sys.start path.bytes) (components path.bytes).dropLast = .ok p ∧ d.IsDir p := by
  unfold sysParent at h
  split at h
  · cases h
  · next hne =>
    split at h
    · cases h
    · next hshort =>
      split at h
      · cases h
      · next c' hc =>
        split at h
        · cases h
        · next p' hp =>
          split at h
          · cases h
          · cases h
          · next m hm =>
            cases h
            exact ⟨hne, by omega, hc, hp, m, hm⟩

theorem sysParent_run {c : Component Name} (hne : path.bytes ≠ []) (hshort : path.strlen < maxPath)
    (hc : (components path.bytes).getLast? = some c)
    (hp : d.resolve FileKind.target maxLinks (sys.start path.bytes) (components path.bytes).dropLast = .ok p)
    (hd : d.IsDir p) : sysParent sys d path = .ok (p, c) := by
  obtain ⟨m, hm⟩ := hd
  unfold sysParent
  rw [if_neg hne, if_neg (Nat.not_le.2 hshort), hc]
  simp only [hp, hm]

theorem sysUnlink_ok (h : sysUnlink sys d path = .ok d') :
    ∃ n p hnil, d' = d.remove n p hnil ∧ sysParent sys d path = .ok (p, .name n) ∧ d.IsFile (n :: p) ∧
      sys.refuse (n :: p) = none := by
  unfold sysUnlink at h
  split at h
  · cases h
  · next p n hp =>
    split at h
    · cases h
    · cases h
    · next f hf =>
      split at h
      · cases h
      · split at h
        · cases h
        · next hrefuse =>
          split at h
          · next hnil =>
            cases h
            exact ⟨n, p, hnil, rfl, hp, ⟨f, hf⟩, hrefuse⟩
          · cases h
  · cases h

theorem sysRmdir_ok (h : sysRmdir sys d path = .ok d') :
    ∃ n p hnil, d' = d.remove n p hnil ∧ sysParent sys d path = .ok (p, .name n) ∧ d.IsDir (n :: p) ∧
      sys.refuse (n :: p) = none := by
  unfold sysRmdir at h
  split at h
  · cases h
  · cases h
  · cases h
  · next p n hp =>
    split at h
    · cases h
    · cases h
    · next m hm =>
      split at h
      · cases h
      · next hrefuse =>
        split at h
        · next hnil =>
          cases h
          exact ⟨n, p, hnil, rfl, hp, ⟨m, hm⟩, hrefuse⟩
        · cases h

theorem astrayErrno_ne (a : FileTree.Astray) : astrayErrno a ≠ 0 := by
  unfold astrayErrno
  split <;> decide

theorem sysParent_errno (h : sysParent sys d path = .error oserr) : oserr ≠ 0 := by
  unfold sysParent at h
  split at h
  · cases h; decide
  · split at h
    · cases h; decide
    · split at h
      · cases h; decide
      · split at h
        · cases h; exact astrayErrno_ne _
        · split at h
          · cases h; decide
          · cases h; decide
          · cases h

theorem sysUnlink_errno (h : sysUnlink sys d path = .error oserr) : oserr ≠ 0 := by
  unfold sysUnlink at h
  split at h
  · next herr =>
    cases h
    exact sysParent_errno herr
  · split at h
    · cases h; decide
    · cases h; decide
    · split at h
      · cases h; decide
      · split at h
        · next oserr _ =>
          cases h
          exact oserr.2
        · split at h
          · cases h
          · cases h; decide
  · cases h; decide

theorem sysRmdir_errno (h : sysRmdir sys d path = .error oserr) : oserr ≠ 0 := by
  unfold sysRmdir at h
  split at h
  · next herr =>
    cases h
    exact sysParent_errno herr
  · cases h; decide
  · cases h; decide
  · split at h
    · cases h; decide
    · cases h; decide
    · split at h
      · next oserr _ =>
        cases h
        exact oserr.2
      · split at h
        · cases h
        · cases h; decide

theorem file_names (h : d.IsFile p) : d.names p = [] := by
  refine Volume.names_eq_nil_iff.2 fun n => Classical.byContradiction fun hn => ?_
  obtain ⟨m, hm⟩ := d.closed n p hn
  obtain ⟨f, hf⟩ := h
  rw [hf] at hm
  cases hm

/-- Removing an entry of a directory. -/
theorem sysUnlink_entry (hn : ProperName n) (hpath : path.bytes ≠ []) (hfull : full.bytes = path.bytes ++ [pathSep] ++ n)
    (h : sysUnlink sys d full = .ok d') :
    ∃ p hnil, leads sys d.toFileTree path.bytes = .ok p ∧ d.IsDir p ∧ d' = d.remove n p hnil ∧ d.IsFile (n :: p) ∧
      full.strlen < maxPath ∧ sys.refuse (n :: p) = none := by
  obtain ⟨n', p, hnil, rfl, hp, hf, hrefuse⟩ := sysUnlink_ok h
  obtain ⟨-, hshort, hlast, hres, hd⟩ := sysParent_ok hp
  rw [components_entry hn hfull, List.getLast?_concat] at hlast
  rw [components_entry hn hfull, List.dropLast_concat, start_entry hpath hfull] at hres
  cases hlast
  exact ⟨p, hnil, hres, hd, rfl, hf, hshort, hrefuse⟩

theorem sysUnlink_removes (hn : ProperName n) (hpath : path.bytes ≠ [])
    (hfull : full.bytes = path.bytes ++ [pathSep] ++ n)
    (hq : leads sys d.toFileTree path.bytes = .ok q) (hf : d.IsFile (n :: q)) (hshort : full.strlen < maxPath)
    (hrefuse : sys.refuse (n :: q) = none) : ∃ d', sysUnlink sys d full = .ok d' := by
  have hparent : sysParent sys d full = .ok (q, .name n) := by
    refine sysParent_run (by simp [hfull]) hshort ?_ ?_ (d.closed n q hf.ne_none)
    · rw [components_entry hn hfull, List.getLast?_concat]
    · rw [components_entry hn hfull, List.dropLast_concat, start_entry hpath hfull]
      exact hq
  have hsep : full.bytes.getLast? ≠ some pathSep := by
    rw [hfull, List.getLast?_append_of_ne_nil _ hn.ne_nil]
    exact fun h => hn.no_sep (List.mem_of_getLast? h)
  obtain ⟨f, hnode⟩ := id hf
  refine ⟨d.remove n q (file_names hf), ?_⟩
  unfold sysUnlink
  simp only [hparent, hnode, if_neg hsep, hrefuse, dif_pos (file_names hf)]

/-! ### The calls -/

theorem pclUnlink_run (sys : DirSystem) (d : Disk) (path : CStr) (e : ErrState) :
    (∃ d', sysUnlink sys d path = .ok d' ∧ sys.pclUnlink d path e = some ((0, d'), e)) ∨
    ((¬ ∃ d', sysUnlink sys d path = .ok d') ∧ ∃ r e', sys.pclUnlink d path e = some ((r, d), e') ∧ ErrSet e e' ∧
      (e.frozen = false → r = -1)) := by
  unfold DirSystem.pclUnlink
  cases h : sysUnlink sys d path with
  | ok d' => exact .inl ⟨d', rfl, rfl⟩
  | error oserr =>
    obtain ⟨r, e', hrun, hfails, hr⟩ := errVset_failing e (loc "unlink.c" "pcl_unlink" 60)
      (sys.ne_okay (sysUnlink_errno h)) oserr none
    refine .inr ⟨by simp, r, e', ?_, hfails, fun he => (hr he).1⟩
    simp only [ErrM.bind_run, hrun, Option.bind_some, ErrM.pure_run]

theorem pclRmdir_run (sys : DirSystem) (d : Disk) (path : CStr) (e : ErrState) :
    (∃ d', sysRmdir sys d path = .ok d' ∧ pclRmdir sys d path e = some ((0, d'), e)) ∨
    ((¬ ∃ d', sysRmdir sys d path = .ok d') ∧ ∃ r e', pclRmdir sys d path e = some ((r, d), e') ∧ ErrSet e e' ∧
      (e.frozen = false → r = -1)) := by
  unfold pclRmdir
  by_cases hne : path.bytes = []
  · obtain ⟨r, e', hrun, hfails, hr⟩ := errVset_failing e (loc "rmdir.c" "pcl_rmdir" 39)
      (show eInval ≠ eOkay by decide) 0 none
    have hno : ¬ ∃ d', sysRmdir sys d path = .ok d' := by
      rintro ⟨d', hd'⟩
      obtain ⟨n, p, -, -, hp, -⟩ := sysRmdir_ok hd'
      exact (sysParent_ok hp).1 hne
    refine .inr ⟨hno, r, e', ?_, hfails, fun he => (hr he).1⟩
    simp only [if_pos hne, badArg, setErr, ErrM.bind_run, hrun, Option.bind_some, ErrM.pure_run]
  · cases h : sysRmdir sys d path with
    | ok d' =>
      refine .inl ⟨d', rfl, ?_⟩
      rw [if_neg hne]
      rfl
    | error oserr =>
      obtain ⟨r, e', hrun, hfails, hr⟩ := errVset_failing e (loc "rmdir.c" "pcl_rmdir" 56)
        (sys.ne_okay (sysRmdir_errno h)) oserr none
      refine .inr ⟨by simp, r, e', ?_, hfails, fun he => (hr he).1⟩
      simp only [if_neg hne, ErrM.bind_run, hrun, Option.bind_some, ErrM.pure_run]

/-- The path is to a directory that can be opened, and this is what can be read. -/
structure Opens (sys : DirSystem) (d : Disk) (path : CStr) (p : List Name) (dir : DirStream) : Prop where
  ne_nil : path.bytes ≠ []
  short : path.strlen < maxPath
  leads : leads sys d.toFileTree path.bytes = .ok p
  fits : locationLength p < maxPath
  found : sysOpendir sys d p = .ok dir

theorem sysOpendir_errno (h : sysOpendir sys d p = .error oserr) : oserr ≠ 0 := by
  unfold sysOpendir at h
  split at h
  · cases h; decide
  · cases h; decide
  · split at h
    · next reason _ =>
      cases h
      exact reason.2
    · cases h
    · cases h

theorem sysOpendir_isDir {dir : DirStream} (h : sysOpendir sys d p = .ok dir) : d.IsDir p := by
  unfold sysOpendir at h
  split at h
  · cases h
  · cases h
  · next m hm => exact ⟨m, hm⟩

theorem sysRealpath_ok : sysRealpath sys d path = .ok p ↔ path.bytes ≠ [] ∧ path.strlen < maxPath ∧
    leads sys d.toFileTree path.bytes = .ok p ∧ d.node p ≠ none ∧ locationLength p < maxPath := by
  unfold sysRealpath
  constructor
  · intro h
    split at h
    · cases h
    · next hne =>
      split at h
      · cases h
      · next hshort =>
        split at h
        · cases h
        · next p' hp =>
          split at h
          · cases h
          · next hthere =>
            split at h
            · cases h
            · next hfits =>
              cases h
              exact ⟨hne, by omega, hp, hthere, by omega⟩
  · rintro ⟨hne, hshort, hp, hthere, hfits⟩
    rw [if_neg hne, if_neg (Nat.not_le.2 hshort), hp]
    simp only
    rw [if_neg hthere, if_neg (Nat.not_le.2 hfits)]

theorem sysRealpath_errno (h : sysRealpath sys d path = .error oserr) : oserr ≠ 0 := by
  unfold sysRealpath at h
  split at h
  · cases h; decide
  · split at h
    · cases h; decide
    · split at h
      · cases h; exact astrayErrno_ne _
      · split at h
        · cases h; decide
        · split at h
          · cases h; decide
          · cases h

theorem pclOpendir_run (sys : DirSystem) (d : Disk) (path : CStr) (e : ErrState) :
    (∃ p dir, Opens sys d path p dir ∧ pclOpendir sys d path e = some (some dir, e)) ∨
    ((¬ ∃ p dir, Opens sys d path p dir) ∧ ∃ e', pclOpendir sys d path e = some (none, e') ∧ ErrSet e e') := by
  unfold pclOpendir
  by_cases hne : path.bytes = []
  · obtain ⟨r, e', hrun, hfails, -⟩ := errVset_failing e (loc "opendir.c" "pcl_opendir" 45)
      (show eInval ≠ eOkay by decide) 0
      none
    refine .inr ⟨fun ⟨p, dir, h⟩ => h.ne_nil hne, e', ?_, hfails⟩
    simp only [if_pos hne, setErrNull, setErr, ErrM.bind_run, hrun, Option.bind_some, ErrM.pure_run]
  · rw [if_neg hne]
    unfold pclRealpath
    rw [ErrM.bind_run, if_neg hne]
    cases hp : sysRealpath sys d path with
    | error oserr =>
      obtain ⟨r, e₁, hrun, hfails, -⟩ := errVset_failing e (loc "realpath.c" "pcl_realpath" 74)
        (sys.ne_okay (sysRealpath_errno hp)) oserr none
      obtain ⟨r', e', htrc, hfails', -⟩ := trc_failing (loc "opendir.c" "pcl_opendir" 51) hfails
      refine .inr ⟨?_, e', ?_, hfails'⟩
      · rintro ⟨p, dir, h⟩
        have hok := sysRealpath_ok.2 ⟨h.ne_nil, h.short, h.leads, (sysOpendir_isDir h.found).ne_none, h.fits⟩
        rw [hp] at hok
        cases hok
      · simp only [ErrM.bind_run, hrun, Option.bind_some, ErrM.pure_run, trcNull, htrc]
    | ok p =>
      obtain ⟨-, hshort, hleads, -, hfits⟩ := sysRealpath_ok.1 hp
      simp only [ErrM.pure_run, Option.bind_some]
      cases hdir : sysOpendir sys d p with
      | ok dir => exact .inl ⟨p, dir, ⟨hne, hshort, hleads, hfits, hdir⟩, rfl⟩
      | error oserr =>
        obtain ⟨r, e', hrun, hfails, -⟩ := errVset_failing e (loc "opendir.c" "pcl_opendir" 90)
          (sys.ne_okay (sysOpendir_errno hdir)) oserr (some (.ofBytes (txt "Cannot open directory: " ++ path.bytes)))
        refine .inr ⟨?_, e', ?_, hfails⟩
        · rintro ⟨p', dir, h⟩
          cases hleads.symm.trans h.leads
          have hok := h.found
          rw [hdir] at hok
          cases hok
        · simp only [ErrM.bind_run, hrun, Option.bind_some, ErrM.pure_run]

theorem Opens.run {dir : DirStream} (h : Opens sys d path p dir) (e : ErrState) :
    pclOpendir sys d path e = some (some dir, e) := by
  rcases pclOpendir_run sys d path e with ⟨p', dir', h', hrun⟩ | ⟨hno, -⟩
  · cases h.leads.symm.trans h'.leads
    cases h.found.symm.trans h'.found
    exact hrun
  · exact absurd ⟨p, dir, h⟩ hno

/-! ### One turn -/

theorem strncpy_strlen (dest : Option (List UInt8)) (src : CStr) {len : UInt64} (hlen : len.toNat = src.strlen) :
    strncpy dest (some src) len = strncpy dest (some src) 0 := by
  have hcount : (if len = 0 then src.strlen else len.toNat) = src.strlen := by rw [hlen, ite_self]
  unfold strncpy
  simp only [hcount, if_true]

theorem pclReaddir_end (sys : DirSystem) {dir : DirStream} (hrest : dir.rest.dropWhile isDots = []) (e : ErrState) :
    ∃ e', pclReaddir sys dir e = some ((none, ⟨[], dir.fails⟩), e') ∧ ErrSet e e' ∧
      (e.frozen = false → (e'.err = eNomore ↔ dir.fails = none)) := by
  unfold pclReaddir
  rw [hrest]
  cases hfails : dir.fails with
  | none =>
    obtain ⟨r, e', hrun, hfailing, herr⟩ := errVset_failing e (loc "readdir.c" "pcl_readdir" 148)
      (show eNomore ≠ eOkay by decide) 0 none
    refine ⟨e', ?_, hfailing, fun he => iff_of_true (herr he).2 rfl⟩
    simp only [setErr, ErrM.bind_run, hrun, Option.bind_some, ErrM.pure_run]
  | some oserr =>
    obtain ⟨r, e', hrun, hfailing, herr⟩ := errVset_failing e (loc "readdir.c" "pcl_readdir" 144)
      (sys.ne_okay oserr.2) oserr none
    refine ⟨e', ?_, hfailing, fun he => iff_of_false ?_ (by simp)⟩
    · simp only [ErrM.bind_run, hrun, Option.bind_some, ErrM.pure_run]
    · rw [(herr he).2]
      exact sys.ne_nomore _

theorem pclReaddir_entry (sys : DirSystem) {dir : DirStream} {type : DirentType} {rest : List (Name × DirentType)}
    (hn : ProperName n) (hrest : dir.rest.dropWhile isDots = (n, type) :: rest) (e : ErrState) :
    ∃ ent, pclReaddir sys dir e = some ((some ent, ⟨rest, dir.fails⟩), e) ∧ ent.type = type ∧ ent.name.bytes = n := by
  have hbytes : (CStr.ofBytes n).bytes = n := List.takeWhile_eq_self_iff.2 fun b hb => by
    simpa using fun h0 : b = 0 => hn.no_nul (h0 ▸ hb)
  have hfits := hn.fits
  have hlen : (UInt16.ofNat (CStr.ofBytes n).strlen).toUInt64.toNat = (CStr.ofBytes n).strlen := by
    unfold CStr.strlen
    rw [hbytes, UInt16.toNat_toUInt64, UInt16.toNat_ofNat']
    omega
  have hroom : (CStr.ofBytes n).strlen < (List.replicate 512 (0 : UInt8)).length := by
    unfold CStr.strlen
    rw [hbytes, List.length_replicate]
    omega
  obtain ⟨out, hrun, hout⟩ := strncpy_copies hroom e
  refine ⟨⟨type, .ofNat (CStr.ofBytes n).strlen, .ofBytes out⟩, ?_, rfl, hout.trans hbytes⟩
  unfold pclReaddir
  rw [hrest]
  simp only [strncpy_strlen _ _ hlen, ErrM.bind_run, hrun, Option.bind_some, ErrM.pure_run]
  rfl

/-- An entry that is not skipped has a proper name. -/
def Listed (rest : List (Name × DirentType)) : Prop := ∀ x ∈ rest, isDots x = false → ProperName x.1

theorem Listed.next {rest rest' : List (Name × DirentType)} {type : DirentType} (h : Listed rest)
    (hrest : rest.dropWhile isDots = (n, type) :: rest') : ProperName n ∧ Listed rest' := by
  have hsuffix : (n, type) :: rest' <:+ rest := hrest ▸ List.dropWhile_suffix _
  refine ⟨?_, fun x hx => h x (hsuffix.subset (List.mem_cons_of_mem _ hx))⟩
  refine h (n, type) (hsuffix.subset List.mem_cons_self) ?_
  have hne : rest.dropWhile isDots ≠ [] := by simp [hrest]
  have hhead := List.head_dropWhile_not isDots hne
  simpa [hrest] using hhead

theorem mem_of_dropWhile {rest rest' : List (Name × DirentType)} {x y : Name × DirentType}
    (hrest : rest.dropWhile isDots = y :: rest') (hx : x ∈ rest) (hdots : isDots x = false) : x = y ∨ x ∈ rest' := by
  rw [← List.takeWhile_append_dropWhile (p := isDots) (l := rest), hrest] at hx
  rcases List.mem_append.1 hx with h | h
  · have := List.mem_takeWhile_imp h
    rw [hdots] at this
    cases this
  · exact List.mem_cons.1 h

/-- One turn of the loop with an entry: it is removed in one of the two ways, and on goes the loop or it fails. -/
theorem rmdirLoop_entry (sys : DirSystem) (recurse : CStr → Disk → ErrM (Int × Disk)) {dir : DirStream}
    {type : DirentType} {rest : List (Name × DirentType)} (k : Nat) (hshort : path.strlen < maxPath) (hn : ProperName n)
    (hrest : dir.rest.dropWhile isDots = (n, type) :: rest) (d : Disk) (e : ErrState) :
    ∃ full : CStr, full.bytes = path.bytes ++ [pathSep] ++ n ∧
      rmdirLoop sys recurse path (k + 1) dir d e =
        ((if type = .dir then recurse full d else sys.pclUnlink d full) e).bind fun x =>
          if x.1.1 = 0 then rmdirLoop sys recurse path k ⟨rest, dir.fails⟩ x.1.2 x.2
          else (trc (loc "rmdir_r.c" "rmdir_r" (if type = .dir then 62 else 69)) x.2).map fun y =>
            ((some y.1, x.1.2), y.2) := by
  obtain ⟨ent, hread, rfl, rfl⟩ := pclReaddir_entry sys hn hrest e
  obtain ⟨full, happend, hfull⟩ := appendEntry_run hshort hn e
  refine ⟨full, hfull, ?_⟩
  rw [rmdirLoop]
  simp only [ErrM.bind_run, hread, Option.bind_some, happend]
  have hturn (line : Int) (x : (Int × Disk) × ErrState) :
      (if x.1.1 ≠ 0 then do
        let r ← trc (loc "rmdir_r.c" "rmdir_r" line)
        return (some r, x.1.2)
      else rmdirLoop sys recurse path k ⟨rest, dir.fails⟩ x.1.2) x.2 =
      if x.1.1 = 0 then rmdirLoop sys recurse path k ⟨rest, dir.fails⟩ x.1.2 x.2
      else (trc (loc "rmdir_r.c" "rmdir_r" line) x.2).map fun y => ((some y.1, x.1.2), y.2) := by
    by_cases hr : x.1.1 = 0
    · rw [if_pos hr, if_neg (not_not.2 hr)]
    · rw [if_neg hr, if_pos hr, ErrM.bind_run, trc_run]
      rfl
  by_cases htype : ent.type = .dir
  · simp only [if_pos htype, ErrM.bind_run, hturn]
  · simp only [if_neg htype, ErrM.bind_run, hturn]

theorem rmdirLoop_end (sys : DirSystem) (recurse : CStr → Disk → ErrM (Int × Disk)) {dir : DirStream} (k : Nat)
    (hrest : dir.rest.dropWhile isDots = []) (path : CStr) (d : Disk) (e : ErrState) :
    ∃ e', rmdirLoop sys recurse path (k + 1) dir d e = some ((none, d), e') ∧ ErrSet e e' ∧
      (e.frozen = false → (e'.err = eNomore ↔ dir.fails = none)) := by
  obtain ⟨e', hread, hfails, herr⟩ := pclReaddir_end sys hrest e
  refine ⟨e', ?_, hfails, herr⟩
  rw [rmdirLoop]
  simp only [ErrM.bind_run, hread, Option.bind_some, ErrM.pure_run]

theorem dropWhile_length {rest rest' : List (Name × DirentType)} {x : Name × DirentType} {k : Nat}
    (hk : rest.length < k + 1) (hrest : rest.dropWhile isDots = x :: rest') : rest'.length < k := by
  have hlen := (List.dropWhile_suffix isDots (l := rest)).length_le
  rw [hrest, List.length_cons] at hlen
  omega

end Pcl

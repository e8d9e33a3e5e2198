import Pcl.Dir.RemoveSpec

/-!
# What is removed

`rmdirR_only_below`: whatever goes wrong, `pcl_rmdir_r` removes nothing but what is in the directory that the path leads
to, and does not follow a link that it finds there. `rmdirR_removes`: it succeeds just where all of it can be removed, and
then all of it is gone and nothing else is.
-/

namespace Pcl
open FileTree (Component Shrinks)

variable {sys : DirSystem} {d d' : Disk} {path full : CStr} {p q : List Name} {n : Name} {e e' : ErrState}

/-! ### Nothing else is removed -/

/-- What is below a location. -/
def BelowDir (q p : List Name) : Prop := q <:+ p ∧ p ≠ q

theorem below_of_child {n : Name} (h : n :: q <:+ p) : BelowDir q p :=
  ⟨(List.suffix_cons n q).trans h, fun heq => FileTree.not_below_self n q (heq ▸ h)⟩

/-- What a call for `full` does at most, where the path is to `q`. -/
def StaysBelow (run : ErrM (Int × Disk)) (q : List Name) (d : Disk) : Prop :=
  ∀ e, ∃ r d' e', run e = some ((r, d'), e') ∧ Shrinks (q <:+ ·) d.toFileTree d'.toFileTree ∧ e'.frozen = e.frozen

theorem pclUnlink_stays (hn : ProperName n) (hpath : path.bytes ≠ []) (hfull : full.bytes = path.bytes ++ [pathSep] ++ n)
    (hleads : ∀ p, leads sys d.toFileTree path.bytes = .ok p → d.IsDir p → p = q) :
    StaysBelow (sys.pclUnlink d full) (n :: q) d := by
  intro e
  rcases pclUnlink_run sys d full e with ⟨d', hok, hrun⟩ | ⟨-, r, e', hrun, hfails, -⟩
  · obtain ⟨p, hnil, hp, hd, rfl, -⟩ := sysUnlink_entry hn hpath hfull hok
    cases hleads p hp hd
    exact ⟨0, _, e, hrun, Volume.remove_shrinks hnil List.suffix_rfl, rfl⟩
  · exact ⟨r, d, e', hrun, .refl _ _, hfails.frozen⟩

/-- The loop removes only what is below the directory that it was opened for. -/
theorem rmdirLoop_stays {recurse : CStr → Disk → ErrM (Int × Disk)} {d₀ : Disk} (hshort : path.strlen < maxPath)
    (hpath : path.bytes ≠ []) (hleads : leads sys d₀.toFileTree path.bytes = .ok q)
    (hrec : ∀ n full d₁, ProperName n → full.bytes = path.bytes ++ [pathSep] ++ n → d₀.IsDir (n :: q) →
      Shrinks (BelowDir q) d₀.toFileTree d₁.toFileTree → StaysBelow (recurse full d₁) (n :: q) d₁)
    (k : Nat) (dir : DirStream) (hk : dir.rest.length < k) (hlisted : Listed dir.rest)
    (hdirs : ∀ x ∈ dir.rest, isDots x = false → x.2 = .dir → d₀.IsDir (x.1 :: q)) (d₁ : Disk)
    (hshrinks : Shrinks (BelowDir q) d₀.toFileTree d₁.toFileTree) (e : ErrState) :
    ∃ r d₂ e₂, rmdirLoop sys recurse path k dir d₁ e = some ((r, d₂), e₂) ∧
      Shrinks (BelowDir q) d₁.toFileTree d₂.toFileTree ∧ e₂.frozen = e.frozen := by
  induction k generalizing dir d₁ e with
  | zero => exact absurd hk (Nat.not_lt_zero _)
  | succ k ih =>
    cases hrest : dir.rest.dropWhile isDots with
    | nil =>
      obtain ⟨e', hrun, hfails, -⟩ := rmdirLoop_end sys recurse k hrest path d₁ e
      exact ⟨none, d₁, e', hrun, .refl _ _, hfails.frozen⟩
    | cons x rest =>
      obtain ⟨n, type⟩ := x
      obtain ⟨hn, hlisted'⟩ := hlisted.next hrest
      obtain ⟨full, hfull, hturn⟩ := rmdirLoop_entry sys recurse k hshort hn hrest d₁ e
      have hsuffix : (n, type) :: rest <:+ dir.rest := hrest ▸ List.dropWhile_suffix _
      have hstays : StaysBelow (if type = .dir then recurse full d₁ else sys.pclUnlink d₁ full) (n :: q) d₁ := by
        by_cases htype : type = .dir
        · rw [if_pos htype]
          have hdots : isDots (n, type) = false := by
            unfold isDots
            simp [hn.ne_here, hn.ne_up]
          exact hrec n full d₁ hn hfull (hdirs (n, type) (hsuffix.subset List.mem_cons_self) hdots htype) hshrinks
        · rw [if_neg htype]
          refine pclUnlink_stays hn hpath hfull fun p hp hd => ?_
          have := hshrinks.resolve hp hd.ne_none
          unfold leads at hleads
          cases hleads.symm.trans this
          rfl
      obtain ⟨r, d₂, e₂, hrun, hbelow, hfrozen⟩ := hstays e
      rw [hturn, hrun, Option.bind_some]
      have hbelow' := hbelow.mono fun p hp => below_of_child hp
      by_cases hr : r = 0
      · obtain ⟨r', d₃, e₃, hloop, hmore, hfrozen'⟩ := ih ⟨rest, dir.fails⟩ (dropWhile_length hk hrest) hlisted'
          (fun x hx => hdirs x (hsuffix.subset (List.mem_cons_of_mem _ hx))) d₂ (hshrinks.trans hbelow') e₂
        refine ⟨r', d₃, e₃, ?_, hbelow'.trans hmore, hfrozen'.trans hfrozen⟩
        simp only [if_pos hr]
        exact hloop
      · simp only [if_neg hr, trc_run, Option.map_some]
        exact ⟨_, d₂, _, rfl, hbelow', (traced_frozen ..).trans hfrozen⟩

theorem direntsOf_mem {x : Name × DirentType} (hx : x ∈ direntsOf sys d q) (hdots : isDots x = false) :
    d.node (x.1 :: q) ≠ none ∧ x.2 = if sys.typed (x.1 :: q) then direntType (d.node (x.1 :: q)) else .unknown := by
  unfold isDots at hdots
  rw [decide_eq_false_iff_not] at hdots
  obtain ⟨n, hn, rfl⟩ := List.mem_map.1 hx
  simp only at hdots
  have hmem := (sys.order_perm q (d.names q)).mem_iff.1 hn
  rw [List.mem_cons, List.mem_cons, ← or_assoc] at hmem
  exact ⟨(d.mem_names n q).1 (hmem.resolve_left hdots), if_neg hdots⟩

theorem direntType_dir : direntType (d.node p) = .dir ↔ d.IsDir p := by
  unfold FileTree.IsDir direntType
  constructor
  · intro h
    split at h
    · next m hm => exact ⟨m, hm⟩
    all_goals cases h
  · rintro ⟨m, hm⟩
    rw [hm]

theorem opened_sublist {dir : DirStream} (h : sysOpendir sys d q = .ok dir) : dir.rest.Sublist (direntsOf sys d q) := by
  unfold sysOpendir at h
  split at h
  · cases h
  · cases h
  · split at h
    · cases h
    · cases h
      exact List.Sublist.refl _
    · cases h
      exact List.take_sublist _ _

theorem opened_listed {dir : DirStream} (h : sysOpendir sys d q = .ok dir) : Listed dir.rest := fun x hx hdots =>
  d.proper x.1 q (direntsOf_mem ((opened_sublist h).subset hx) hdots).1

theorem opened_dirs {dir : DirStream} (h : sysOpendir sys d q = .ok dir) :
    ∀ x ∈ dir.rest, isDots x = false → x.2 = .dir → d.IsDir (x.1 :: q) := by
  intro x hx hdots hdir
  obtain ⟨-, htype⟩ := direntsOf_mem ((opened_sublist h).subset hx) hdots
  rw [hdir] at htype
  by_cases htyped : sys.typed (x.1 :: q) = true
  · rw [if_pos htyped] at htype
    exact direntType_dir.1 htype.symm
  · rw [if_neg htyped] at htype
    cases htype

/-- What `rmdir` removes is where the path leads. -/
theorem leads_of_parent {t : Tree FileKind} (hlast : (components path.bytes).getLast? = some (.name n))
    (hres : t.resolve FileKind.target maxLinks (sys.start path.bytes) (components path.bytes).dropLast = .ok p)
    (hd : t.IsDir (n :: p)) : leads sys t path.bytes = .ok (n :: p) := by
  have hsplit := FileTree.resolve_child hres hd
  rwa [List.dropLast_append_getLast? _ hlast] at hsplit

theorem pclRmdir_stays (hleads : ∀ p, leads sys d.toFileTree path.bytes = .ok p → d.IsDir p → p = q) :
    StaysBelow (pclRmdir sys d path) q d := by
  intro e
  rcases pclRmdir_run sys d path e with ⟨d', hok, hrun⟩ | ⟨-, r, e', hrun, hfails, -⟩
  · obtain ⟨n, p, hnil, rfl, hp, hd, -⟩ := sysRmdir_ok hok
    obtain ⟨-, -, hlast, hres, -⟩ := sysParent_ok hp
    have heq := hleads _ (leads_of_parent hlast hres hd) hd
    exact ⟨0, _, e, hrun, Volume.remove_shrinks hnil (heq ▸ List.suffix_rfl), rfl⟩
  · exact ⟨r, d, e', hrun, .refl _ _, hfails.frozen⟩

theorem rmdirR_stays (k : Nat) (hk : maxPath < k + path.strlen) (hpos : 0 < k)
    (hleads : ∀ p, leads sys d.toFileTree path.bytes = .ok p → d.IsDir p → p = q) :
    StaysBelow (rmdirR sys k path d) q d := by
  induction k generalizing path q d with
  | zero => exact absurd hpos (Nat.not_lt_zero _)
  | succ k ih =>
    intro e
    rw [rmdirR]
    rcases pclOpendir_run sys d path e with ⟨p, dir, hopens, hopen⟩ | ⟨-, e', hopen, hfails⟩
    · have hd := sysOpendir_isDir hopens.found
      cases hleads p hopens.leads hd
      have hrec (n : Name) (full : CStr) (d₁ : Disk) (hn : ProperName n)
          (hfull : full.bytes = path.bytes ++ [pathSep] ++ n) (hnd : d.IsDir (n :: q))
          (hshrinks : Shrinks (BelowDir q) d.toFileTree d₁.toFileTree) :
          StaysBelow (rmdirR sys k full d₁) (n :: q) d₁ := by
        have hshort := hopens.short
        refine ih (by rw [strlen_entry hfull]; omega) (by omega) fun p' hp' hd' => ?_
        have hthere := leads_entry hn hopens.ne_nil hfull hopens.leads hnd
        have hthere' := hshrinks.resolve hp' hd'.ne_none
        unfold leads at hthere
        cases hthere.symm.trans hthere'
        rfl
      obtain ⟨r, d₁, e₁, hloop, hbelow, hfrozen⟩ := rmdirLoop_stays hopens.short hopens.ne_nil hopens.leads hrec
        (dir.rest.length + 1) dir (Nat.lt_succ_self _) (opened_listed hopens.found) (opened_dirs hopens.found) d
        (.refl _ _) e
      have hbelow' := hbelow.mono fun _ h => h.1
      simp only [ErrM.bind_run, hopen, Option.bind_some, hloop]
      cases r with
      | some r => exact ⟨r, d₁, e₁, rfl, hbelow', hfrozen⟩
      | none =>
        simp only [errLast, ErrM.bind_run, Option.bind_some]
        by_cases hmore : e₁.err ≠ eNomore
        · simp only [if_pos hmore, ErrM.bind_run, trc_run, Option.bind_some, ErrM.pure_run]
          exact ⟨_, d₁, _, rfl, hbelow', (traced_frozen ..).trans hfrozen⟩
        · have hunique (p' : List Name) (hp' : leads sys d₁.toFileTree path.bytes = .ok p') (hd' : d₁.IsDir p') :
              p' = q := by
            have hthere := hbelow.resolve hp' hd'.ne_none
            have := hopens.leads
            unfold leads at this
            cases this.symm.trans hthere
            rfl
          obtain ⟨r, d₂, e₂, hrmdir, hlast, hfrozen'⟩ := pclRmdir_stays hunique e₁
          simp only [if_neg hmore, ErrM.bind_run, hrmdir, Option.bind_some]
          by_cases hr : r ≠ 0
          · simp only [if_pos hr, ErrM.bind_run, trc_run, Option.bind_some, ErrM.pure_run]
            exact ⟨_, d₂, _, rfl, hbelow'.trans hlast, (traced_frozen ..).trans (hfrozen'.trans hfrozen)⟩
          · simp only [if_neg hr, ErrM.pure_run]
            exact ⟨0, d₂, e₂, rfl, hbelow'.trans hlast, hfrozen'.trans hfrozen⟩
    · simp only [ErrM.bind_run, hopen, Option.bind_some, trc_run, ErrM.pure_run]
      exact ⟨_, d, _, rfl, .refl _ _, (traced_frozen ..).trans hfails.frozen⟩

/-! ### What can be removed -/

/-- Nothing stops the removal of what is at a location; a directory is opened and read as well. -/
structure RemovableAt (sys : DirSystem) (t : Tree FileKind) (path : List UInt8) (p : List Name) : Prop where
  short : path.length < maxPath
  allowed : sys.refuse p = none
  opens : t.IsDir p → locationLength p < maxPath ∧ sys.unreadable p = none ∧ sys.breaks p = none

/-- The text of the path to what is at `s` below the end of `path`. -/
def pathBelow (path : List UInt8) (s : List Name) : List UInt8 := s.foldr (fun n text => text ++ [pathSep] ++ n) path

/-- Nothing stops the removal of anything at or below a location, and the directories below it are known to be ones. -/
def Removable (sys : DirSystem) (t : Tree FileKind) (path : List UInt8) (q : List Name) : Prop :=
  ∀ s, t.node (s ++ q) ≠ none → RemovableAt sys t (pathBelow path s) (s ++ q) ∧
    (s ≠ [] → t.IsDir (s ++ q) → sys.typed (s ++ q) = true)

/-- The entry `n` of the directory `q` can be removed. -/
def EntryRemovable (sys : DirSystem) (t : Tree FileKind) (path : List UInt8) (q : List Name) (n : Name) : Prop :=
  Removable sys t (path ++ [pathSep] ++ n) (n :: q) ∧ (t.IsDir (n :: q) → sys.typed (n :: q) = true)

/-- The last component of the path is a name, and it names the location. -/
def NamesLast (sys : DirSystem) (t : Tree FileKind) (path : List UInt8) (q : List Name) : Prop :=
  ∃ n p, q = n :: p ∧ (components path).getLast? = some (.name n) ∧
    t.resolve FileKind.target maxLinks (sys.start path) (components path).dropLast = .ok p

section
variable {t t' : Tree FileKind} {text : List UInt8}

theorem Removable.congr (h : ∀ p, q <:+ p → t'.node p = t.node p) : Removable sys t' text q ↔ Removable sys t text q := by
  have hnode (s : List Name) : t'.node (s ++ q) = t.node (s ++ q) := h _ (List.suffix_append s q)
  have hdir (s : List Name) : t'.IsDir (s ++ q) ↔ t.IsDir (s ++ q) := by
    unfold FileTree.IsDir
    rw [hnode]
  refine forall_congr' fun s => ?_
  rw [hnode, hdir]
  refine imp_congr_right fun _ => and_congr_left fun _ => ?_
  refine ⟨fun h => ⟨h.short, h.allowed, ?_⟩, fun h => ⟨h.short, h.allowed, ?_⟩⟩
  · rw [← hdir]
    exact h.opens
  · rw [hdir]
    exact h.opens

theorem EntryRemovable.congr (h : ∀ p, n :: q <:+ p → t'.node p = t.node p) :
    EntryRemovable sys t' text q n ↔ EntryRemovable sys t text q n := by
  unfold EntryRemovable FileTree.IsDir
  rw [Removable.congr h, h _ List.suffix_rfl]

/-- All of a directory: itself, and its entries. -/
theorem removable_iff (hq : t.node q ≠ none) : Removable sys t text q ↔
    RemovableAt sys t text q ∧ ∀ n, t.node (n :: q) ≠ none → EntryRemovable sys t text q n := by
  have hshift (n : Name) (s : List Name) : (s ++ [n]) ++ q = s ++ n :: q := by simp
  have htext (n : Name) (s : List Name) : pathBelow text (s ++ [n]) = pathBelow (text ++ [pathSep] ++ n) s := by
    unfold pathBelow
    rw [List.foldr_append]
    rfl
  constructor
  · intro h
    refine ⟨(h [] hq).1, fun n hn => ⟨fun s hs => ?_, fun hd => (h [n] hn).2 (List.cons_ne_nil _ _) hd⟩⟩
    rw [← hshift] at hs ⊢
    rw [← htext]
    exact ⟨(h _ hs).1, fun _ => (h _ hs).2 (by simp)⟩
  · rintro ⟨hat, hentries⟩ s hs
    rcases List.eq_nil_or_concat s with rfl | ⟨s, n, rfl⟩
    · exact ⟨hat, fun hne => absurd rfl hne⟩
    · rw [List.concat_eq_append, hshift] at hs ⊢
      rw [htext]
      obtain ⟨hbelow, htyped⟩ := hentries n (FileTree.ne_none_of_below (List.suffix_append s _) hs)
      obtain ⟨hat', hother⟩ := hbelow s hs
      refine ⟨hat', fun _ hd => ?_⟩
      by_cases hnil : s = []
      · subst hnil
        exact htyped hd
      · exact hother hnil hd

theorem removable_file (hf : t.IsFile q) : Removable sys t text q ↔ text.length < maxPath ∧ sys.refuse q = none := by
  rw [removable_iff hf.ne_none]
  constructor
  · rintro ⟨hat, -⟩
    exact ⟨hat.short, hat.allowed⟩
  · rintro ⟨hshort, hallowed⟩
    exact ⟨⟨hshort, hallowed, fun hd => absurd hf hd.not_isFile⟩, fun n hn =>
      absurd hf (FileTree.IsDir.not_isFile (t.closed n q hn))⟩

end

/-! ### What is removed -/

/-- How a call ends that is to clear `q`: it succeeds just where `C` holds, and then nothing is left at `q`; else an error
is set. Only what is at or below `q` is removed. -/
structure ClearedTo (q : List Name) (d d' : Disk) (C : Prop) (r : Int) (e' : ErrState) : Prop where
  thawed : e'.frozen = false
  shrinks : Shrinks (q <:+ ·) d.toFileTree d'.toFileTree
  zero_iff : r = 0 ↔ C
  gone : r = 0 → d'.node q = none
  failed : r ≠ 0 → r = -1 ∧ e'.err ≠ eOkay

def Clears (run : ErrM (Int × Disk)) (q : List Name) (d : Disk) (C : Prop) : Prop :=
  ∀ e, e.frozen = false → ∃ r d' e', run e = some ((r, d'), e') ∧ ClearedTo q d d' C r e'

namespace ClearedTo
variable {C : Prop}

theorem of_done (he : e.frozen = false) (hshrinks : Shrinks (q <:+ ·) d.toFileTree d'.toFileTree) (hC : C)
    (hgone : d'.node q = none) : ClearedTo q d d' C 0 e :=
  ⟨he, hshrinks, iff_of_true rfl hC, fun _ => hgone, fun h => absurd rfl h⟩

theorem of_failed (he : e.frozen = false) (herr : e.err ≠ eOkay)
    (hshrinks : Shrinks (q <:+ ·) d.toFileTree d'.toFileTree) (hC : ¬ C) : ClearedTo q d d' C (-1) e := by
  refine ⟨he, hshrinks, iff_of_false (by decide) hC, fun h => ?_, fun _ => ⟨rfl, herr⟩⟩
  cases h

end ClearedTo

/-- The path leads to `q`, and would if there were nothing below `q`. -/
def LeadsClear (sys : DirSystem) (t : Tree FileKind) (path : List UInt8) (q : List Name) : Prop :=
  t.IsDir q ∧ leads sys (t.emptied q) path = .ok q

theorem LeadsClear.leads {t : Tree FileKind} {text : List UInt8} (h : LeadsClear sys t text q) :
    leads sys t text = .ok q :=
  (Shrinks.emptied (.refl _ t)).resolve h.2 (FileTree.emptied_isDir h.1).ne_none

theorem LeadsClear.shrinks {t t' : Tree FileKind} {text : List UInt8} (h : LeadsClear sys t text q)
    (hshrinks : Shrinks (BelowDir q) t t') : LeadsClear sys t' text q := by
  refine ⟨hshrinks.isDir_outside (fun hb => hb.2 rfl) h.1, ?_⟩
  rw [FileTree.emptied_eq hshrinks]
  exact h.2

theorem LeadsClear.entry {t : Tree FileKind} (h : LeadsClear sys t path.bytes q) (hn : ProperName n)
    (hpath : path.bytes ≠ []) (hfull : full.bytes = path.bytes ++ [pathSep] ++ n) (hd : t.IsDir (n :: q)) :
    LeadsClear sys t full.bytes (n :: q) := by
  refine ⟨hd, leads_entry hn hpath hfull ?_ (FileTree.emptied_isDir hd)⟩
  exact (FileTree.emptied_child t n q).resolve h.2 (FileTree.emptied_isDir h.1).ne_none

theorem pclUnlink_clears (hn : ProperName n) (hpath : path.bytes ≠ []) (hfull : full.bytes = path.bytes ++ [pathSep] ++ n)
    (hq : leads sys d.toFileTree path.bytes = .ok q) :
    Clears (sys.pclUnlink d full) (n :: q) d (d.IsFile (n :: q) ∧ Removable sys d.toFileTree full.bytes (n :: q)) := by
  intro e he
  rcases pclUnlink_run sys d full e with ⟨d', hok, hrun⟩ | ⟨hno, r, e', hrun, hfails, hr⟩
  · obtain ⟨p, hnil, hp, -, rfl, hf, hshort, hrefuse⟩ := sysUnlink_entry hn hpath hfull hok
    cases hq.symm.trans hp
    exact ⟨0, _, e, hrun, .of_done he (Volume.remove_shrinks hnil List.suffix_rfl)
      ⟨hf, (removable_file hf).2 ⟨hshort, hrefuse⟩⟩ (if_pos rfl)⟩
  · have hC : ¬ (d.IsFile (n :: q) ∧ Removable sys d.toFileTree full.bytes (n :: q)) := by
      rintro ⟨hf, hrem⟩
      obtain ⟨hshort, hrefuse⟩ := (removable_file hf).1 hrem
      exact hno (sysUnlink_removes hn hpath hfull hq hf hshort hrefuse)
    cases hr he
    exact ⟨-1, d, e', hrun, .of_failed (hfails.frozen.trans he) (hfails.err he) (.refl _ _) hC⟩

/-- What the loop does with what is to be read from the directory `q`. -/
structure Cleared (sys : DirSystem) (text : List UInt8) (q : List Name) (rest : List (Name × DirentType)) (d d' : Disk)
    (r : Option Int) : Prop where
  shrinks : Shrinks (fun p => ∃ x ∈ rest, isDots x = false ∧ x.1 :: q <:+ p) d.toFileTree d'.toFileTree
  none_iff : r = none ↔ ∀ x ∈ rest, isDots x = false → EntryRemovable sys d.toFileTree text q x.1
  gone : r = none → ∀ x ∈ rest, isDots x = false → d'.node (x.1 :: q) = none

/-- Entries are what is in the directory; the type is right where it is known. -/
def Entries (sys : DirSystem) (t : Tree FileKind) (q : List Name) (rest : List (Name × DirentType)) : Prop :=
  ∀ x ∈ rest, isDots x = false →
    t.node (x.1 :: q) ≠ none ∧ x.2 = if sys.typed (x.1 :: q) then direntType (t.node (x.1 :: q)) else .unknown

/-- The one entry is removed, in one of the two ways. -/
theorem entry_clears {recurse : CStr → Disk → ErrM (Int × Disk)} {type : DirentType} (hn : ProperName n)
    (hpath : path.bytes ≠ []) (hfull : full.bytes = path.bytes ++ [pathSep] ++ n)
    (hleads : LeadsClear sys d.toFileTree path.bytes q) (hthere : d.node (n :: q) ≠ none)
    (htype : type = if sys.typed (n :: q) then direntType (d.node (n :: q)) else .unknown)
    (hrec : d.IsDir (n :: q) → Clears (recurse full d) (n :: q) d (Removable sys d.toFileTree full.bytes (n :: q))) :
    Clears (if type = .dir then recurse full d else sys.pclUnlink d full) (n :: q) d
      (EntryRemovable sys d.toFileTree path.bytes q n) := by
  have hdir : type = .dir ↔ sys.typed (n :: q) = true ∧ d.IsDir (n :: q) := by
    rw [← direntType_dir, htype]
    by_cases htyped : sys.typed (n :: q) = true <;> simp [htyped]
  unfold EntryRemovable
  rw [← hfull]
  by_cases h : type = .dir
  · obtain ⟨htyped, hd⟩ := hdir.1 h
    rw [if_pos h, and_iff_left fun _ => htyped]
    exact hrec hd
  · rw [if_neg h]
    have hcond : d.IsFile (n :: q) ∧ Removable sys d.toFileTree full.bytes (n :: q) ↔
        Removable sys d.toFileTree full.bytes (n :: q) ∧ (d.IsDir (n :: q) → sys.typed (n :: q) = true) := by
      constructor
      · exact fun ⟨hf, hrem⟩ => ⟨hrem, fun hd => absurd hf hd.not_isFile⟩
      · rintro ⟨hrem, htyped⟩
        exact ⟨(FileTree.isDir_or_isFile hthere).resolve_left fun hd => h (hdir.2 ⟨htyped hd, hd⟩), hrem⟩
    rw [← hcond]
    exact pclUnlink_clears hn hpath hfull hleads.leads

theorem rmdirLoop_clears {recurse : CStr → Disk → ErrM (Int × Disk)} (hshort : path.strlen < maxPath)
    (hpath : path.bytes ≠ [])
    (hrec : ∀ n full d, ProperName n → full.bytes = path.bytes ++ [pathSep] ++ n → d.IsDir (n :: q) →
      LeadsClear sys d.toFileTree path.bytes q →
      Clears (recurse full d) (n :: q) d (Removable sys d.toFileTree full.bytes (n :: q)))
    (k : Nat) (dir : DirStream) (hk : dir.rest.length < k) (hlisted : Listed dir.rest)
    (hnodup : (dir.rest.map Prod.fst).Nodup) (d : Disk) (hentries : Entries sys d.toFileTree q dir.rest)
    (hleads : LeadsClear sys d.toFileTree path.bytes q) (he : e.frozen = false) :
    ∃ r d' e', rmdirLoop sys recurse path k dir d e = some ((r, d'), e') ∧ e'.frozen = false ∧ e'.err ≠ eOkay ∧
      Cleared sys path.bytes q dir.rest d d' r ∧ (r = none → (e'.err = eNomore ↔ dir.fails = none)) ∧
      ∀ r' ∈ r, r' = -1 := by
  induction k generalizing dir d e with
  | zero => exact absurd hk (Nat.not_lt_zero _)
  | succ k ih =>
    cases hrest : dir.rest.dropWhile isDots with
    | nil =>
      obtain ⟨e', hrun, hfails, herr⟩ := rmdirLoop_end sys recurse k hrest path d e
      have hdots : ∀ x ∈ dir.rest, isDots x = true := List.dropWhile_eq_nil_iff.1 hrest
      have hnone {x : Name × DirentType} (hx : x ∈ dir.rest) (h : isDots x = false) : False := by
        rw [hdots x hx] at h
        cases h
      have hcleared : Cleared sys path.bytes q dir.rest d d none :=
        ⟨.refl _ _, iff_of_true rfl fun x hx h => (hnone hx h).elim, fun _ x hx h => (hnone hx h).elim⟩
      exact ⟨none, d, e', hrun, hfails.frozen.trans he, hfails.err he, hcleared, fun _ => herr he, fun _ h => by cases h⟩
    | cons x rest =>
      obtain ⟨n, type⟩ := x
      obtain ⟨hn, hlisted'⟩ := hlisted.next hrest
      obtain ⟨full, hfull, hturn⟩ := rmdirLoop_entry sys recurse k hshort hn hrest d e
      have hsuffix : (n, type) :: rest <:+ dir.rest := hrest ▸ List.dropWhile_suffix _
      have hdots : isDots (n, type) = false := by
        unfold isDots
        simp [hn.ne_here, hn.ne_up]
      have hmem : (n, type) ∈ dir.rest := hsuffix.subset List.mem_cons_self
      obtain ⟨hthere, htype⟩ := hentries _ hmem hdots
      obtain ⟨r, d₁, e₁, hrun, he₁, hshrinks, hr, hgone, herr⟩ := entry_clears hn hpath hfull hleads hthere htype
        (fun hd => hrec n full d hn hfull hd hleads) e he
      have hbelow := hshrinks.mono fun _ h => below_of_child h
      rw [hturn, hrun, Option.bind_some]
      by_cases h0 : r = 0
      · -- the other entries are as they were
        have hother {x : Name × DirentType} (hx : x ∈ rest) (p : List Name) (hp : x.1 :: q <:+ p) :
            d₁.node p = d.node p := by
          have hne : x.1 ≠ n := by
            have hpair := hnodup.sublist (hsuffix.sublist.map Prod.fst)
            rw [List.map_cons, List.nodup_cons] at hpair
            exact fun heq => hpair.1 (List.mem_map.2 ⟨x, hx, heq⟩)
          exact hshrinks.outside (FileTree.disjoint_children hne hp)
        have hentries' : Entries sys d₁.toFileTree q rest := by
          intro x hx hx'
          rw [hother hx _ List.suffix_rfl]
          exact hentries x (hsuffix.subset (List.mem_cons_of_mem _ hx)) hx'
        obtain ⟨r', d₂, e₂, hloop, he₂, hset, hcleared, hfails, herr'⟩ := ih ⟨rest, dir.fails⟩ (dropWhile_length hk hrest)
          hlisted' (hnodup.sublist (((List.sublist_cons_self _ _).trans hsuffix.sublist).map Prod.fst)) d₁ hentries'
          (hleads.shrinks hbelow) he₁
        refine ⟨r', d₂, e₂, ?_, he₂, hset, ⟨?_, ?_, ?_⟩, hfails, herr'⟩
        · simp only [if_pos h0]
          exact hloop
        · refine (hshrinks.mono fun p hp => ⟨_, hmem, hdots, hp⟩).trans (hcleared.shrinks.mono ?_)
          rintro p ⟨x, hx, hx', hp⟩
          exact ⟨x, hsuffix.subset (List.mem_cons_of_mem _ hx), hx', hp⟩
        · rw [hcleared.none_iff]
          constructor
          · intro h x hx hx'
            rcases mem_of_dropWhile hrest hx hx' with rfl | hx
            · exact hr.1 h0
            · exact (EntryRemovable.congr (hother hx)).1 (h x hx hx')
          · intro h x hx hx'
            exact (EntryRemovable.congr (hother hx)).2 (h x (hsuffix.subset (List.mem_cons_of_mem _ hx)) hx')
        · intro hnone x hx hx'
          rcases mem_of_dropWhile hrest hx hx' with rfl | hx
          · exact Classical.byContradiction fun h => hcleared.shrinks.ne_none h (hgone h0)
          · exact hcleared.gone hnone x hx hx'
      · obtain ⟨hr', hset⟩ := herr h0
        simp only [if_neg h0, trc_run, Option.map_some]
        refine ⟨_, d₁, _, rfl, (traced_frozen ..).trans he₁, (traced_err ..).trans_ne hset, ⟨?_, ?_, ?_⟩,
          (fun h => by cases h), fun r' h => ?_⟩
        · exact hshrinks.mono fun p hp => ⟨_, hmem, hdots, hp⟩
        · exact iff_of_false (by simp) fun h => h0 (hr.2 (h _ hmem hdots))
        · intro h
          cases h
        · cases h
          simp [he₁, hset]

/-! ### All of a directory -/

theorem direntsOf_nodup (sys : DirSystem) (d : Disk) (q : List Name) : ((direntsOf sys d q).map Prod.fst).Nodup := by
  have hmap : (direntsOf sys d q).map Prod.fst = sys.order q (d.names q) := by
    unfold direntsOf
    rw [List.map_map]
    exact List.map_id _
  have hproper {n : Name} (hn : n ∈ d.names q) : ProperName n := d.proper n q ((d.mem_names n q).1 hn)
  rw [hmap, (sys.order_perm q (d.names q)).nodup_iff, List.nodup_cons, List.nodup_cons, List.mem_cons]
  refine ⟨?_, fun h => (hproper h).ne_up rfl, d.nodup q⟩
  rintro (h | h)
  · exact absurd h (by decide)
  · exact (hproper h).ne_here rfl

theorem sysOpendir_iff {dir : DirStream} (hd : d.IsDir q) : sysOpendir sys d q = .ok dir ↔ sys.unreadable q = none ∧
    dir = match sys.breaks q with
      | none => ⟨direntsOf sys d q, none⟩
      | some (n, oserr) => ⟨(direntsOf sys d q).take n, some oserr⟩ := by
  obtain ⟨m, hm⟩ := hd
  unfold sysOpendir
  rw [hm]
  cases sys.unreadable q with
  | some oserr => simp
  | none => cases sys.breaks q <;> simp [eq_comm]

/-- A directory that can be read to its end is read whole. -/
theorem opened_all {dir : DirStream} (h : sysOpendir sys d q = .ok dir) :
    (dir.fails = none ↔ sys.breaks q = none) ∧
    (dir.fails = none → ∀ n, d.node (n :: q) ≠ none → ∃ type, (n, type) ∈ dir.rest ∧ isDots (n, type) = false) := by
  obtain ⟨-, rfl⟩ := (sysOpendir_iff (sysOpendir_isDir h)).1 h
  cases hbreaks : sys.breaks q with
  | some b => simp
  | none =>
    refine ⟨by simp, fun _ n hn => ?_⟩
    have hproper := d.proper n q hn
    have hmem : n ∈ sys.order q (d.names q) := by
      rw [(sys.order_perm q (d.names q)).mem_iff]
      exact List.mem_cons_of_mem _ (List.mem_cons_of_mem _ ((d.mem_names n q).2 hn))
    refine ⟨_, List.mem_map_of_mem hmem, ?_⟩
    unfold isDots
    simp [hproper.ne_here, hproper.ne_up]

/-- Where the directory was not opened. -/
theorem rmdirR_unopened (k : Nat) (h : ¬ ∃ p dir, Opens sys d path p dir) (e : ErrState) :
    ∃ r e', rmdirR sys (k + 1) path d e = some ((r, d), e') ∧ ErrSet e e' ∧ (e.frozen = false → r = -1) := by
  rcases pclOpendir_run sys d path e with ⟨p, dir, hopens, -⟩ | ⟨-, e₁, hopen, hfails⟩
  · exact absurd ⟨p, dir, hopens⟩ h
  · obtain ⟨r, e', htrc, hfails', hr⟩ := trc_failing (loc "rmdir_r.c" "rmdir_r" 45) hfails
    refine ⟨r, e', ?_, hfails', hr⟩
    rw [rmdirR]
    simp only [ErrM.bind_run, hopen, Option.bind_some, htrc, ErrM.pure_run]

theorem pclRmdir_clears {d₀ : Disk} (hleads : LeadsClear sys d₀.toFileTree path.bytes q) (hshort : path.strlen < maxPath)
    (hshrinks : Shrinks (BelowDir q) d₀.toFileTree d.toFileTree) (hempty : d.names q = []) :
    Clears (pclRmdir sys d path) q d (NamesLast sys d₀.toFileTree path.bytes q ∧ sys.refuse q = none) := by
  intro e he
  have hthere := hleads.shrinks hshrinks
  rcases pclRmdir_run sys d path e with ⟨d', hok, hrun⟩ | ⟨hno, r, e', hrun, hfails, hr⟩
  · obtain ⟨n, p, hnil, rfl, hp, hd, hrefuse⟩ := sysRmdir_ok hok
    obtain ⟨-, -, hlast, hres, hpd⟩ := sysParent_ok hp
    have heq := leads_of_parent hlast hres hd
    cases hthere.leads.symm.trans heq
    exact ⟨0, _, e, hrun, .of_done he (Volume.remove_shrinks hnil List.suffix_rfl)
      ⟨⟨n, p, rfl, hlast, hshrinks.resolve hres hpd.ne_none⟩, hrefuse⟩ (if_pos rfl)⟩
  · have hC : ¬ (NamesLast sys d₀.toFileTree path.bytes q ∧ sys.refuse q = none) := by
      rintro ⟨⟨n, p, rfl, hlast, hres⟩, hrefuse⟩
      refine hno ⟨d.remove n p hempty, ?_⟩
      -- the path to the directory that it is in
      have hleads' := hleads.2
      unfold leads at hleads'
      rw [← List.dropLast_append_getLast? _ hlast] at hleads'
      obtain ⟨p', hp', hpd'⟩ := FileTree.resolve_init hleads'
      have hsame := (Shrinks.emptied (.refl (BelowDir (n :: p)) d₀.toFileTree)).resolve hp' hpd'.ne_none
      cases hres.symm.trans hsame
      have hparent : sysParent sys d path = .ok (p, .name n) := by
        refine sysParent_run ?_ hshort hlast (hshrinks.emptied.resolve hp' hpd'.ne_none) (d.closed n p hthere.1.ne_none)
        intro hnil
        rw [hnil, components_nil] at hlast
        cases hlast
      obtain ⟨m, hm⟩ := hthere.1
      unfold sysRmdir
      simp only [hparent, hm, hrefuse, dif_pos hempty]
    cases hr he
    exact ⟨-1, d, e', hrun, .of_failed (hfails.frozen.trans he) (hfails.err he) (.refl _ _) hC⟩

theorem rmdirR_clears (k : Nat) (hk : maxPath < k + path.strlen) (hpos : 0 < k)
    (hleads : LeadsClear sys d.toFileTree path.bytes q) :
    Clears (rmdirR sys k path d) q d
      (NamesLast sys d.toFileTree path.bytes q ∧ Removable sys d.toFileTree path.bytes q) := by
  induction k generalizing path q d with
  | zero => exact absurd hpos (Nat.not_lt_zero _)
  | succ k ih =>
    intro e he
    have hd := hleads.1
    by_cases hopened : ∃ p dir, Opens sys d path p dir
    · obtain ⟨p, dir, hopens⟩ := hopened
      cases hleads.leads.symm.trans hopens.leads
      have hrec (n : Name) (full : CStr) (d₁ : Disk) (hn : ProperName n)
          (hfull : full.bytes = path.bytes ++ [pathSep] ++ n) (hnd : d₁.IsDir (n :: q))
          (hleads₁ : LeadsClear sys d₁.toFileTree path.bytes q) :
          Clears (rmdirR sys k full d₁) (n :: q) d₁ (Removable sys d₁.toFileTree full.bytes (n :: q)) := by
        have hshort := hopens.short
        have hnamed : NamesLast sys d₁.toFileTree full.bytes (n :: q) := by
          refine ⟨n, q, rfl, ?_, ?_⟩
          · rw [components_entry hn hfull, List.getLast?_concat]
          · rw [components_entry hn hfull, List.dropLast_concat, start_entry hopens.ne_nil hfull]
            exact hleads₁.leads
        have hih := ih (by rw [strlen_entry hfull]; omega) (by omega) (hleads₁.entry hn hopens.ne_nil hfull hnd)
        rwa [and_iff_right hnamed] at hih
      have hnodup := (direntsOf_nodup sys d q).sublist ((opened_sublist hopens.found).map Prod.fst)
      have hentries : Entries sys d.toFileTree q dir.rest := fun x hx =>
        direntsOf_mem ((opened_sublist hopens.found).subset hx)
      obtain ⟨r, d₁, e₁, hloop, he₁, hset, hcleared, hfails, herr⟩ := rmdirLoop_clears hopens.short hopens.ne_nil hrec
        (dir.rest.length + 1) dir (Nat.lt_succ_self _) (opened_listed hopens.found) hnodup d hentries hleads he
      have hbelow : Shrinks (BelowDir q) d.toFileTree d₁.toFileTree :=
        hcleared.shrinks.mono fun p ⟨x, _, _, hp⟩ => below_of_child hp
      have hbelow' := hbelow.mono fun _ h => h.1
      rw [removable_iff hd.ne_none, rmdirR]
      simp only [ErrM.bind_run, hopens.run, Option.bind_some, hloop]
      cases r with
      | some r =>
        cases herr r rfl
        refine ⟨-1, d₁, e₁, rfl, .of_failed he₁ hset hbelow' ?_⟩
        rintro ⟨-, -, hall⟩
        have hnone := hcleared.none_iff.2 fun x hx hx' => hall x.1 (hentries x hx hx').1
        cases hnone
      | none =>
        simp only [errLast, ErrM.bind_run, Option.bind_some]
        by_cases hmore : e₁.err ≠ eNomore
        · simp only [if_pos hmore, ErrM.bind_run, trc_run, he₁, hset, Option.bind_some, ErrM.pure_run]
          refine ⟨-1, d₁, _, rfl, .of_failed ((traced_frozen ..).trans he₁) ((traced_err ..).trans_ne hset) hbelow' ?_⟩
          rintro ⟨-, hat, -⟩
          obtain ⟨-, -, hbreaks⟩ := hat.opens hd
          exact hmore ((hfails rfl).2 ((opened_all hopens.found).1.2 hbreaks))
        · rw [not_not] at hmore
          obtain ⟨hfailing, hall⟩ := opened_all hopens.found
          have hnone := (hfails rfl).1 hmore
          have hempty : d₁.names q = [] := by
            refine Volume.names_eq_nil_iff.2 fun n => Classical.byContradiction fun hn => ?_
            obtain ⟨type, hmem, hdots⟩ := hall hnone n (hbelow.ne_none hn)
            exact hn (hcleared.gone rfl _ hmem hdots)
          obtain ⟨r, d₂, e₂, hrmdir, he₂, hlast, hr, hgone, herr₂⟩ :=
            pclRmdir_clears hleads hopens.short hbelow hempty e₁ he₁
          have hC : NamesLast sys d.toFileTree path.bytes q ∧ RemovableAt sys d.toFileTree path.bytes q ∧
              (∀ n, d.node (n :: q) ≠ none → EntryRemovable sys d.toFileTree path.bytes q n) ↔
              NamesLast sys d.toFileTree path.bytes q ∧ sys.refuse q = none := by
            refine and_congr_right fun _ => ⟨fun h => h.1.allowed, fun hrefuse => ?_⟩
            refine ⟨⟨hopens.short, hrefuse, fun _ => ?_⟩, ?_⟩
            · exact ⟨hopens.fits, ((sysOpendir_iff hd).1 hopens.found).1, hfailing.1 hnone⟩
            · intro n hn
              obtain ⟨type, hmem, hdots⟩ := hall hnone n hn
              exact hcleared.none_iff.1 rfl _ hmem hdots
          rw [hC]
          simp only [if_neg (not_not.2 hmore), ErrM.bind_run, hrmdir, Option.bind_some]
          by_cases h0 : r = 0
          · simp only [h0, ne_eq, not_true_eq_false, if_false, ErrM.pure_run]
            exact ⟨0, d₂, e₂, rfl, .of_done he₂ (hbelow'.trans hlast) (hr.1 h0) (hgone h0)⟩
          · obtain ⟨hr', hset₂⟩ := herr₂ h0
            simp only [ne_eq, h0, not_false_eq_true, if_true, ErrM.bind_run, trc_run, he₂, hset₂, Option.bind_some,
              ErrM.pure_run]
            exact ⟨-1, d₂, _, rfl, .of_failed ((traced_frozen ..).trans he₂) ((traced_err ..).trans_ne hset₂)
              (hbelow'.trans hlast) fun h => h0 (hr.2 h)⟩
    · obtain ⟨r, e', hrun, hfails, hr⟩ := rmdirR_unopened k hopened e
      have hC : ¬ (NamesLast sys d.toFileTree path.bytes q ∧ Removable sys d.toFileTree path.bytes q) := by
        rintro ⟨⟨n, p, -, hlast, -⟩, hrem⟩
        obtain ⟨hat, -⟩ := (removable_iff hd.ne_none).1 hrem
        obtain ⟨hfits, hreadable, hbreaks⟩ := hat.opens hd
        refine hopened ⟨q, ⟨direntsOf sys d q, none⟩, ?_, hat.short, hleads.leads, hfits, ?_⟩
        · intro hnil
          rw [hnil, components_nil] at hlast
          cases hlast
        · rw [sysOpendir_iff hd, hbreaks]
          exact ⟨hreadable, rfl⟩
      cases hr he
      exact ⟨-1, d, e', hrun, .of_failed (hfails.frozen.trans he) (hfails.err he) (.refl _ _) hC⟩

/-! ### The whole of `pcl_rmdir_r` -/

theorem strncpy_overlong {src : CStr} {b : UInt8} {rest : List UInt8} (h : (b :: rest).length ≤ src.strlen)
    (e : ErrState) :
    strncpy (some (b :: rest)) (some src) 0 e =
      some ((false, some (0 :: rest)), e.raised (loc "strncpy.c" "pcl_strncpy" 48) eBuf 0 none) := by
  have hpos : src.strlen ≠ 0 := by
    rw [List.length_cons] at h
    omega
  have hlen : src.strlen ≥ ((0 : UInt8) :: rest).length := h
  unfold strncpy
  simp only [if_true, if_neg hpos, if_pos hlen, ErrM.bind_run, setErr_run _ _ _ (show eBuf ≠ eOkay by decide),
    Option.bind_some, ErrM.pure_run]

/-- The buffer holds the path, or nothing where it is too long. -/
theorem rmdirBuf_run (path : CStr) (e : ErrState) :
    ∃ ok out e', strncpy (some (List.replicate rmdirBuf 0)) (some path) 0 e = some ((ok, some out), e') ∧
      e'.frozen = e.frozen ∧ CStr.ofBytes out = if path.strlen < rmdirBuf then path else .ofBytes [] := by
  by_cases hfit : path.strlen < rmdirBuf
  · have hroom : path.strlen < (List.replicate rmdirBuf (0 : UInt8)).length := by rwa [List.length_replicate]
    obtain ⟨out, hrun, hout⟩ := strncpy_copies hroom e
    refine ⟨true, out, e, hrun, rfl, ?_⟩
    rw [if_pos hfit]
    exact CStr.ext hout
  · obtain ⟨m, hm⟩ : ∃ m, rmdirBuf = m + 1 := ⟨_, rfl⟩
    rw [if_neg hfit, hm, List.replicate_succ, strncpy_overlong (by simp; omega)]
    exact ⟨_, _, _, rfl, raised_frozen .., rfl⟩

/-- `pcl_rmdir_r` is `rmdir_r` for a path that the system could take, and fails for any other. -/
theorem pclRmdirR_run (sys : DirSystem) (path : CStr) (d : Disk) (e : ErrState) :
    ∃ e₁ : ErrState, e₁.frozen = e.frozen ∧ pclRmdirR sys path d e =
      ((rmdirR sys (maxPath + 1) (if path.strlen < rmdirBuf then path else .ofBytes []) d) e₁).bind fun x =>
        if x.1.1 = 0 then some ((0, x.1.2), x.2)
        else (trc (loc "rmdir_r.c" "pcl_rmdir_r" 94) x.2).map fun y => ((y.1, x.1.2), y.2) := by
  obtain ⟨ok, out, e₁, hrun, hfrozen, hout⟩ := rmdirBuf_run path e
  refine ⟨e₁, hfrozen, ?_⟩
  unfold pclRmdirR
  simp only [ErrM.bind_run, hrun, Option.bind_some, Option.getD_some, hout]
  congr 1
  funext x
  by_cases hr : x.1.1 = 0
  · rw [if_pos hr, if_neg (not_not.2 hr), ErrM.pure_run]
  · rw [if_neg hr, if_pos hr, ErrM.bind_run, trc_run]
    rfl

theorem not_opens_nil (sys : DirSystem) (d : Disk) : ¬ ∃ p dir, Opens sys d (.ofBytes []) p dir :=
  fun ⟨_, _, h⟩ => h.ne_nil rfl

/-- Whatever the system does, and also under a frozen error state, only what is at or below the directory that the path
leads to is removed; where it leads to none, nothing is. -/
theorem rmdirR_only_below (sys : DirSystem) (d : Disk) (path : CStr) (e : ErrState) :
    ∃ r d' e', pclRmdirR sys path d e = some ((r, d'), e') ∧ e'.frozen = e.frozen ∧
      ∀ p, d'.node p = d.node p ∨ d'.node p = none ∧
        ∃ q, leads sys d.toFileTree path.bytes = .ok q ∧ d.IsDir q ∧ q <:+ p := by
  obtain ⟨e₁, hfrozen, hrun⟩ := pclRmdirR_run sys path d e
  obtain ⟨r, d', e₂, hrmdir, hfrozen₂, honly⟩ : ∃ r d' e₂,
      rmdirR sys (maxPath + 1) (if path.strlen < rmdirBuf then path else .ofBytes []) d e₁ = some ((r, d'), e₂) ∧
      e₂.frozen = e₁.frozen ∧ ∀ p, d'.node p = d.node p ∨ d'.node p = none ∧
        ∃ q, leads sys d.toFileTree path.bytes = .ok q ∧ d.IsDir q ∧ q <:+ p := by
    by_cases hopened : ∃ p dir, Opens sys d (if path.strlen < rmdirBuf then path else .ofBytes []) p dir
    · obtain ⟨q, dir, hopens⟩ := hopened
      by_cases hfit : path.strlen < rmdirBuf
      · rw [if_pos hfit] at hopens ⊢
        have hunique (p : List Name) (hp : leads sys d.toFileTree path.bytes = .ok p) (_ : d.IsDir p) : p = q := by
          cases hopens.leads.symm.trans hp
          rfl
        obtain ⟨r, d', e₂, hrmdir, hshrinks, hfrozen₂⟩ := rmdirR_stays (maxPath + 1) (by omega) (by omega) hunique e₁
        refine ⟨r, d', e₂, hrmdir, hfrozen₂, fun p => (hshrinks p).imp_right fun h => ⟨h.2, q, hopens.leads, ?_, h.1⟩⟩
        exact sysOpendir_isDir hopens.found
      · rw [if_neg hfit] at hopens
        exact absurd ⟨q, dir, hopens⟩ (not_opens_nil sys d)
    · obtain ⟨r, e₂, hrmdir, hfails, -⟩ := rmdirR_unopened maxPath hopened e₁
      exact ⟨r, d, e₂, hrmdir, hfails.frozen, fun _ => .inl rfl⟩
  rw [hrun, hrmdir, Option.bind_some]
  by_cases h0 : r = 0
  · simp only [if_pos h0]
    exact ⟨0, d', e₂, rfl, hfrozen₂.trans hfrozen, honly⟩
  · simp only [if_neg h0, trc_run, Option.map_some]
    exact ⟨_, d', _, rfl, (traced_frozen ..).trans (hfrozen₂.trans hfrozen), honly⟩

/-- It succeeds just where the path names a directory and nothing stops the removal of it and of what is below it, and
then that is what is gone. The path does not lead through what is below the directory. -/
theorem rmdirR_removes (sys : DirSystem) (d : Disk) (path : CStr) (e : ErrState) (he : e.frozen = false)
    (hstays : ∀ q, leads sys d.toFileTree path.bytes = .ok q → d.IsDir q →
      leads sys (d.toFileTree.emptied q) path.bytes = .ok q) :
    ∃ r d' e', pclRmdirR sys path d e = some ((r, d'), e') ∧ (r = 0 ∨ r = -1) ∧
      (r = 0 ↔ ∃ q, d.IsDir q ∧ NamesLast sys d.toFileTree path.bytes q ∧ Removable sys d.toFileTree path.bytes q) ∧
      ∀ q, leads sys d.toFileTree path.bytes = .ok q → r = 0 →
        ∀ p, d'.node p = if q <:+ p then none else d.node p := by
  obtain ⟨e₁, hfrozen, hrun⟩ := pclRmdirR_run sys path d e
  have he₁ := hfrozen.trans he
  have hnames {q : List Name} (hd : d.IsDir q) (h : NamesLast sys d.toFileTree path.bytes q) :
      leads sys d.toFileTree path.bytes = .ok q := by
    obtain ⟨n, p, rfl, hlast, hres⟩ := h
    exact leads_of_parent hlast hres hd
  by_cases hto : ∃ q, path.strlen < rmdirBuf ∧ leads sys d.toFileTree path.bytes = .ok q ∧ d.IsDir q
  · obtain ⟨q, hfit, hq, hd⟩ := hto
    have hclears : Clears (rmdirR sys (maxPath + 1) path d) q d _ :=
      rmdirR_clears (maxPath + 1) (by omega) (by omega) ⟨hd, hstays q hq hd⟩
    obtain ⟨r, d', e₂, hrmdir, hcleared⟩ := hclears e₁ he₁
    have hiff : r = 0 ↔ ∃ q, d.IsDir q ∧ NamesLast sys d.toFileTree path.bytes q ∧
        Removable sys d.toFileTree path.bytes q := by
      rw [hcleared.zero_iff]
      constructor
      · exact fun h => ⟨q, hd, h⟩
      · rintro ⟨q', hd', hnamed, hrem⟩
        cases hq.symm.trans (hnames hd' hnamed)
        exact ⟨hnamed, hrem⟩
    rw [hrun, if_pos hfit, hrmdir, Option.bind_some]
    by_cases h0 : r = 0
    · simp only [if_pos h0]
      refine ⟨0, d', e₂, rfl, .inl rfl, iff_of_true rfl (hiff.1 h0), fun q' hq' _ p => ?_⟩
      cases hq.symm.trans hq'
      by_cases hp : q <:+ p
      · rw [if_pos hp]
        exact Classical.byContradiction fun h => FileTree.ne_none_of_below hp h (hcleared.gone h0)
      · rw [if_neg hp]
        exact hcleared.shrinks.outside hp
    · obtain ⟨-, hset⟩ := hcleared.failed h0
      simp only [if_neg h0, trc_run, hcleared.thawed, hset, Option.map_some]
      refine ⟨-1, d', _, rfl, .inr rfl, iff_of_false (by decide) fun h => h0 (hiff.2 h), fun q' _ h => ?_⟩
      cases h
  · have hopened : ¬ ∃ p dir, Opens sys d (if path.strlen < rmdirBuf then path else .ofBytes []) p dir := by
      rintro ⟨p, dir, h⟩
      by_cases hfit : path.strlen < rmdirBuf
      · rw [if_pos hfit] at h
        exact hto ⟨p, hfit, h.leads, sysOpendir_isDir h.found⟩
      · rw [if_neg hfit] at h
        exact not_opens_nil sys d ⟨p, dir, h⟩
    have hno : ¬ ∃ q, d.IsDir q ∧ NamesLast sys d.toFileTree path.bytes q ∧ Removable sys d.toFileTree path.bytes q := by
      rintro ⟨q, hd, hnamed, hrem⟩
      have hshort : path.strlen < maxPath := (hrem [] hd.ne_none).1.short
      exact hto ⟨q, Nat.lt_trans hshort (by decide), hnames hd hnamed, hd⟩
    obtain ⟨r, e₂, hrmdir, hfails, hr⟩ := rmdirR_unopened maxPath hopened e₁
    cases hr he₁
    rw [hrun, hrmdir, Option.bind_some]
    simp only [Int.reduceNeg, Int.reduceEq, if_false, trc_run, hfails.frozen.trans he₁, hfails.err he₁, Option.map_some]
    refine ⟨-1, d, _, rfl, .inr rfl, iff_of_false (by decide) hno, fun q' _ h => ?_⟩
    cases h

/-- A process in the root directory that is refused nothing. -/
def easyDirs : DirSystem where
  os2pcl oserr := if oserr = 0 then eOkay else 54
  cwd := []
  refuse _ := none
  unreadable _ := none
  breaks _ := none
  typed _ := true
  order _ l := txt "." :: txt ".." :: l
  okay_iff oserr := by split <;> simp_all [eOkay]
  ne_nomore oserr := by split <;> decide
  order_perm _ _ := .refl _

/-- The directory "d", with a link to the root directory in it, and the file "f" beside it. -/
def linkedDisk : Disk where
  node p :=
    if p = [] ∨ p = [txt "d"] then some (.dir 0x1ED)
    else if p = [txt "l", txt "d"] then some (.file (.link (txt "/")))
    else if p = [txt "f"] then some (.file .file)
    else none
  root := ⟨0x1ED, rfl⟩
  closed n p h := by
    refine ⟨0x1ED, if_pos ?_⟩
    split at h
    · simp_all
    · split at h
      · simp_all
      · split at h <;> simp_all
  names p := if p = [] then [txt "d", txt "f"] else if p = [txt "d"] then [txt "l"] else []
  nodup p := by
    split
    · decide
    · split <;> decide
  mem_names n p := by
    rcases p with _ | ⟨m, p⟩
    · have hne : txt "f" ≠ txt "d" := by decide
      by_cases hd : n = txt "d" <;> by_cases hf : n = txt "f" <;> simp [hd, hf, hne]
    · by_cases hm : m :: p = [txt "d"]
      · by_cases hl : n = txt "l" <;> simp_all
      · simp_all
  proper n p h := by
    have hname : n = txt "d" ∨ n = txt "l" ∨ n = txt "f" := by
      split at h
      · simp_all
      · split at h
        · simp_all
        · split at h <;> simp_all
    rcases hname with rfl | rfl | rfl
    all_goals exact ⟨by decide, by decide, by decide, by decide, by decide, by decide⟩

theorem rmdirR_removes_link : ∃ d' e', pclRmdirR easyDirs (.lit "/d") linkedDisk .zero = some ((0, d'), e') ∧
    d'.node [txt "d"] = none ∧ d'.IsFile [txt "f"] := by
  have hleads : leads easyDirs linkedDisk.toFileTree (CStr.lit "/d").bytes = .ok [txt "d"] := by rfl
  have hclear : leads easyDirs (linkedDisk.toFileTree.emptied [txt "d"]) (CStr.lit "/d").bytes = .ok [txt "d"] := by rfl
  have hd : linkedDisk.IsDir [txt "d"] := ⟨0x1ED, rfl⟩
  have hrem : Removable easyDirs linkedDisk.toFileTree (CStr.lit "/d").bytes [txt "d"] := by
    refine (removable_iff hd.ne_none).2 ⟨⟨by decide, rfl, fun _ => ⟨by decide, rfl, rfl⟩⟩, fun n hn => ?_⟩
    have hl : n = txt "l" := List.mem_singleton.1 ((linkedDisk.mem_names n [txt "d"]).2 hn)
    subst hl
    exact ⟨(removable_file ⟨.link (txt "/"), rfl⟩).2 ⟨by decide, rfl⟩, fun _ => rfl⟩
  obtain ⟨r, d', e', hrun, -, hr, hgone⟩ := rmdirR_removes easyDirs linkedDisk (.lit "/d") .zero rfl fun q hq _ => by
    cases hleads.symm.trans hq
    exact hclear
  cases hr.2 ⟨[txt "d"], hd, ⟨txt "d", [], rfl, rfl, rfl⟩, hrem⟩
  exact ⟨d', e', hrun, hgone _ hleads rfl [txt "d"], .file, hgone _ hleads rfl [txt "f"]⟩

end Pcl

import Mathlib.Tactic.Common

/-!
# Trees of directories and files

A tree says what is at a location, the list of the names from the last one back to the root. A path is followed from
a location component by component; `walk` refuses to pass anything but a directory. `mkdir` creates one directory, and
`Open` are the locations that are directories or can become ones. What a run of `mkdir` along a path does is told from
the tree it starts in: `Grows` says that only directories were added, and neither `Open` nor the files move under it.
-/

namespace FileTree

/-- What is at a location: a directory with its attributes, or a file with its contents. -/
inductive Node (M F : Type) where
  | dir (attr : M)
  | file (content : F)
deriving DecidableEq

/-- A component of a path. -/
inductive Component (N : Type) where
  | here
  | up
  | name (n : N)
deriving DecidableEq

def Component.step {N : Type} : Component N → List N → List N
  | here, p => p
  | up, p => p.tail
  | name n, p => n :: p

/-- The location that a path leads to, whatever is there. -/
def follow {N : Type} (p : List N) (cs : List (Component N)) : List N := cs.foldl (fun p c => c.step p) p

/-- What stops a walk. -/
inductive Obstacle where
  | missing
  | notDir
deriving DecidableEq

/-- Why a directory is not created. -/
inductive Denial (R : Type) where
  | obstacle (o : Obstacle)
  | exist
  | refused (reason : R)
deriving DecidableEq

end FileTree

open FileTree in
/-- What is at each location; the root is a directory, and everything else is in one. -/
structure FileTree (N M F : Type) where
  node : List N → Option (Node M F)
  root : ∃ m, node [] = some (.dir m)
  closed : ∀ n p, node (n :: p) ≠ none → ∃ m, node p = some (.dir m)

namespace FileTree
variable {N M F R : Type} (t : FileTree N M F) (refuse : List N → Option R)

def IsDir (p : List N) : Prop := ∃ m, t.node p = some (.dir m)

def IsFile (p : List N) : Prop := ∃ c, t.node p = some (.file c)

instance (p : List N) : Decidable (t.IsDir p) :=
  match h : t.node p with
  | some (.dir m) => isTrue ⟨m, h⟩
  | some (.file _) => isFalse fun ⟨_, h'⟩ => by rw [h] at h'; cases h'
  | none => isFalse fun ⟨_, h'⟩ => by rw [h] at h'; cases h'

/-- The location at the end of a path; each one before it has to be a directory. -/
def walk : List N → List (Component N) → Except Obstacle (List N)
  | p, [] => .ok p
  | p, c :: cs =>
    match t.node p with
    | some (.dir _) => walk (c.step p) cs
    | some (.file _) => .error .notDir
    | none => .error .missing

def DirAt (start : List N) (cs : List (Component N)) : Prop := ∃ p, t.walk start cs = .ok p ∧ t.IsDir p

def FileAt (start : List N) (cs : List (Component N)) : Prop := ∃ p, t.walk start cs = .ok p ∧ t.IsFile p

/-- A directory `n` added to the directory `p`. -/
def create [DecidableEq N] (n : N) (p : List N) (m : M) (hp : t.IsDir p) : FileTree N M F where
  node q := if q = n :: p then some (.dir m) else t.node q
  root := by
    rw [if_neg (List.cons_ne_nil n p).symm]
    exact t.root
  closed n' p' h := by
    by_cases hp' : p' = n :: p
    · exact ⟨m, if_pos hp'⟩
    · rw [if_neg hp']
      split at h
      · next heq =>
        cases heq
        exact hp
      · exact t.closed n' p' h

/-- The directory at the end of a path is created, unless it is refused. -/
def mkdir [DecidableEq N] (m : M) (start : List N) (cs : List (Component N)) : Except (Denial R) (FileTree N M F) :=
  match t.walk start cs with
  | .error o => .error (.obstacle o)
  | .ok [] => .error .exist
  | .ok (n :: p) =>
    if t.node (n :: p) ≠ none then .error .exist
    else if h : cs ≠ [] ∧ t.IsDir p then
      match refuse (n :: p) with
      | some reason => .error (.refused reason)
      | none => .ok (t.create n p m h.2)
    else .error (.obstacle .missing)

/-- A directory, or a location where one can be created. -/
def Open (p : List N) : Prop := t.IsDir p ∨ t.node p = none ∧ refuse p = none

/-- Every location before the last one is open. -/
def Reaches : List N → List (Component N) → Prop
  | _, [] => True
  | p, c :: cs => t.Open refuse p ∧ Reaches (c.step p) cs

/-- Only directories in `S` were added. -/
def Grows (S : List N → Prop) (t t' : FileTree N M F) : Prop :=
  ∀ p, t'.node p = t.node p ∨ (S p ∧ t.node p = none ∧ t'.IsDir p)

variable {t refuse} {t' t'' : FileTree N M F} {S : List N → Prop} {p start : List N} {c : Component N}
  {cs ds : List (Component N)}

/-! ### Walks -/

theorem IsDir.ne_none (h : t.IsDir p) : t.node p ≠ none := by
  obtain ⟨m, hm⟩ := h
  rw [hm]
  exact Option.some_ne_none _

theorem IsDir.not_isFile (h : t.IsDir p) : ¬ t.IsFile p := by
  rintro ⟨c, hc⟩
  obtain ⟨m, hm⟩ := h
  rw [hm] at hc
  cases hc

theorem isDir_or_isFile (h : t.node p ≠ none) : t.IsDir p ∨ t.IsFile p := by
  rcases hnode : t.node p with _ | (m | c)
  · exact absurd hnode h
  · exact .inl ⟨m, hnode⟩
  · exact .inr ⟨c, hnode⟩

theorem IsFile.ne_none (h : t.IsFile p) : t.node p ≠ none := by
  obtain ⟨c, hc⟩ := h
  rw [hc]
  exact Option.some_ne_none _

/-- Everything above a directory is there. -/
theorem IsDir.tail (h : t.IsDir p) : t.IsDir p.tail := by
  cases p with
  | nil => exact h
  | cons n p => exact t.closed n p h.ne_none

theorem walk_dir (h : t.IsDir p) : t.walk p (c :: cs) = t.walk (c.step p) cs := by
  obtain ⟨m, hm⟩ := h
  rw [walk, hm]

theorem walk_stops (h : ¬ t.IsDir p) (c : Component N) (cs : List (Component N)) : ∃ o, t.walk p (c :: cs) = .error o := by
  unfold walk
  split
  · next m hm => exact absurd ⟨m, hm⟩ h
  · exact ⟨.notDir, rfl⟩
  · exact ⟨.missing, rfl⟩

theorem walk_append (h : t.walk start cs = .ok p) : t.walk start (cs ++ ds) = t.walk p ds := by
  induction cs generalizing start with
  | nil =>
    cases h
    rfl
  | cons c cs ih =>
    by_cases hd : t.IsDir start
    · rw [walk_dir hd] at h
      rw [List.cons_append, walk_dir hd, ih h]
    · obtain ⟨o, ho⟩ := walk_stops hd c cs
      rw [ho] at h
      cases h

theorem walk_append_error {o : Obstacle} (h : t.walk start cs = .error o) : t.walk start (cs ++ ds) = .error o := by
  induction cs generalizing start with
  | nil => cases h
  | cons c cs ih =>
    rw [List.cons_append]
    unfold walk at h ⊢
    split at h
    · exact ih h
    · exact h
    · exact h

/-- Behind anything but a directory there is nothing. -/
theorem walk_behind (h : ¬ t.DirAt start cs) (hds : ds ≠ []) : ∃ o, t.walk start (cs ++ ds) = .error o := by
  cases hw : t.walk start cs with
  | error o => exact ⟨o, walk_append_error hw⟩
  | ok p =>
    cases ds with
    | nil => exact absurd rfl hds
    | cons c ds =>
      rw [walk_append hw]
      exact walk_stops (fun hd => h ⟨p, hw, hd⟩) c ds

theorem not_dirAt_of_error {o : Obstacle} (h : t.walk start cs = .error o) : ¬ t.DirAt start cs := by
  rintro ⟨p, hp, -⟩
  rw [h] at hp
  cases hp

theorem not_fileAt_of_error {o : Obstacle} (h : t.walk start cs = .error o) : ¬ t.FileAt start cs := by
  rintro ⟨p, hp, -⟩
  rw [h] at hp
  cases hp

theorem not_dirAt_append (h : ¬ t.DirAt start cs) (ds : List (Component N)) : ¬ t.DirAt start (cs ++ ds) := by
  by_cases hds : ds = []
  · rwa [hds, List.append_nil]
  · obtain ⟨o, ho⟩ := walk_behind h hds
    exact not_dirAt_of_error ho

theorem fileAt_append (h : ¬ t.DirAt start cs) : t.FileAt start (cs ++ ds) ↔ ds = [] ∧ t.FileAt start cs := by
  by_cases hds : ds = []
  · rw [hds, List.append_nil, and_iff_right rfl]
  · obtain ⟨o, ho⟩ := walk_behind h hds
    exact iff_of_false (not_fileAt_of_error ho) fun h => hds h.1

theorem dirAt_iff (h : t.walk start cs = .ok p) : t.DirAt start cs ↔ t.IsDir p := by
  constructor
  · rintro ⟨q, hq, hd⟩
    cases h.symm.trans hq
    exact hd
  · exact fun hd => ⟨p, h, hd⟩

theorem fileAt_iff (h : t.walk start cs = .ok p) : t.FileAt start cs ↔ t.IsFile p := by
  constructor
  · rintro ⟨q, hq, hf⟩
    cases h.symm.trans hq
    exact hf
  · exact fun hf => ⟨p, h, hf⟩

theorem walk_step (hw : t.walk start cs = .ok p) (hp : t.IsDir p) : t.walk start (cs ++ [c]) = .ok (c.step p) := by
  rw [walk_append hw, walk_dir hp]
  rfl

/-- Where the next location cannot become a directory, the path leads to it or nowhere. -/
theorem blocked_iff (hw : t.walk start cs = .ok p) (hp : t.IsDir p) (hc : ¬ t.Open refuse (c.step p))
    (ds : List (Component N)) :
    (t.DirAt start (cs ++ c :: ds) ↔ t.Reaches refuse p (c :: ds) ∧ t.Open refuse (follow p (c :: ds))) ∧
    (t.FileAt start (cs ++ c :: ds) ↔ t.Reaches refuse p (c :: ds) ∧ t.IsFile (follow p (c :: ds))) := by
  have hstep : t.walk start (cs ++ [c]) = .ok (c.step p) := walk_step hw hp
  have hdir : ¬ t.DirAt start (cs ++ [c]) := fun hd => hc (.inl ((dirAt_iff hstep).1 hd))
  have hsplit : cs ++ c :: ds = cs ++ [c] ++ ds := by simp
  have hreach : t.Reaches refuse p (c :: ds) ↔ ds = [] := by
    constructor
    · rintro ⟨-, hreach⟩
      cases ds with
      | nil => rfl
      | cons d ds => exact absurd hreach.1 hc
    · rintro rfl
      exact ⟨.inl hp, trivial⟩
  rw [hsplit, hreach, fileAt_append hdir, fileAt_iff hstep]
  constructor
  · refine iff_of_false (not_dirAt_append hdir ds) ?_
    rintro ⟨rfl, ho⟩
    exact hc ho
  · constructor
    · rintro ⟨rfl, hf⟩
      exact ⟨rfl, hf⟩
    · rintro ⟨rfl, hf⟩
      exact ⟨rfl, hf⟩

theorem walk_follow (h : t.walk start cs = .ok p) : p = follow start cs := by
  induction cs generalizing start with
  | nil =>
    cases h
    rfl
  | cons c cs ih =>
    by_cases hd : t.IsDir start
    · rw [walk_dir hd] at h
      exact ih h
    · obtain ⟨o, ho⟩ := walk_stops hd c cs
      rw [ho] at h
      cases h

/-! ### Growth -/

namespace Grows

theorem refl (S : List N → Prop) (t : FileTree N M F) : Grows S t t := fun _ => .inl rfl

theorem isDir (h : Grows S t t') (hd : t.IsDir p) : t'.IsDir p := by
  rcases h p with heq | ⟨-, hnone, -⟩
  · unfold IsDir
    rwa [heq]
  · exact absurd hnone hd.ne_none

theorem trans (h : Grows S t t') (h' : Grows S t' t'') : Grows S t t'' := by
  intro p
  rcases h p with heq | ⟨hS, hnone, hd⟩
  · rw [← heq]
    exact h' p
  · exact .inr ⟨hS, hnone, h'.isDir hd⟩

theorem mono {S' : List N → Prop} (h : Grows S t t') (hS : ∀ p, S p → S' p) : Grows S' t t' := by
  intro p
  rcases h p with heq | ⟨hp, hnone, hd⟩
  · exact .inl heq
  · exact .inr ⟨hS p hp, hnone, hd⟩

theorem isFile_iff (h : Grows S t t') : t'.IsFile p ↔ t.IsFile p := by
  rcases h p with heq | ⟨-, hnone, hd⟩
  · unfold IsFile
    rw [heq]
  · exact iff_of_false hd.not_isFile fun hf => hf.ne_none hnone

/-- What was added was open before. -/
theorem open_iff (h : Grows S t t') (hS : ∀ p, S p → refuse p = none) : t'.Open refuse p ↔ t.Open refuse p := by
  rcases h p with heq | ⟨hp, hnone, hd⟩
  · unfold Open IsDir
    rw [heq]
  · exact iff_of_true (.inl hd) (.inr ⟨hnone, hS p hp⟩)

theorem reaches_iff (h : Grows S t t') (hS : ∀ p, S p → refuse p = none) :
    t'.Reaches refuse p cs ↔ t.Reaches refuse p cs := by
  induction cs generalizing p with
  | nil => exact Iff.rfl
  | cons c cs ih =>
    unfold Reaches
    rw [h.open_iff hS, ih]

theorem walk (h : Grows S t t') (hw : t.walk start cs = .ok p) : t'.walk start cs = .ok p := by
  induction cs generalizing start with
  | nil => exact hw
  | cons c cs ih =>
    by_cases hd : t.IsDir start
    · rw [walk_dir hd] at hw
      rw [walk_dir (h.isDir hd), ih hw]
    · obtain ⟨o, ho⟩ := walk_stops hd c cs
      rw [ho] at hw
      cases hw

end Grows

/-! ### Creation -/

section
variable [DecidableEq N] {m : M}

theorem create_isDir {n : N} (hp : t.IsDir p) : (t.create n p m hp).IsDir (n :: p) := ⟨m, if_pos rfl⟩

theorem create_grows {n : N} (hp : t.IsDir p) (hnone : t.node (n :: p) = none) :
    Grows (· = n :: p) t (t.create n p m hp) := by
  intro q
  by_cases hq : q = n :: p
  · rw [hq]
    exact .inr ⟨rfl, hnone, create_isDir hp⟩
  · exact .inl (if_neg hq)

theorem mkdir_exist (refuse : List N → Option R) (m : M) (hw : t.walk start cs = .ok p) (hp : t.node p ≠ none) :
    t.mkdir refuse m start cs = .error .exist := by
  unfold mkdir
  rw [hw]
  cases p with
  | nil => rfl
  | cons n p => exact if_pos hp

/-- What `mkdir` does in a directory. -/
theorem mkdir_step (refuse : List N → Option R) (m : M) (hw : t.walk start cs = .ok p) (hp : t.IsDir p) (c : Component N) :
    (t.node (c.step p) ≠ none ∧ t.mkdir refuse m start (cs ++ [c]) = .error .exist) ∨
    (∃ reason, t.node (c.step p) = none ∧ refuse (c.step p) = some reason ∧
      t.mkdir refuse m start (cs ++ [c]) = .error (.refused reason)) ∨
    (∃ t', t.node (c.step p) = none ∧ refuse (c.step p) = none ∧ t.mkdir refuse m start (cs ++ [c]) = .ok t' ∧
      t'.IsDir (c.step p) ∧ Grows (· = c.step p) t t') := by
  have hwalk : t.walk start (cs ++ [c]) = .ok (c.step p) := walk_step hw hp
  cases c with
  | here => exact .inl ⟨hp.ne_none, mkdir_exist refuse m hwalk hp.ne_none⟩
  | up => exact .inl ⟨hp.tail.ne_none, mkdir_exist refuse m hwalk hp.tail.ne_none⟩
  | name n =>
    by_cases hnone : t.node (n :: p) = none
    · have hcond : cs ++ [Component.name n] ≠ [] ∧ t.IsDir p := ⟨by simp, hp⟩
      have hmk : t.mkdir refuse m start (cs ++ [.name n]) =
          match refuse (n :: p) with
          | some reason => .error (.refused reason)
          | none => .ok (t.create n p m hp) := by
        unfold mkdir
        rw [hwalk]
        simp only [Component.step, ne_eq, hnone, not_true_eq_false, if_false]
        rw [dif_pos hcond]
      rw [hmk]
      cases hrefuse : refuse (n :: p) with
      | some reason => exact .inr (.inl ⟨reason, hnone, hrefuse, rfl⟩)
      | none => exact .inr (.inr ⟨_, hnone, hrefuse, rfl, create_isDir hp, create_grows hp hnone⟩)
    · exact .inl ⟨hnone, mkdir_exist refuse m hwalk hnone⟩

/-- A directory that is not created is there just where the reason is that something is. -/
theorem mkdir_exist_iff {f : Denial R} (h : t.mkdir refuse m start cs = .error f) :
    f = .exist ↔ t.DirAt start cs ∨ t.FileAt start cs := by
  unfold mkdir at h
  cases hw : t.walk start cs with
  | error o =>
    rw [hw] at h
    cases h
    exact iff_of_false (by simp) (not_or.2 ⟨not_dirAt_of_error hw, not_fileAt_of_error hw⟩)
  | ok p =>
    rw [hw] at h
    rw [dirAt_iff hw, fileAt_iff hw]
    cases p with
    | nil =>
      cases h
      exact iff_of_true rfl (.inl t.root)
    | cons n p =>
      by_cases hnone : t.node (n :: p) = none
      · have hf : f ≠ .exist := by
          rintro rfl
          simp only [ne_eq, hnone, not_true_eq_false, if_false] at h
          split at h
          · split at h <;> cases h
          · cases h
        exact iff_of_false hf (not_or.2 ⟨fun hd => hd.ne_none hnone, fun hf => hf.ne_none hnone⟩)
      · simp only [if_pos hnone] at h
        cases h
        exact iff_of_true rfl (isDir_or_isFile hnone)

/-- The start of a path is never created. -/
theorem mkdir_start (t : FileTree N M F) (refuse : List N → Option R) (m : M) (start : List N) :
    ∃ f, t.mkdir refuse m start [] = .error f := by
  unfold mkdir walk
  cases start with
  | nil => exact ⟨_, rfl⟩
  | cons n p =>
    simp only [ne_eq, not_true_eq_false, false_and, dite_false]
    split
    · exact ⟨_, rfl⟩
    · exact ⟨_, rfl⟩

/-- What is behind a location that is no directory, and is not created, is not created either. -/
theorem mkdir_behind {f : Denial R} (h : t.mkdir refuse m start cs = .error f) (hd : ¬ t.DirAt start cs)
    (ds : List (Component N)) : ∃ f, t.mkdir refuse m start (cs ++ ds) = .error f := by
  by_cases hds : ds = []
  · rw [hds, List.append_nil]
    exact ⟨f, h⟩
  · obtain ⟨o, ho⟩ := walk_behind hd hds
    unfold mkdir
    rw [ho]
    exact ⟨.obstacle o, rfl⟩

end

end FileTree

import Pcl.Lib.FileTree
import Mathlib.Data.List.Nodup
import Mathlib.Data.List.Infix

/-!
# Trees with links, and removal

`resolve` follows a path as `walk` does, and every link on its way, up to a number of them. `Shrinks S t t'`: `t'` is `t`
without some of what is in `S`. Where only removals happened, a path that still leads somewhere leads where it did
(`Shrinks.resolve`); and `emptied q` has all of the tree but what is below `q`, so that a path that leads to `q` there
leads to it as long as nothing else was removed.

A `Volume` also lists the names in each directory.
-/

namespace FileTree
variable {N M F : Type}

structure Link (N : Type) where
  absolute : Bool
  target : List (Component N)

/-- What stops a path that may pass links. -/
inductive Astray where
  | obstacle (o : Obstacle)
  | loop
deriving DecidableEq

section
variable (t : FileTree N M F) (link : F → Option (Link N))

def linkAt (p : List N) : Option (Link N) :=
  match t.node p with
  | some (.file c) => link c
  | _ => none

/-- The path is followed to its end or to the first link, where it goes on with `jump`. -/
def resolveStep (jump : List N → List (Component N) → Except Astray (List N)) :
    List N → List (Component N) → Except Astray (List N)
  | p, [] => .ok p
  | p, c :: cs =>
    match t.node p with
    | none => .error (.obstacle .missing)
    | some (.file _) => .error (.obstacle .notDir)
    | some (.dir _) =>
      match t.linkAt link (c.step p) with
      | none => resolveStep jump (c.step p) cs
      | some l => jump (if l.absolute then [] else p) (l.target ++ cs)

/-- The location at the end of a path with at most `k` links on it. -/
def resolve : Nat → List N → List (Component N) → Except Astray (List N)
  | 0 => resolveStep t link fun _ _ => .error .loop
  | k + 1 => resolveStep t link (resolve k)

/-- All but what is below `q`. -/
def emptied [DecidableEq N] (q : List N) : FileTree N M F where
  node p := if q <:+ p ∧ p ≠ q then none else t.node p
  root := by
    have hroot : ¬ (q <:+ [] ∧ [] ≠ q) := fun h => h.2 (List.suffix_nil.1 h.1).symm
    rw [if_neg hroot]
    exact t.root
  closed n p h := by
    by_cases hn : q <:+ n :: p ∧ n :: p ≠ q
    · exact absurd (if_pos hn) h
    · rw [if_neg hn] at h
      have hp : ¬ (q <:+ p ∧ p ≠ q) := by
        rintro ⟨hq, -⟩
        have hlen := hq.length_le
        refine hn ⟨hq.trans (List.suffix_cons n p), fun heq => ?_⟩
        rw [← heq, List.length_cons] at hlen
        omega
      rw [if_neg hp]
      exact t.closed n p h

end

/-- Some of what is in `S` is gone; everything else is as before. -/
def Shrinks (S : List N → Prop) (t t' : FileTree N M F) : Prop := ∀ p, t'.node p = t.node p ∨ (S p ∧ t'.node p = none)

section
variable {t t' t'' : FileTree N M F} {link : F → Option (Link N)} {S S' : List N → Prop} {p q start : List N}
  {c : Component N} {cs : List (Component N)} {k : Nat}

/-! ### Paths -/

theorem linkAt_dir (h : t.IsDir p) : t.linkAt link p = none := by
  obtain ⟨m, hm⟩ := h
  unfold linkAt
  rw [hm]

theorem resolveStep_cons (jump : List N → List (Component N) → Except Astray (List N)) (hd : t.IsDir p) :
    t.resolveStep link jump p (c :: cs) =
      match t.linkAt link (c.step p) with
      | none => t.resolveStep link jump (c.step p) cs
      | some l => jump (if l.absolute then [] else p) (l.target ++ cs) := by
  obtain ⟨m, hm⟩ := hd
  rw [resolveStep, hm]

theorem isDir_of_resolveStep {jump : List N → List (Component N) → Except Astray (List N)}
    (h : t.resolveStep link jump p (c :: cs) = .ok q) : t.IsDir p := by
  rw [resolveStep] at h
  split at h
  · cases h
  · cases h
  · next m hm => exact ⟨m, hm⟩

theorem resolveStep_snoc {jump : List N → List (Component N) → Except Astray (List N)} (hq : t.IsDir q)
    (hlink : t.linkAt link (c.step q) = none)
    (hjump : ∀ p cs, jump p cs = .ok q → jump p (cs ++ [c]) = .ok (c.step q))
    (h : t.resolveStep link jump p cs = .ok q) : t.resolveStep link jump p (cs ++ [c]) = .ok (c.step q) := by
  induction cs generalizing p with
  | nil =>
    cases h
    rw [List.nil_append, resolveStep_cons jump hq, hlink, resolveStep]
  | cons d cs ih =>
    have hd := isDir_of_resolveStep h
    rw [resolveStep_cons jump hd] at h
    rw [List.cons_append, resolveStep_cons jump hd]
    cases hl : t.linkAt link (d.step p) with
    | none =>
      rw [hl] at h
      exact ih h
    | some l =>
      rw [hl] at h
      simp only at h ⊢
      rw [← List.append_assoc]
      exact hjump _ _ h

/-- One component more, which is no link. -/
theorem resolve_snoc (h : t.resolve link k start cs = .ok p) (hp : t.IsDir p) (hlink : t.linkAt link (c.step p) = none) :
    t.resolve link k start (cs ++ [c]) = .ok (c.step p) := by
  induction k generalizing start cs with
  | zero => exact resolveStep_snoc hp hlink (fun _ _ h => nomatch h) h
  | succ k ih => exact resolveStep_snoc hp hlink (fun _ _ h => ih h) h

theorem resolveStep_init {jump : List N → List (Component N) → Except Astray (List N)}
    (hjump : ∀ p cs, jump p (cs ++ [c]) = .ok q → ∃ p', jump p cs = .ok p' ∧ t.IsDir p')
    (h : t.resolveStep link jump p (cs ++ [c]) = .ok q) : ∃ p', t.resolveStep link jump p cs = .ok p' ∧ t.IsDir p' := by
  induction cs generalizing p with
  | nil => exact ⟨p, rfl, isDir_of_resolveStep h⟩
  | cons d cs ih =>
    rw [List.cons_append] at h
    have hd := isDir_of_resolveStep h
    rw [resolveStep_cons jump hd] at h ⊢
    cases hl : t.linkAt link (d.step p) with
    | none =>
      rw [hl] at h
      exact ih h
    | some l =>
      rw [hl] at h
      simp only at h ⊢
      rw [← List.append_assoc] at h
      exact hjump _ _ h

/-- A path that leads somewhere leads to a directory without its last component. -/
theorem resolve_init (h : t.resolve link k start (cs ++ [c]) = .ok q) :
    ∃ p, t.resolve link k start cs = .ok p ∧ t.IsDir p := by
  induction k generalizing start cs with
  | zero => exact resolveStep_init (fun _ _ h => by cases h) h
  | succ k ih => exact resolveStep_init (fun _ _ h => ih h) h

/-- A directory that the last name of a path names. -/
theorem resolve_child {n : N} (h : t.resolve link k start cs = .ok p) (hn : t.IsDir (n :: p)) :
    t.resolve link k start (cs ++ [.name n]) = .ok (n :: p) :=
  resolve_snoc h (t.closed n p hn.ne_none) (linkAt_dir hn)

/-! ### Removals -/

namespace Shrinks

theorem refl (S : List N → Prop) (t : FileTree N M F) : Shrinks S t t := fun _ => .inl rfl

theorem trans (h : Shrinks S t t') (h' : Shrinks S t' t'') : Shrinks S t t'' := by
  intro p
  rcases h' p with heq | hgone
  · rw [heq]
    exact h p
  · exact .inr hgone

theorem mono (h : Shrinks S t t') (hS : ∀ p, S p → S' p) : Shrinks S' t t' := by
  intro p
  rcases h p with heq | ⟨hp, hnone⟩
  · exact .inl heq
  · exact .inr ⟨hS p hp, hnone⟩

theorem node_eq (h : Shrinks S t t') (hp : t'.node p ≠ none) : t'.node p = t.node p := by
  rcases h p with heq | ⟨-, hnone⟩
  · exact heq
  · exact absurd hnone hp

theorem outside (h : Shrinks S t t') (hp : ¬ S p) : t'.node p = t.node p := by
  rcases h p with heq | ⟨hS, -⟩
  · exact heq
  · exact absurd hS hp

theorem isDir (h : Shrinks S t t') (hd : t'.IsDir p) : t.IsDir p := by
  have := h.node_eq hd.ne_none
  unfold IsDir at hd ⊢
  rwa [← this]

theorem ne_none (h : Shrinks S t t') (hp : t'.node p ≠ none) : t.node p ≠ none := by
  rwa [← h.node_eq hp]

theorem isDir_outside (h : Shrinks S t t') (hp : ¬ S p) (hd : t.IsDir p) : t'.IsDir p := by
  unfold IsDir at hd ⊢
  rwa [h.outside hp]

theorem resolveStep {jump jump' : List N → List (Component N) → Except Astray (List N)} (h : Shrinks S t t')
    (hjump : ∀ p cs, jump' p cs = .ok q → jump p cs = .ok q) (hq : t'.node q ≠ none)
    (hr : t'.resolveStep link jump' p cs = .ok q) : t.resolveStep link jump p cs = .ok q := by
  induction cs generalizing p with
  | nil => exact hr
  | cons c cs ih =>
    have hd := isDir_of_resolveStep hr
    rw [resolveStep_cons jump' hd] at hr
    rw [resolveStep_cons jump (h.isDir hd)]
    by_cases hthere : t'.node (c.step p) = none
    · -- the path ends here, or it would not lead anywhere
      have hlink : t'.linkAt link (c.step p) = none := by
        unfold linkAt
        rw [hthere]
      rw [hlink] at hr
      cases cs with
      | nil =>
        cases hr
        exact absurd hthere hq
      | cons c' cs => exact absurd hthere (isDir_of_resolveStep hr).ne_none
    · have hsame : t'.linkAt link (c.step p) = t.linkAt link (c.step p) := by
        unfold linkAt
        rw [h.node_eq hthere]
      rw [hsame] at hr
      cases hl : t.linkAt link (c.step p) with
      | none =>
        rw [hl] at hr
        exact ih hr
      | some l =>
        rw [hl] at hr
        exact hjump _ _ hr

/-- A path does not come to lead elsewhere. -/
theorem resolve (h : Shrinks S t t') (hr : t'.resolve link k start cs = .ok q) (hq : t'.node q ≠ none) :
    t.resolve link k start cs = .ok q := by
  induction k generalizing start cs with
  | zero =>
    unfold FileTree.resolve at hr ⊢
    exact h.resolveStep (fun _ _ hno => by cases hno) hq hr
  | succ k ih => exact h.resolveStep (fun _ _ hr => ih hr) hq hr

end Shrinks

/-! ### Below a directory -/

theorem not_below_self (n : N) (q : List N) : ¬ n :: q <:+ q := by
  intro h
  have hlen := h.length_le
  rw [List.length_cons] at hlen
  omega

theorem ne_none_of_below (h : q <:+ p) (hp : t.node p ≠ none) : t.node q ≠ none := by
  induction p with
  | nil => rwa [List.suffix_nil.1 h]
  | cons n p ih =>
    rcases List.suffix_cons_iff.1 h with rfl | h
    · exact hp
    · obtain ⟨m, hm⟩ := t.closed n p hp
      exact ih h (by rw [hm]; exact Option.some_ne_none _)

/-- Of two locations in a directory neither is below the other. -/
theorem disjoint_children {m n : N} (hne : m ≠ n) (h : m :: q <:+ p) : ¬ n :: q <:+ p := by
  intro h'
  have heq := (List.suffix_of_suffix_length_le h h' (Nat.le_refl _)).eq_of_length rfl
  exact hne (List.cons.inj heq).1

section
variable [DecidableEq N]

theorem emptied_self : (t.emptied q).node q = t.node q := if_neg fun h => h.2 rfl

theorem emptied_isDir (h : t.IsDir q) : (t.emptied q).IsDir q := by
  unfold IsDir
  rwa [emptied_self]

/-- What has only lost something below `q` keeps all that `emptied q` has. -/
theorem Shrinks.emptied (h : Shrinks (fun p => q <:+ p ∧ p ≠ q) t t') :
    Shrinks (fun p => q <:+ p ∧ p ≠ q) t' (t.emptied q) := by
  intro p
  by_cases hp : q <:+ p ∧ p ≠ q
  · exact .inr ⟨hp, if_pos hp⟩
  · exact .inl ((if_neg hp).trans (h.outside hp).symm)

theorem emptied_eq (h : Shrinks (fun p => q <:+ p ∧ p ≠ q) t t') : t'.emptied q = t.emptied q := by
  unfold FileTree.emptied
  congr 1
  funext p
  by_cases hp : q <:+ p ∧ p ≠ q
  · rw [if_pos hp, if_pos hp]
  · rw [if_neg hp, if_neg hp, h.outside hp]

theorem emptied_child (t : FileTree N M F) (n : N) (q : List N) :
    Shrinks (fun p => q <:+ p ∧ p ≠ q) (t.emptied (n :: q)) (t.emptied q) := by
  refine Shrinks.emptied fun p => ?_
  by_cases hp : n :: q <:+ p ∧ p ≠ n :: q
  · have hq : q <:+ p := (List.suffix_cons n q).trans hp.1
    exact .inr ⟨⟨hq, fun heq => not_below_self n q (heq ▸ hp.1)⟩, if_pos hp⟩
  · exact .inl (if_neg hp)

end

end

end FileTree

open FileTree in
/-- A tree and the names in each of its directories. -/
structure Volume (N M F : Type) extends FileTree N M F where
  names : List N → List N
  nodup : ∀ p, (names p).Nodup
  mem_names : ∀ n p, n ∈ names p ↔ node (n :: p) ≠ none

namespace Volume
variable {N M F : Type} (v : Volume N M F)

/-- `n` is removed from the directory `p`; it has nothing in it. -/
def remove [DecidableEq N] (n : N) (p : List N) (h : v.names (n :: p) = []) : Volume N M F where
  node q := if q = n :: p then none else v.node q
  root := by
    rw [if_neg (List.cons_ne_nil n p).symm]
    exact v.root
  closed n' q hq := by
    by_cases heq : q = n :: p
    · subst heq
      rw [if_neg (List.cons_ne_self n' (n :: p)), ← v.mem_names, h] at hq
      cases hq
    · rw [if_neg heq]
      by_cases hn : n' :: q = n :: p
      · exact absurd (if_pos hn) hq
      · rw [if_neg hn] at hq
        exact v.closed n' q hq
  names q := if q = p then (v.names p).erase n else v.names q
  nodup q := by
    split
    · exact (v.nodup p).erase n
    · exact v.nodup q
  mem_names n' q := by
    by_cases hq : q = p
    · subst hq
      rw [if_pos rfl, (v.nodup q).mem_erase_iff]
      by_cases hn : n' = n
      · simp [hn]
      · simp [hn, v.mem_names]
    · have hne : n' :: q ≠ n :: p := fun heq => hq (List.cons.inj heq).2
      rw [if_neg hq, if_neg hne]
      exact v.mem_names n' q

variable {v} {n : N} {p : List N} {S : List N → Prop}

theorem names_eq_nil_iff : v.names p = [] ↔ ∀ n, v.node (n :: p) = none := by
  simp only [List.eq_nil_iff_forall_not_mem, v.mem_names, ne_eq, not_not]

theorem remove_shrinks [DecidableEq N] (h : v.names (n :: p) = []) (hS : S (n :: p)) :
    FileTree.Shrinks S v.toFileTree (v.remove n p h).toFileTree := by
  intro q
  by_cases hq : q = n :: p
  · subst hq
    exact .inr ⟨hS, if_pos rfl⟩
  · exact .inl (if_neg hq)

end Volume

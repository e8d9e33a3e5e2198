import Mathlib.Data.List.Nodup
import Mathlib.Logic.Function.Basic
import Mathlib.Tactic.Common

/-!
# Descriptor tables

The open descriptors of a process and what the system calls do to them. `Adds base l t`: `t` has the descriptors of
`base`, and those of `l` beside them.

`Forked`: a parent and a child, each with a list of calls to make. They share nothing but a pipe, which the child writes
to and the parent reads from; the parent waits until there is something to read or nobody is left to write. Steps of the
two commute (`Step.diamond`), so all schedules end in the same state (`all_schedules`).
-/

namespace Pcl

structure Descriptor (F : Type) where
  file : F
  cloexec : Bool

abbrev FdTable (F : Type) := Nat → Option (Descriptor F)

namespace FdTable
variable {F : Type}

/-- The lowest descriptor below `limit` that is not open. -/
def lowest (t : FdTable F) (limit : Nat) : Option Nat := (List.range limit).find? fun fd => (t fd).isNone

def opened (t : FdTable F) (fd : Nat) (f : F) : FdTable F := Function.update t fd (some ⟨f, false⟩)

def close (t : FdTable F) (fd : Nat) : FdTable F := Function.update t fd none

def setCloexec (t : FdTable F) (fd : Nat) : FdTable F := Function.update t fd ((t fd).map fun d => { d with cloexec := true })

def dup2 (t : FdTable F) (fd fd' : Nat) : FdTable F :=
  if fd = fd' then t
  else match t fd with
    | none => t
    | some d => Function.update t fd' (some ⟨d.file, false⟩)

/-- What is left for the program that is executed. -/
def afterExec (t : FdTable F) : FdTable F := fun fd => (t fd).filter fun d => !d.cloexec

/-- The open file of a descriptor. -/
def file (t : FdTable F) (fd : Nat) : Option F := (t fd).map Descriptor.file

/-- `t` has the descriptors of `base`, and those of `l` beside them. -/
structure Adds (base : FdTable F) (l : List (Nat × Descriptor F)) (t : FdTable F) : Prop where
  nodup : (l.map Prod.fst).Nodup
  unused : ∀ p ∈ l, base p.1 = none
  added : ∀ p ∈ l, t p.1 = some p.2
  rest : ∀ fd, fd ∉ l.map Prod.fst → t fd = base fd

section
variable {base t : FdTable F} {l l' : List (Nat × Descriptor F)} {fd fd' limit : Nat} {f : F} {d : Descriptor F}

theorem lowest_unused (h : t.lowest limit = some fd) : t fd = none := by
  have := List.find?_some h
  rwa [Option.isNone_iff_eq_none] at this

namespace Adds

theorem nil (t : FdTable F) : Adds t [] t := by
  refine ⟨List.nodup_nil, ?_, ?_, fun _ _ => rfl⟩
  · intro p hp
    cases hp
  · intro p hp
    cases hp

theorem eq_base (h : Adds base [] t) : t = base := funext fun fd => h.rest fd List.not_mem_nil

theorem perm (h : Adds base l t) (hp : l.Perm l') : Adds base l' t where
  nodup := (hp.map Prod.fst).nodup_iff.1 h.nodup
  unused p hm := h.unused p (hp.mem_iff.2 hm)
  added p hm := h.added p (hp.mem_iff.2 hm)
  rest fd hfd := h.rest fd fun hm => hfd ((hp.map Prod.fst).mem_iff.1 hm)

/-- A descriptor that is not open is in neither part. -/
theorem unused_of_none (h : Adds base l t) (hfd : t fd = none) : base fd = none ∧ fd ∉ l.map Prod.fst := by
  have hnot : fd ∉ l.map Prod.fst := by
    intro hm
    obtain ⟨p, hp, rfl⟩ := List.mem_map.1 hm
    cases (h.added p hp).symm.trans hfd
  exact ⟨(h.rest fd hnot).symm.trans hfd, hnot⟩

/-- What is open in the base is not among the added. -/
theorem not_added (h : Adds base l t) (hfd : (base fd).isSome = true) : fd ∉ l.map Prod.fst := by
  intro hm
  obtain ⟨p, hp, rfl⟩ := List.mem_map.1 hm
  rw [h.unused p hp] at hfd
  cases hfd

theorem opened (h : Adds base l t) (hfd : t fd = none) (f : F) : Adds base ((fd, ⟨f, false⟩) :: l) (t.opened fd f) := by
  obtain ⟨hbase, hnot⟩ := h.unused_of_none hfd
  refine ⟨List.nodup_cons.2 ⟨hnot, h.nodup⟩, ?_, ?_, ?_⟩
  · rintro p hp
    rcases List.mem_cons.1 hp with rfl | hp
    · exact hbase
    · exact h.unused p hp
  · rintro p hp
    rcases List.mem_cons.1 hp with rfl | hp
    · exact Function.update_self ..
    · have hne : p.1 ≠ fd := fun heq => hnot (List.mem_map.2 ⟨p, hp, heq⟩)
      exact (Function.update_of_ne hne ..).trans (h.added p hp)
  · intro x hx
    rw [List.map_cons, List.mem_cons, not_or] at hx
    exact (Function.update_of_ne hx.1 ..).trans (h.rest x hx.2)

theorem close (h : Adds base ((fd, d) :: l) t) : Adds base l (t.close fd) := by
  obtain ⟨hnot, hnd⟩ := List.nodup_cons.1 h.nodup
  refine ⟨hnd, fun p hp => h.unused p (List.mem_cons_of_mem _ hp), fun p hp => ?_, fun x hx => ?_⟩
  · have hne : p.1 ≠ fd := fun heq => hnot (List.mem_map.2 ⟨p, hp, heq⟩)
    exact (Function.update_of_ne hne ..).trans (h.added p (List.mem_cons_of_mem _ hp))
  · by_cases heq : x = fd
    · subst heq
      exact (Function.update_self ..).trans (h.unused (x, d) List.mem_cons_self).symm
    · refine (Function.update_of_ne heq ..).trans (h.rest x ?_)
      rw [List.map_cons, List.mem_cons, not_or]
      exact ⟨heq, hx⟩

/-- Closing all of some descriptors. -/
theorem closeAll (fds : List (Nat × Descriptor F)) (h : Adds base (fds ++ l) t) :
    Adds base l ((fds.map Prod.fst).foldl FdTable.close t) := by
  induction fds generalizing t with
  | nil => exact h
  | cons p fds ih => exact ih (Adds.close (d := p.2) h)

theorem setCloexec (h : Adds base ((fd, d) :: l) t) : Adds base ((fd, { d with cloexec := true }) :: l) (t.setCloexec fd) := by
  obtain ⟨hnot, hnd⟩ := List.nodup_cons.1 h.nodup
  refine ⟨h.nodup, ?_, ?_, ?_⟩
  · intro p hp
    rcases List.mem_cons.1 hp with rfl | hp
    · exact h.unused (fd, d) List.mem_cons_self
    · exact h.unused p (List.mem_cons_of_mem _ hp)
  · intro p hp
    rcases List.mem_cons.1 hp with rfl | hp
    · refine (Function.update_self ..).trans ?_
      rw [h.added (fd, d) List.mem_cons_self]
      rfl
    · have hne : p.1 ≠ fd := fun heq => hnot (List.mem_map.2 ⟨p, hp, heq⟩)
      exact (Function.update_of_ne hne ..).trans (h.added p (List.mem_cons_of_mem _ hp))
  · intro x hx
    have hne : x ≠ fd := fun heq => hx (heq ▸ List.mem_cons_self)
    exact (Function.update_of_ne hne ..).trans (h.rest x hx)

/-- An added file takes the place of one of the base. -/
theorem dup2 (h : Adds base ((fd, d) :: l) t) (hfd' : (base fd').isSome = true) :
    Adds (Function.update base fd' (some ⟨d.file, false⟩)) ((fd, d) :: l) (t.dup2 fd fd') := by
  have hnot := h.not_added hfd'
  have hne {x : Nat} (hx : x ∈ ((fd, d) :: l).map Prod.fst) : x ≠ fd' := fun heq => hnot (heq ▸ hx)
  have hrun : t.dup2 fd fd' = Function.update t fd' (some ⟨d.file, false⟩) := by
    unfold FdTable.dup2
    rw [if_neg (hne List.mem_cons_self), h.added (fd, d) List.mem_cons_self]
  rw [hrun]
  refine ⟨h.nodup, fun p hp => ?_, fun p hp => ?_, fun x hx => ?_⟩
  · exact (Function.update_of_ne (hne (List.mem_map_of_mem hp)) ..).trans (h.unused p hp)
  · exact (Function.update_of_ne (hne (List.mem_map_of_mem hp)) ..).trans (h.added p hp)
  · by_cases heq : x = fd'
    · subst heq
      rw [Function.update_self, Function.update_self]
    · rw [Function.update_of_ne heq, Function.update_of_ne heq]
      exact h.rest x hx

/-- Nothing of what is added is left behind an `exec`. -/
theorem afterExec (h : Adds base l t) (hall : ∀ p ∈ l, p.2.cloexec = true) : t.afterExec = base.afterExec := by
  funext fd
  unfold FdTable.afterExec
  by_cases hfd : fd ∈ l.map Prod.fst
  · obtain ⟨p, hp, rfl⟩ := List.mem_map.1 hfd
    rw [h.added p hp, h.unused p hp]
    simp [hall p hp]
  · rw [h.rest fd hfd]

end Adds
end
end FdTable

/-! ### Random descent -/

section
variable {σ : Type} {r : σ → σ → Prop}

/-- `n` steps. -/
inductive Steps (r : σ → σ → Prop) : Nat → σ → σ → Prop
  | refl (s : σ) : Steps r 0 s s
  | head {n : Nat} {s t u : σ} (h : r s t) (hs : Steps r n t u) : Steps r (n + 1) s u

theorem Steps.trans {m n : Nat} {s t u : σ} (h : Steps r m s t) (h' : Steps r n t u) : Steps r (m + n) s u := by
  induction h with
  | refl => simpa using h'
  | head hstep _ ih =>
    have := Steps.head hstep (ih h')
    rwa [Nat.add_right_comm] at this

/-- Two different steps lead to the same state, with one step more each. -/
def Diamond (r : σ → σ → Prop) : Prop := ∀ s t u, r s t → r s u → t = u ∨ ∃ v, r t v ∧ r u v

/-- A step does not lead away from the end. -/
theorem Diamond.step (hd : Diamond r) {n : Nat} {s t e : σ} (h : Steps r n s e) (hend : ∀ u, ¬ r e u) (hst : r s t) :
    ∃ k, k + 1 = n ∧ Steps r k t e := by
  induction h generalizing t with
  | refl => exact (hend t hst).elim
  | @head n s u e hsu hs ih =>
    rcases hd s t u hst hsu with rfl | ⟨v, htv, huv⟩
    · exact ⟨n, rfl, hs⟩
    · obtain ⟨k, hk, hv⟩ := ih hend huv
      exact ⟨k + 1, by rw [hk], .head htv hv⟩

/-- If one run ends, all do, in the same state and after the same number of steps. -/
theorem Diamond.all_runs (hd : Diamond r) {n : Nat} {s e : σ} (h : Steps r n s e) (hend : ∀ u, ¬ r e u) {m : Nat} {t : σ}
    (ht : Steps r m s t) : ∃ k, m + k = n ∧ Steps r k t e := by
  induction ht generalizing n with
  | refl => exact ⟨n, Nat.zero_add n, h⟩
  | head hstep _ ih =>
    obtain ⟨n', rfl, h'⟩ := hd.step h hend hstep
    obtain ⟨k, hk, hs⟩ := ih h'
    exact ⟨k, by omega, hs⟩

end

/-! ### Two processes -/

/-- A call on the caller's own descriptors. -/
inductive OwnAct where
  | close (fd : Nat)
  | cloexec (fd : Nat)
  | dup2 (fd fd' : Nat)
  | exec
  | exit

/-- A call of the parent; `onData` is made if something was read. -/
inductive ParentAct where
  | own (a : OwnAct)
  | read (fd : Nat)
  | onData (a : OwnAct)

inductive ChildAct (V : Type) where
  | own (a : OwnAct)
  | write (fd : Nat) (v : V)

def OwnAct.run {F : Type} (t : FdTable F) : OwnAct → FdTable F
  | close fd => t.close fd
  | cloexec fd => t.setCloexec fd
  | dup2 fd fd' => t.dup2 fd fd'
  | exec => t.afterExec
  | exit => fun _ => none

/-- The two processes, and what is in the pipe. -/
structure Forked (F V : Type) where
  parent : FdTable F
  parentActs : List ParentAct
  got : Option V
  child : FdTable F
  childActs : List (ChildAct V)
  buf : List V

namespace Forked
variable {F V : Type}

/-- One of them makes its next call; the ends of the pipe are `rd` and `wr`. -/
inductive Step (rd wr : F) : Forked F V → Forked F V → Prop
  | parent {s : Forked F V} {a : OwnAct} {as : List ParentAct} (h : s.parentActs = .own a :: as) :
    Step rd wr s { s with parent := a.run s.parent, parentActs := as }
  | onData {s : Forked F V} {a : OwnAct} {as : List ParentAct} (h : s.parentActs = .onData a :: as) :
    Step rd wr s { s with parent := if s.got.isSome then a.run s.parent else s.parent, parentActs := as }
  | data {s : Forked F V} {fd : Nat} {as : List ParentAct} {v : V} {vs : List V} (h : s.parentActs = .read fd :: as)
    (hfd : s.parent.file fd = some rd) (hbuf : s.buf = v :: vs) :
    Step rd wr s { s with parentActs := as, got := some v, buf := vs }
  | eof {s : Forked F V} {fd : Nat} {as : List ParentAct} (h : s.parentActs = .read fd :: as)
    (hfd : s.parent.file fd = some rd) (hbuf : s.buf = []) (hparent : ∀ fd, s.parent.file fd ≠ some wr)
    (hchild : ∀ fd, s.child.file fd ≠ some wr) : Step rd wr s { s with parentActs := as, got := none }
  | child {s : Forked F V} {a : OwnAct} {as : List (ChildAct V)} (h : s.childActs = .own a :: as) :
    Step rd wr s { s with child := a.run s.child, childActs := as }
  | write {s : Forked F V} {fd : Nat} {v : V} {as : List (ChildAct V)} (h : s.childActs = .write fd v :: as)
    (hfd : s.child.file fd = some wr) : Step rd wr s { s with childActs := as, buf := s.buf ++ [v] }

variable {rd wr : F} {s t u : Forked F V}

/-- A process opens no files by itself. -/
theorem run_file {a : OwnAct} {t : FdTable F} {f : F} (h : ∀ fd, t.file fd ≠ some f) (fd : Nat) :
    (a.run t).file fd ≠ some f := by
  unfold FdTable.file at h ⊢
  cases a with
  | close fd' =>
    by_cases heq : fd = fd'
    · subst heq
      simp [OwnAct.run, FdTable.close]
    · simpa [OwnAct.run, FdTable.close, heq] using h fd
  | cloexec fd' =>
    by_cases heq : fd = fd'
    · subst heq
      simpa [OwnAct.run, FdTable.setCloexec, Option.map_map, Function.comp_def] using h fd
    · simpa [OwnAct.run, FdTable.setCloexec, heq] using h fd
  | dup2 fd₁ fd₂ =>
    unfold OwnAct.run FdTable.dup2
    simp only
    split
    · exact h fd
    · cases hd : t fd₁ with
      | none => exact h fd
      | some d =>
        by_cases heq : fd = fd₂
        · subst heq
          have := h fd₁
          rw [hd] at this
          simpa using this
        · simpa [heq] using h fd
  | exec =>
    intro hexec
    obtain ⟨d, hd, rfl⟩ := Option.map_eq_some_iff.1 hexec
    refine h fd ?_
    rw [(Option.filter_eq_some_iff.1 hd).1]
    rfl
  | exit => simp [OwnAct.run]

theorem Step.diamond : Diamond (Step (V := V) rd wr) := by
  intro s t u ht hu
  cases ht with
  | parent h =>
    cases hu with
    | parent h' => cases h.symm.trans h'; exact .inl rfl
    | onData h' => cases h.symm.trans h'
    | data h' => cases h.symm.trans h'
    | eof h' => cases h.symm.trans h'
    | child h' => exact .inr ⟨_, .child h', .parent h⟩
    | write h' hfd => exact .inr ⟨_, .write h' hfd, .parent h⟩
  | onData h =>
    cases hu with
    | parent h' => cases h.symm.trans h'
    | onData h' => cases h.symm.trans h'; exact .inl rfl
    | data h' => cases h.symm.trans h'
    | eof h' => cases h.symm.trans h'
    | child h' => exact .inr ⟨_, .child h', .onData h⟩
    | write h' hfd => exact .inr ⟨_, .write h' hfd, .onData h⟩
  | @data fd as v vs h hfd hbuf =>
    cases hu with
    | parent h' => cases h.symm.trans h'
    | onData h' => cases h.symm.trans h'
    | data h' _ hbuf' => cases h.symm.trans h'; cases hbuf.symm.trans hbuf'; exact .inl rfl
    | eof h' _ hbuf' => cases hbuf.symm.trans hbuf'
    | child h' => exact .inr ⟨_, .child h', .data h hfd hbuf⟩
    | @write fd' w _ h' hfd' =>
      have hmore : s.buf ++ [w] = v :: (vs ++ [w]) := by rw [hbuf]; rfl
      exact .inr ⟨_, .write h' hfd', .data h hfd hmore⟩
  | eof h hfd hbuf hparent hchild =>
    cases hu with
    | parent h' => cases h.symm.trans h'
    | onData h' => cases h.symm.trans h'
    | data h' _ hbuf' => cases hbuf.symm.trans hbuf'
    | eof h' => cases h.symm.trans h'; exact .inl rfl
    | child h' => exact .inr ⟨_, .child h', .eof h hfd hbuf hparent (run_file hchild)⟩
    | write h' hfd' => exact (hchild _ hfd').elim
  | child h =>
    cases hu with
    | parent h' => exact .inr ⟨_, .parent h', .child h⟩
    | onData h' => exact .inr ⟨_, .onData h', .child h⟩
    | data h' hfd hbuf => exact .inr ⟨_, .data h' hfd hbuf, .child h⟩
    | eof h' hfd hbuf hparent hchild => exact .inr ⟨_, .eof h' hfd hbuf hparent (run_file hchild), .child h⟩
    | child h' => cases h.symm.trans h'; exact .inl rfl
    | write h' => cases h.symm.trans h'
  | @write fd v as h hfd =>
    cases hu with
    | parent h' => exact .inr ⟨_, .parent h', .write h hfd⟩
    | onData h' => exact .inr ⟨_, .onData h', .write h hfd⟩
    | @data _ _ w ws h' hfd' hbuf =>
      have hmore : s.buf ++ [v] = w :: (ws ++ [v]) := by rw [hbuf]; rfl
      exact .inr ⟨_, .data h' hfd' hmore, .write h hfd⟩
    | eof h' _ _ _ hchild => exact (hchild _ hfd).elim
    | child h' => cases h.symm.trans h'
    | write h' => cases h.symm.trans h'; exact .inl rfl

/-! ### Runs of one process -/

theorem steps_parent (as : List OwnAct) {rest : List ParentAct} (h : s.parentActs = as.map .own ++ rest) :
    Steps (Step rd wr) as.length s { s with parent := as.foldl OwnAct.run s.parent, parentActs := rest } := by
  induction as generalizing s with
  | nil =>
    cases h
    exact .refl s
  | cons a as ih => exact .head (.parent h) (ih rfl)

theorem steps_onData (as : List OwnAct) {rest : List ParentAct} (h : s.parentActs = as.map .onData ++ rest) :
    Steps (Step rd wr) as.length s
      { s with parent := if s.got.isSome then as.foldl OwnAct.run s.parent else s.parent, parentActs := rest } := by
  induction as generalizing s with
  | nil =>
    cases h
    simpa using Steps.refl s
  | cons a as ih =>
    refine .head (.onData h) ?_
    have hrest := ih (s := { s with
      parent := if s.got.isSome then a.run s.parent else s.parent, parentActs := as.map .onData ++ rest }) rfl
    cases hgot : s.got.isSome <;> simpa [hgot] using hrest

theorem steps_child (as : List OwnAct) {rest : List (ChildAct V)} (h : s.childActs = as.map .own ++ rest) :
    Steps (Step rd wr) as.length s { s with child := as.foldl OwnAct.run s.child, childActs := rest } := by
  induction as generalizing s with
  | nil =>
    cases h
    exact .refl s
  | cons a as ih => exact .head (.child h) (ih rfl)

/-- Both have made all their calls. -/
theorem done_ends (hparent : s.parentActs = []) (hchild : s.childActs = []) (t : Forked F V) : ¬ Step rd wr s t := by
  intro h
  cases h with
  | parent h => cases hparent.symm.trans h
  | onData h => cases hparent.symm.trans h
  | data h => cases hparent.symm.trans h
  | eof h => cases hparent.symm.trans h
  | child h => cases hchild.symm.trans h
  | write h => cases hchild.symm.trans h

/-- What a process has when it has made all its calls it keeps. -/
theorem steps_parent_done {n : Nat} (h : Steps (Step rd wr) n s t) (hdone : s.parentActs = []) :
    t.parent = s.parent ∧ t.got = s.got := by
  induction h with
  | refl => exact ⟨rfl, rfl⟩
  | head hstep _ ih =>
    cases hstep with
    | parent h => cases hdone.symm.trans h
    | onData h => cases hdone.symm.trans h
    | data h => cases hdone.symm.trans h
    | eof h => cases hdone.symm.trans h
    | child => exact ih hdone
    | write => exact ih hdone

theorem steps_child_done {n : Nat} (h : Steps (Step rd wr) n s t) (hdone : s.childActs = []) : t.child = s.child := by
  induction h with
  | refl => rfl
  | head hstep _ ih =>
    cases hstep with
    | parent => exact ih hdone
    | onData => exact ih hdone
    | data => exact ih hdone
    | eof => exact ih hdone
    | child h => cases hdone.symm.trans h
    | write h => cases hdone.symm.trans h

end Forked

namespace FdTable
variable {F : Type} {base t : FdTable F} {l : List (Nat × Descriptor F)}

/-- Closing one after the other, as calls. -/
theorem foldl_close (fds : List Nat) (t : FdTable F) : (fds.map OwnAct.close).foldl OwnAct.run t = fds.foldl close t := by
  rw [List.foldl_map]
  rfl

theorem Adds.file_head {fd : Nat} {d : Descriptor F} (h : Adds base ((fd, d) :: l) t) : t.file fd = some d.file := by
  unfold FdTable.file
  rw [h.added (fd, d) List.mem_cons_self]
  rfl

/-- Where the open files come from. -/
theorem Adds.file_cases (h : Adds base l t) {fd : Nat} {f : F} (hf : t.file fd = some f) :
    base.file fd = some f ∨ ∃ p ∈ l, p.1 = fd ∧ p.2.file = f := by
  by_cases hfd : fd ∈ l.map Prod.fst
  · obtain ⟨p, hp, rfl⟩ := List.mem_map.1 hfd
    unfold FdTable.file at hf
    rw [h.added p hp] at hf
    exact .inr ⟨p, hp, rfl, Option.some.inj hf⟩
  · unfold FdTable.file at hf ⊢
    rw [h.rest fd hfd] at hf
    exact .inl hf

end FdTable
end Pcl

import Mathlib.Tactic.Common

/-!
# A partial program that follows a specification

A program is a step function that may be undefined, its specification a total one on other states. A run
follows the specification when after every part of it the program is defined, has given the specified
answers and stands in the relation `R` to the specified state. `follows_iff` reduces that to the steps: where
each step is good just when the program follows it, a run follows the specification just when all its
steps are good.
-/

namespace Pcl.Follow
variable {σ τ ω ρ : Type}

/-- A run of the program. -/
def run (step : σ → ω → Option (ρ × σ)) (s : σ) : List ω → Option (List ρ × σ)
  | [] => some ([], s)
  | o :: os => (step s o).bind fun p => (run step p.2 os).map fun q => (p.1 :: q.1, q.2)

/-- What each step keeps, a run keeps. -/
theorem run_keeps {step : σ → ω → Option (ρ × σ)} {I : σ → Prop} (hstep : ∀ s o r s', step s o = some (r, s') → I s → I s')
    {s s' : σ} {os : List ω} {rs : List ρ} (hrun : run step s os = some (rs, s')) (hi : I s) : I s' := by
  induction os generalizing s rs with
  | nil =>
    cases hrun
    exact hi
  | cons o os ih =>
    obtain ⟨⟨r, s₁⟩, hs, hrest⟩ := Option.bind_eq_some_iff.1 hrun
    obtain ⟨⟨rs', s₂⟩, hos, heq⟩ := Option.map_eq_some_iff.1 hrest
    cases heq
    exact ih hos (hstep s o r s₁ hs hi)

/-- What the operations should do. -/
structure Spec (τ ω ρ : Type) where
  next : τ → ω → τ
  answer : τ → ω → ρ

namespace Spec
variable (S : Spec τ ω ρ)

def run (t : τ) (os : List ω) : τ := os.foldl S.next t

def answers (t : τ) : List ω → List ρ
  | [] => []
  | o :: os => S.answer t o :: answers (S.next t o) os

/-- Every step of the specified run satisfies `P`. -/
def All (P : τ → ω → Prop) (t : τ) : List ω → Prop
  | [] => True
  | o :: os => P t o ∧ All P (S.next t o) os

theorem all_and {S : Spec τ ω ρ} {P Q : τ → ω → Prop} {t : τ} {os : List ω} :
    S.All (fun t o => P t o ∧ Q t o) t os ↔ S.All P t os ∧ S.All Q t os := by
  induction os generalizing t with
  | nil => exact (and_self_iff (a := True)).symm
  | cons o os ih =>
    rw [All, ih]
    exact and_and_and_comm

instance {P : τ → ω → Prop} [∀ t o, Decidable (P t o)] : (t : τ) → (os : List ω) → Decidable (S.All P t os)
  | _, [] => isTrue trivial
  | t, o :: os => @instDecidableAnd _ _ _ (instDecidableAll (S.next t o) os)

end Spec

variable {step : σ → ω → Option (ρ × σ)} {S : Spec τ ω ρ} {R Inv : σ → τ → Prop} {legal good : τ → ω → Prop}
  {s : σ} {t : τ} {o : ω} {os : List ω}

/-- The program takes the step as specified. -/
def Steps (step : σ → ω → Option (ρ × σ)) (S : Spec τ ω ρ) (R : σ → τ → Prop) (s : σ) (t : τ) (o : ω) : Prop :=
  ∃ s', step s o = some (S.answer t o, s') ∧ R s' (S.next t o)

/-- The run follows the specification. -/
def Follows (step : σ → ω → Option (ρ × σ)) (S : Spec τ ω ρ) (R : σ → τ → Prop) (s : σ) (t : τ) (os : List ω) : Prop :=
  ∀ done, done <+: os → ∃ s', run step s done = some (S.answers t done, s') ∧ R s' (S.run t done)

theorem run_cons_of {s' : σ} (h : step s o = some (S.answer t o, s')) (os : List ω) :
    run step s (o :: os) = (run step s' os).map fun q => (S.answer t o :: q.1, q.2) := by
  rw [run, h, Option.bind_some]

/-- After a run of good steps the invariant holds. -/
theorem run_of_all (hstep : ∀ s t o, Inv s t → legal t o → good t o → Steps step S Inv s t o) (hi : Inv s t)
    (hl : S.All legal t os) (hg : S.All good t os) :
    ∃ s', run step s os = some (S.answers t os, s') ∧ Inv s' (S.run t os) := by
  induction os generalizing s t with
  | nil => exact ⟨s, rfl, hi⟩
  | cons o os ih =>
    obtain ⟨s₁, hs, hi₁⟩ := hstep s t o hi hl.1 hg.1
    obtain ⟨s', hrun, hi'⟩ := ih hi₁ hl.2 hg.2
    exact ⟨s', by rw [run_cons_of hs, hrun]; rfl, hi'⟩

theorem Follows.cons_iff (hR : R s t) {s' : σ} (hs : step s o = some (S.answer t o, s')) :
    Follows step S R s t (o :: os) ↔ Follows step S R s' (S.next t o) os := by
  constructor
  · intro hf done hdone
    obtain ⟨s₁, hrun, hr⟩ := hf (o :: done) (List.cons_prefix_cons.2 ⟨rfl, hdone⟩)
    rw [run_cons_of hs] at hrun
    obtain ⟨⟨rs, s₂⟩, hq, heq⟩ := Option.map_eq_some_iff.1 hrun
    obtain ⟨hrs, rfl⟩ := Prod.mk.injEq .. ▸ heq
    have hans : rs = S.answers (S.next t o) done := (List.cons.inj hrs).2
    exact ⟨s₂, by rw [hq, hans], hr⟩
  · intro hf done hdone
    cases done with
    | nil => exact ⟨s, rfl, hR⟩
    | cons o' done =>
      obtain ⟨rfl, hrest⟩ := List.cons_prefix_cons.1 hdone
      obtain ⟨s₁, hrun, hr⟩ := hf done hrest
      exact ⟨s₁, by rw [run_cons_of hs, hrun]; rfl, hr⟩

theorem Follows.head (hf : Follows step S R s t (o :: os)) : Steps step S R s t o := by
  obtain ⟨s', hrun, hr⟩ := hf [o] (List.cons_prefix_cons.2 ⟨rfl, List.nil_prefix⟩)
  obtain ⟨⟨r, s₁⟩, hp, hrest⟩ := Option.bind_eq_some_iff.1 hrun
  obtain ⟨hrs, rfl⟩ := Prod.mk.injEq .. ▸ Option.some.inj hrest
  have hans : r = S.answer t o := (List.cons.inj hrs).1
  exact ⟨s₁, by rw [hp, hans], hr⟩

/-- A run follows the specification just when all its steps are good. -/
theorem follows_iff (hR : ∀ s t, Inv s t → R s t)
    (hstep : ∀ s t o, Inv s t → legal t o → good t o → Steps step S Inv s t o)
    (hgood : ∀ s t o, Inv s t → legal t o → Steps step S R s t o → good t o) (hi : Inv s t) (hl : S.All legal t os) :
    Follows step S R s t os ↔ S.All good t os := by
  induction os generalizing s t with
  | nil =>
    refine iff_of_true (fun done hdone => ?_) trivial
    rw [List.prefix_nil] at hdone
    rw [hdone]
    exact ⟨s, rfl, hR s t hi⟩
  | cons o os ih =>
    constructor
    · intro hf
      have hg := hgood s t o hi hl.1 hf.head
      obtain ⟨s', hs, hi'⟩ := hstep s t o hi hl.1 hg
      exact ⟨hg, (ih hi' hl.2).1 ((Follows.cons_iff (hR s t hi) hs).1 hf)⟩
    · rintro ⟨hg, hrest⟩
      obtain ⟨s', hs, hi'⟩ := hstep s t o hi hl.1 hg
      exact (Follows.cons_iff (hR s t hi) hs).2 ((ih hi' hl.2).2 hrest)

/-- Every step of a run is defined and satisfies `P`. -/
def Always (step : σ → ω → Option (ρ × σ)) (P : σ → ω → ρ → σ → Prop) : σ → List ω → Prop
  | _, [] => True
  | s, o :: os => ∃ r s', step s o = some (r, s') ∧ P s o r s' ∧ Always step P s' os

/-- Where `good` decides whether a step satisfies `P`, and keeps the invariant, it does so for runs. -/
theorem always_iff {P : σ → ω → ρ → σ → Prop} {I : σ → Prop} {ok : σ → ω → Prop}
    (hstep : ∀ s o, I s → ∃ r s', step s o = some (r, s') ∧ (P s o r s' ↔ ok s o) ∧ (ok s o → I s')) (hi : I s) :
    Always step P s os ↔ Always step (fun s o _ _ => ok s o) s os := by
  induction os generalizing s with
  | nil => exact Iff.rfl
  | cons o os ih =>
    obtain ⟨r, s', hs, hP, hI⟩ := hstep s o hi
    constructor
    · rintro ⟨r', s'', hs', hp, hrest⟩
      cases hs.symm.trans hs'
      have hok := hP.1 hp
      exact ⟨r, s', hs, hok, (ih (hI hok)).1 hrest⟩
    · rintro ⟨r', s'', hs', hok, hrest⟩
      cases hs.symm.trans hs'
      exact ⟨r, s', hs, hP.2 hok, (ih (hI hok)).2 hrest⟩

/-- Each operation of a run meets `P` in the state it finds. -/
def Throughout (step : σ → ω → Option (ρ × σ)) (P : σ → ω → Prop) : σ → List ω → Prop
  | _, [] => True
  | s, o :: os => P s o ∧ ∀ r s', step s o = some (r, s') → Throughout step P s' os

namespace Throughout
variable {P : σ → ω → Prop}

theorem next {r : ρ} (s' : σ) (hs : step s o = some (r, s')) (hp : P s o) (h : Throughout step P s' os) :
    Throughout step P s (o :: os) := by
  refine ⟨hp, fun r' s'' hs' => ?_⟩
  cases hs.symm.trans hs'
  exact h

theorem mono {P' : σ → ω → Prop} (hP : ∀ s o, P s o → P' s o) (h : Throughout step P s os) : Throughout step P' s os := by
  induction os generalizing s with
  | nil => trivial
  | cons o os ih => exact ⟨hP s o h.1, fun r s' hs => ih (h.2 r s' hs)⟩

/-- Where `P` makes a step defined and keeps the invariant, it does so for runs. -/
theorem always {Q : σ → ω → ρ → σ → Prop} {I : σ → Prop}
    (hstep : ∀ s o, I s → P s o → ∃ r s', step s o = some (r, s') ∧ Q s o r s' ∧ I s') (hi : I s)
    (h : Throughout step P s os) : Always step Q s os := by
  induction os generalizing s with
  | nil => trivial
  | cons o os ih =>
    obtain ⟨r, s', hs, hq, hi'⟩ := hstep s o hi h.1
    exact ⟨r, s', hs, hq, ih hi' (h.2 r s' hs)⟩

/-- A run that is defined ends where the invariant holds. -/
theorem ends {I : σ → Prop} (hstep : ∀ s o r s', I s → P s o → step s o = some (r, s') → I s') (hi : I s)
    (h : Throughout step P s os) {rs : List ρ} {s' : σ} (hrun : run step s os = some (rs, s')) : I s' := by
  induction os generalizing s rs with
  | nil =>
    cases hrun
    exact hi
  | cons o os ih =>
    obtain ⟨⟨r, s₁⟩, hs, hrest⟩ := Option.bind_eq_some_iff.1 hrun
    obtain ⟨⟨rs', s₂⟩, hos, heq⟩ := Option.map_eq_some_iff.1 hrest
    cases heq
    exact ih (hstep s o r s₁ hi h.1 hs) (h.2 r s₁ hs) hos

end Throughout

end Pcl.Follow

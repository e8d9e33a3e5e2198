import Mathlib.Data.List.Basic
import Mathlib.Data.List.Perm.Basic
import Mathlib.Tactic.Common

/-!
# Insertion-ordered maps

An association list whose keys are pairwise different for a given key equality `eqv`: what an
insertion-ordered dictionary denotes. New keys go to the end, a replaced entry keeps its place.
-/

namespace OMap

variable {K V : Type}

/-- `eqv` is an equivalence relation on keys. -/
structure IsEquiv (eqv : K → K → Bool) : Prop where
  refl : ∀ a, eqv a a = true
  symm : ∀ {a b}, eqv a b = true → eqv b a = true
  trans : ∀ {a b c}, eqv a b = true → eqv b c = true → eqv a c = true

theorem IsEquiv.beq [DecidableEq K] : IsEquiv (fun a b : K => a == b) :=
  ⟨by simp, by simp +contextual, by simp +contextual⟩

section
variable (eqv : K → K → Bool)

/-- The entry of a key. -/
def find (m : List (K × V)) (k : K) : Option (K × V) := m.find? fun p => eqv p.1 k

/-- No key occurs twice. -/
def Distinct (m : List (K × V)) : Prop := m.Pairwise fun p q => eqv p.1 q.1 = false

/-- Put a key and its value in the place of the entry of an equal key. -/
def replace (m : List (K × V)) (k : K) (v : V) : List (K × V) :=
  m.map fun p => if eqv p.1 k then (k, v) else p

/-- Remove the entry of a key. -/
def erase (m : List (K × V)) (k : K) : List (K × V) := m.filter fun p => !eqv p.1 k

/-- Add an entry, or replace the entry of an equal key unless keys have to be `unique`. -/
def put (m : List (K × V)) (k : K) (v : V) (unique : Bool) : Option (List (K × V)) :=
  match find eqv m k with
  | none => some (m ++ [(k, v)])
  | some _ => if unique then none else some (replace eqv m k v)

end

variable {eqv : K → K → Bool} {m : List (K × V)} {k : K} {v : V}

theorem find_eq_none : find eqv m k = none ↔ ∀ p ∈ m, eqv p.1 k = false := by
  simp [find]

theorem find_mem {p : K × V} (h : find eqv m k = some p) : p ∈ m ∧ eqv p.1 k = true :=
  ⟨List.mem_of_find?_eq_some h, by simpa using List.find?_some h⟩

theorem Distinct.eq_of_eqv (he : IsEquiv eqv) (hd : Distinct eqv m) {p q : K × V} (hp : p ∈ m)
    (hq : q ∈ m) (h : eqv p.1 q.1 = true) : p = q := by
  induction m with
  | nil => cases hp
  | cons r m ih =>
    obtain ⟨hr, hd⟩ := List.pairwise_cons.1 hd
    rcases List.mem_cons.1 hp with rfl | hp' <;> rcases List.mem_cons.1 hq with rfl | hq'
    · rfl
    · rw [hr q hq'] at h; cases h
    · have := he.symm h; rw [hr p hp'] at this; cases this
    · exact ih hd hp' hq'

theorem find_eq_some (he : IsEquiv eqv) (hd : Distinct eqv m) {p : K × V} (hp : p ∈ m)
    (h : eqv p.1 k = true) : find eqv m k = some p := by
  cases hf : find eqv m k with
  | none => rw [find_eq_none.1 hf p hp] at h; cases h
  | some q =>
    obtain ⟨hq, hqk⟩ := find_mem hf
    rw [hd.eq_of_eqv he hp hq (he.trans h (he.symm hqk))]

theorem Distinct.append (hd : Distinct eqv m) (hk : find eqv m k = none) :
    Distinct eqv (m ++ [(k, v)]) := by
  refine List.pairwise_append.2 ⟨hd, List.pairwise_singleton _ _, fun p hp q hq => ?_⟩
  rw [List.mem_singleton.1 hq]
  exact find_eq_none.1 hk p hp

/-- The key of an entry is new for the entries before it. -/
theorem Distinct.find_none {m' : List (K × V)} (hd : Distinct eqv (m ++ (k, v) :: m')) : find eqv m k = none :=
  find_eq_none.2 fun p hp => (List.pairwise_append.1 hd).2.2 p hp (k, v) List.mem_cons_self

theorem Distinct.erase (hd : Distinct eqv m) : Distinct eqv (erase eqv m k) := hd.filter _

/-- The entry of a key and the others are all entries. -/
theorem Distinct.find_append_erase (he : IsEquiv eqv) (hd : Distinct eqv m) (k : K) :
    ((find eqv m k).toList ++ OMap.erase eqv m k).Perm m := by
  induction m with
  | nil => exact .refl _
  | cons p m ih =>
    obtain ⟨hp, hd⟩ := List.pairwise_cons.1 hd
    unfold find OMap.erase at ih ⊢
    rw [List.find?_cons, List.filter_cons]
    cases hk : eqv p.1 k with
    | true =>
      -- no other key is equal to this one
      have hrest : m.filter (fun p => !eqv p.1 k) = m := by
        refine List.filter_eq_self.2 fun q hq => ?_
        by_contra hqk
        have hpq := he.trans hk (he.symm (by simpa using hqk : eqv q.1 k = true))
        rw [hp q hq] at hpq
        cases hpq
      simp [hrest]
    | false =>
      simp only [Bool.not_false, if_true]
      exact List.perm_middle.trans ((ih hd).cons p)

theorem Distinct.replace (he : IsEquiv eqv) (hd : Distinct eqv m) :
    Distinct eqv (replace eqv m k v) := by
  have hs : ∀ {a b}, eqv a b = false → eqv b a = false := fun {a b} h => by
    cases hba : eqv b a with
    | false => rfl
    | true => rw [he.symm hba] at h; cases h
  refine List.pairwise_map.2 (hd.imp fun {p q} hpq => ?_)
  split <;> split
  · rename_i hp hq
    rw [he.trans hp (he.symm hq)] at hpq; cases hpq
  · rename_i hp hq
    exact hs (by simpa using hq)
  · rename_i hp hq
    simpa using hp
  · exact hpq

end OMap

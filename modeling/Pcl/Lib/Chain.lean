import Mathlib.Data.List.Nodup
import Mathlib.Tactic.Common

/-!
# Chains of indices

Singly linked lists whose nodes live in a store `read : ι → Option ε` and name their successor by
index, `link : ε → Option ι` (`none` ends the list). `Chain read link s l`: following the links from
`s` visits the indices `l` in order and stops. A chain is finite by construction, and since it is
determined by its start it never visits an index twice (`Chain.nodup`).
-/

namespace LinkedStore

variable {ι ε : Type} {read read' : ι → Option ε} {link : ε → Option ι}

/-- Following `link` from `s` visits exactly `l`. -/
inductive Chain (read : ι → Option ε) (link : ε → Option ι) : Option ι → List ι → Prop
  | nil : Chain read link none []
  | cons {i : ι} {e : ε} {l : List ι} (hr : read i = some e) (h : Chain read link (link e) l) :
      Chain read link (some i) (i :: l)

namespace Chain
variable {s : Option ι} {l l₁ l₂ : List ι} {i p x : ι} {e : ε}

theorem det (h : Chain read link s l) (h' : Chain read link s l₁) : l = l₁ := by
  induction h generalizing l₁ with
  | nil => cases h'; rfl
  | cons hr _ ih =>
    cases h' with
    | cons hr' h' =>
      obtain rfl := Option.some.inj (hr.symm.trans hr')
      rw [ih h']

theorem cons_iff : Chain read link s (i :: l) ↔
    s = some i ∧ ∃ e, read i = some e ∧ Chain read link (link e) l := by
  constructor
  · intro h
    cases h with | cons hr h => exact ⟨rfl, _, hr, h⟩
  · rintro ⟨rfl, e, hr, h⟩
    exact .cons hr h

theorem drop (h : Chain read link s (l₁ ++ i :: l₂)) : Chain read link (some i) (i :: l₂) := by
  induction l₁ generalizing s with
  | nil => cases h with | cons hr h => exact .cons hr h
  | cons j l₁ ih => cases h with | cons _ h => exact ih h

theorem read_mem (h : Chain read link s l) (hi : i ∈ l) : ∃ e, read i = some e := by
  obtain ⟨l₁, l₂, rfl⟩ := List.append_of_mem hi
  cases h.drop with | cons hr _ => exact ⟨_, hr⟩

theorem nodup (h : Chain read link s l) : l.Nodup := by
  induction h with
  | nil => exact List.nodup_nil
  | @cons i e l hr h ih =>
    refine List.nodup_cons.2 ⟨fun hi => ?_, ih⟩
    obtain ⟨l₁, l₂, rfl⟩ := List.append_of_mem hi
    -- two chains from `i` of different lengths
    have hlen := congrArg List.length ((Chain.cons hr h).det h.drop)
    simp only [List.length_cons, List.length_append] at hlen
    omega

theorem head_eq (h : Chain read link s l) : s = l.head? := by cases h <;> rfl

theorem tail (hr : read i = some e) (h : Chain read link (some i) (i :: l)) :
    Chain read link (link e) l := by
  cases h with
  | cons hr' h => rwa [Option.some.inj (hr.symm.trans hr')]

/-- Framing: a chain only depends on the links of its own nodes. -/
theorem congr (hl : ∀ i ∈ l, (read' i).map link = (read i).map link) (h : Chain read link s l) :
    Chain read' link s l := by
  induction h with
  | nil => exact .nil
  | @cons i e l hr _ ih =>
    have hi := hl i (by simp)
    rw [hr, Option.map_some, Option.map_eq_some_iff] at hi
    obtain ⟨e', hr', he'⟩ := hi
    exact .cons hr' (he' ▸ ih fun j hj => hl j (by simp [hj]))

/-- Pointing `p` past its successor `x` takes `x` out of the chain. -/
theorem unlink {e' : ε} (hx : read x = some e) (hp : read' p = some e') (hlink : link e' = link e)
    (hl : ∀ i ∈ l₁ ++ l₂, (read' i).map link = (read i).map link)
    (h : Chain read link s (l₁ ++ p :: x :: l₂)) : Chain read' link s (l₁ ++ p :: l₂) := by
  induction l₁ generalizing s with
  | nil =>
    obtain ⟨rfl, ep, -, h⟩ := cons_iff.1 h
    obtain ⟨-, ex, hx', h⟩ := cons_iff.1 h
    obtain rfl := Option.some.inj (hx.symm.trans hx')
    exact .cons hp (hlink ▸ h.congr fun i hi => hl i (by simp [hi]))
  | cons j l₁ ih =>
    obtain ⟨rfl, ej, hr, h⟩ := cons_iff.1 h
    have hj := hl j (by simp)
    rw [hr, Option.map_some, Option.map_eq_some_iff] at hj
    obtain ⟨e'', hr'', he''⟩ := hj
    exact .cons hr'' (he'' ▸ ih (fun i hi => hl i (by simp at hi ⊢; tauto)) h)

/-- Linking a new node `x` in behind the head `p`. -/
theorem insert_after_head {e' ex : ε} (hp : read p = some e) (hp' : read' p = some e')
    (hx : read' x = some ex) (he' : link e' = some x) (hex : link ex = link e)
    (hl : ∀ i ∈ l, (read' i).map link = (read i).map link)
    (h : Chain read link (some p) (p :: l)) : Chain read' link (some p) (p :: x :: l) :=
  .cons hp' (he' ▸ .cons hx (hex ▸ (h.tail hp).congr hl))

end Chain

/-- Walk from `cur` for the first node that passes `test`; `prev` is the node visited before `cur`.
`none`: no result within `fuel` steps, or a step outside the store. -/
def search (read : ι → Option ε) (link : ε → Option ι) (test : ε → Bool) :
    Nat → Option ι → Option ι → Option (Option (Option ι × ι × ε))
  | 0, _, _ => none
  | _ + 1, _, none => some none
  | n + 1, prev, some i =>
    match read i with
    | none => none
    | some e => if test e then some (some (prev, i, e)) else search read link test n (some i) (link e)

section
variable {test : ε → Bool} {s prev : Option ι} {l : List ι}

/-- On a chain the search ends, and finds nothing exactly when no node passes the test. -/
theorem search_none (h : Chain read link s l) (ht : ∀ i ∈ l, ∀ e, read i = some e → test e = false)
    {n : Nat} (hn : l.length < n) : search read link test n prev s = some none := by
  induction h generalizing n prev with
  | nil => cases n with | zero => omega | succ n => rfl
  | @cons i e l hr h ih =>
    cases n with
    | zero => omega
    | succ n =>
      have hte := ht i (by simp) e hr
      simp only [search, hr, hte, Bool.false_eq_true, ↓reduceIte]
      exact ih (fun j hj => ht j (by simp [hj])) (by simpa using hn)

/-- The search stops at the first node that passes the test, and knows the node before it. -/
theorem search_some {l₁ l₂ : List ι} {i : ι} {e : ε} (h : Chain read link s (l₁ ++ i :: l₂))
    (hi : read i = some e) (hte : test e = true)
    (ht : ∀ j ∈ l₁, ∀ e, read j = some e → test e = false) {n : Nat} (hn : l₁.length < n) :
    search read link test n prev s = some (some (l₁.getLast?.or prev, i, e)) := by
  induction l₁ generalizing n prev s with
  | nil =>
    cases n with
    | zero => omega
    | succ n => cases h with | cons _ _ => simp [search, hi, hte]
  | cons j l₁ ih =>
    cases n with
    | zero => omega
    | succ n =>
      cases h with
      | cons hr h =>
        have hj := ht j (by simp) _ hr
        simp only [search, hr, hj, Bool.false_eq_true, ↓reduceIte]
        rw [ih h (fun k hk => ht k (by simp [hk])) (by simpa using hn)]
        cases l₁ <;> simp [List.getLast?_cons]

end
end LinkedStore

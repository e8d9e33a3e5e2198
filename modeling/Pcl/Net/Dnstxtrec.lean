import Pcl.Str.Search

/-!
# The records of `pcl_net_dnstxtrec`

The loop copies each character-string with `pcl_strndup`, which takes a length of zero for a string that
ends at a NUL, and does not compare a length octet with what is left of the data.
-/

namespace Pcl

/-- The loop of `pcl_net_dnstxtrec` from `n` on, over the memory that starts at the data: the elements it appends, and
the end of what it reads. -/
def dnstxtrecLoop (data : List UInt8) (len n : Nat) : Option (List (List UInt8) × Nat) :=
  if n < len then
    match data[n]? with
    | none => none
    | some q =>
      match strndupAt data (n + 1) q.toNat with
      | none => none
      | some (elem, fin) =>
        match dnstxtrecLoop data len (n + 1 + q.toNat) with
        | none => none
        | some (elems, fin') => some (elem :: elems, max fin fin')
  else some ([], 0)
termination_by len - n

/-! ### The format -/

/-- The character-strings of the data, up to one that is longer than what is left. -/
def charStrings : List UInt8 → List (List UInt8)
  | [] => []
  | q :: rest => if q.toNat ≤ rest.length then rest.take q.toNat :: charStrings (rest.drop q.toNat) else []
termination_by rdata => rdata.length
decreasing_by simp only [List.length_drop, List.length_cons]; omega

/-- A sequence of character-strings, none of them empty. -/
inductive TxtData : List UInt8 → Prop
  | nil : TxtData []
  | cons {q : UInt8} {rest : List UInt8} (hq : q ≠ 0) (hlen : q.toNat ≤ rest.length) (h : TxtData (rest.drop q.toNat)) :
      TxtData (q :: rest)

theorem TxtData.head_ne {rest : List UInt8} (h : TxtData (0 :: rest)) : False := by
  cases h with
  | cons hq _ _ => exact hq rfl

theorem charStrings_cons (q : UInt8) (rest : List UInt8) : charStrings (q :: rest) =
    if q.toNat ≤ rest.length then rest.take q.toNat :: charStrings (rest.drop q.toNat) else [] := by
  rw [charStrings]

/-- The loop from `n` on gives the character-strings of `rdata` and reads nothing behind the data. -/
def Decodes (data : List UInt8) (len n : Nat) (rdata : List UInt8) : Prop :=
  ∃ fin, dnstxtrecLoop data len n = some (charStrings rdata, fin) ∧ fin ≤ len

theorem decodes_cons_iff {data : List UInt8} {len n : Nat} {q : UInt8} {rest : List UInt8} (hn : n < len)
    (hq : data[n]? = some q) : Decodes data len n (q :: rest) ↔ q.toNat ≤ rest.length ∧
      (∃ fin, strndupAt data (n + 1) q.toNat = some (rest.take q.toNat, fin) ∧ fin ≤ len) ∧
      Decodes data len (n + 1 + q.toNat) (rest.drop q.toNat) := by
  unfold Decodes
  rw [dnstxtrecLoop.eq_def, if_pos hn, hq, charStrings_cons]
  dsimp only
  cases hdup : strndupAt data (n + 1) q.toNat with
  | none => simp
  | some p =>
    obtain ⟨elem, fin⟩ := p
    cases hloop : dnstxtrecLoop data len (n + 1 + q.toNat) with
    | none => simp
    | some p' =>
      obtain ⟨elems, fin'⟩ := p'
      simp only [Option.some.injEq, Prod.mk.injEq]
      by_cases hle : q.toNat ≤ rest.length
      · rw [if_pos hle]
        constructor
        · rintro ⟨_, ⟨helems, rfl⟩, hfin⟩
          obtain ⟨rfl, rfl⟩ := List.cons.inj helems
          exact ⟨hle, ⟨fin, ⟨rfl, rfl⟩, Nat.le_trans (Nat.le_max_left ..) hfin⟩,
            fin', ⟨rfl, rfl⟩, Nat.le_trans (Nat.le_max_right ..) hfin⟩
        · rintro ⟨-, ⟨_, ⟨rfl, rfl⟩, hfin⟩, _, ⟨rfl, rfl⟩, hfin'⟩
          exact ⟨_, ⟨rfl, rfl⟩, Nat.max_le.2 ⟨hfin, hfin'⟩⟩
      · rw [if_neg hle]
        refine ⟨?_, fun h => absurd h.1 hle⟩
        rintro ⟨_, ⟨helems, -⟩, -⟩
        exact absurd helems (List.cons_ne_nil _ _)

theorem decodes_iff (pre rdata after : List UInt8) :
    Decodes (pre ++ (rdata ++ after)) (pre.length + rdata.length) pre.length rdata ↔ TxtData rdata := by
  induction hn : rdata.length using Nat.strong_induction_on generalizing pre rdata with
  | _ n ih =>
    subst hn
    cases rdata with
    | nil =>
      unfold Decodes
      rw [dnstxtrecLoop.eq_def, if_neg (by simp), charStrings]
      exact ⟨fun _ => .nil, fun _ => ⟨0, rfl, Nat.zero_le _⟩⟩
    | cons q rest =>
      have hget : (pre ++ (q :: rest ++ after))[pre.length]? = some q := by simp
      have hdrop : (pre ++ (q :: rest ++ after)).drop (pre.length + 1) = rest ++ after := by simp
      have hlen : (pre ++ (q :: rest ++ after)).length = pre.length + 1 + rest.length + after.length := by
        simp only [List.length_append, List.length_cons]
        omega
      rw [decodes_cons_iff (by simp) hget]
      have hrec (hle : q.toNat ≤ rest.length) :
          Decodes (pre ++ (q :: rest ++ after)) (pre.length + (q :: rest).length) (pre.length + 1 + q.toNat)
            (rest.drop q.toNat) ↔ TxtData (rest.drop q.toNat) := by
        have hstep := ih (rest.drop q.toNat).length (by simp only [List.length_drop, List.length_cons]; omega)
          (pre ++ q :: rest.take q.toNat) (rest.drop q.toNat) rfl
        have hdata : pre ++ q :: rest.take q.toNat ++ (rest.drop q.toNat ++ after) = pre ++ (q :: rest ++ after) := by
          rw [List.append_assoc, List.cons_append, ← List.append_assoc (rest.take _), List.take_append_drop,
            List.cons_append]
        have hn : (pre ++ q :: rest.take q.toNat).length = pre.length + 1 + q.toNat := by
          rw [List.length_append, List.length_cons, List.length_take_of_le hle]
          omega
        rwa [hdata, hn, List.length_drop, show pre.length + 1 + q.toNat + (rest.length - q.toNat) =
          pre.length + (q :: rest).length by rw [List.length_cons]; omega] at hstep
      unfold strndupAt
      simp only [hdrop, hlen]
      by_cases hq : q = 0
      · subst hq
        refine ⟨?_, fun h => h.head_ne.elim⟩
        rintro ⟨hle, ⟨fin, hdup, hfin⟩, hloop⟩
        exfalso
        -- the copy is empty only in front of another empty string
        have hdata := (hrec hle).1 hloop
        rw [if_pos (by decide), Option.ite_none_right_eq_some, Option.some.injEq, Prod.mk.injEq] at hdup
        obtain ⟨-, htext, rfl⟩ := hdup
        cases rest with
        | nil => simp only [List.length_singleton] at hfin; omega
        | cons r rest =>
          have hr : r = 0 := by
            refine Classical.byContradiction fun hr => ?_
            rw [List.cons_append, List.takeWhile_cons_of_pos (by simpa using hr)] at htext
            exact absurd htext (List.cons_ne_nil _ _)
          rw [hr] at hdata
          exact hdata.head_ne
      · have hpos : q.toNat ≠ 0 := fun h => hq (UInt8.toNat_inj.1 h)
        rw [if_neg hpos]
        constructor
        · rintro ⟨hle, -, hloop⟩
          exact .cons hq hle ((hrec hle).1 hloop)
        · intro h
          cases h with
          | cons _ hle h =>
            refine ⟨hle, ⟨pre.length + 1 + q.toNat, ?_, ?_⟩, (hrec hle).2 h⟩
            · rw [if_pos (by omega), List.take_append_of_le_length hle]
            · rw [List.length_cons]
              omega

/-- The loop decodes exactly the sequences of character-strings without an empty one. -/
theorem dnstxtrec_decodes_iff (rdata after : List UInt8) :
    (∃ fin, dnstxtrecLoop (rdata ++ after) rdata.length 0 = some (charStrings rdata, fin) ∧ fin ≤ rdata.length) ↔
      TxtData rdata := by
  have h := decodes_iff [] rdata after
  rwa [List.nil_append, List.length_nil, Nat.zero_add] at h

/-- An empty string in front of "a" is read as the rest of the data and on to the next NUL. -/
theorem dnstxtrec_overreads :
    dnstxtrecLoop [0, 1, 97, 98, 0] 3 0 = some ([[1, 97, 98], [97]], 5) ∧ charStrings [0, 1, 97] = [[], [97]] := by
  refine ⟨?_, ?_⟩
  · simp [dnstxtrecLoop, strndupAt]
  · simp [charStrings]

end Pcl

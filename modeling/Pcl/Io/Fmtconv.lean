import Mathlib.Data.List.TakeWhile
import Mathlib.Tactic.Common

/-!
# Portable format strings

`fmtconv` of `src/io/fmtconv.c` as it is built on Unix, for `char` and `wchar_t` formats alike: a
character is its code. The output block has room for the whole format and its NUL; a store outside it is
undefined.
-/

namespace Pcl

/-- A character of a format. -/
abbrev XChar := Nat

/-- A character constant of the source, `X('c')`. -/
def X (c : Char) : XChar := c.toNat

namespace Fmtconv

/-- Characters stored behind the output `out`, in a block of `len`. -/
def put (len : Nat) (out s : List XChar) : Option (List XChar) :=
  if out.length + s.length < len then some (out ++ s) else none

/-- The flag for grouped digits, an apostrophe. -/
def quote : XChar := 0x27

/-- The characters that `fmtconv` takes for flags, field width, precision or length, as the cases of its
`switch` list them. -/
def specChars : List XChar :=
  [X 'h', X 'l', X '0', X '1', X '2', X '4', X '5', X '6', X '7', X '8', X '9', X '-', X ' ', X '+', quote, X '*',
    X '.', X 'L', X 'q', X 'j', X 'z']

/-- The scan for the end of a format spec. `prev` is the character before the format pointer; the result is the
output and the rest of the format. -/
def scanSpec (len : Nat) (prev : XChar) (out : List XChar) : List XChar → Option (List XChar × List XChar)
  | [] => some (out, [])
  | c :: l =>
    -- a new format or a typo: left for the outer loop
    if c = X '%' then some (out, c :: l)
    else if c = X '/' then
      if prev = X '%' then do
        -- overwrite previous '%'
        let out ← put len out.dropLast [X '/']
        scanSpec len c out l
      else do
        let out ← put len out [c]
        return (out, l)
    else if c = X 'P' then
      match l with
      | k :: l' =>
        if k = X 's' ∨ k = X 'c' then do
          let out ← put len out [k]
          return (out, l')
        else do
          let out ← put len out [X 'P']
          return (out, k :: l')
      | [] => do
        let out ← put len out [X 'P']
        return (out, [])
    else if c ∈ specChars then do
      let out ← put len out [c]
      scanSpec len c out l
    else do
      let out ← put len out [c]
      return (out, l)

theorem scanSpec_length {len : Nat} {prev : XChar} {out l out' rest : List XChar}
    (h : scanSpec len prev out l = some (out', rest)) : rest.length ≤ l.length := by
  have hstop {s l' l'' : List XChar} {o : List XChar}
      (h : (do let out ← put len o s; return (out, l') : Option (List XChar × List XChar)) = some (out', rest))
      (hle : l'.length ≤ l''.length) : rest.length ≤ l''.length := by
    obtain ⟨o', -, heq⟩ := Option.bind_eq_some_iff.1 h
    cases heq
    exact hle
  fun_induction scanSpec len prev out l with
  | case1 | case2 =>
    cases h
    exact Nat.le_refl _
  | case3 out l hslash ih =>
    obtain ⟨o, -, hscan⟩ := Option.bind_eq_some_iff.1 h
    exact Nat.le_succ_of_le (ih o hscan)
  | case4 | case7 | case9 => exact hstop h (Nat.le_succ _)
  | case5 => exact hstop h (Nat.le_succ_of_le (Nat.le_succ _))
  | case6 => exact hstop h (Nat.le_succ _)
  | case8 prev out c l hpercent hslash hP hspec ih =>
    obtain ⟨o, -, hscan⟩ := Option.bind_eq_some_iff.1 h
    exact Nat.le_succ_of_le (ih o hscan)

/-- What comes after a '%' that was copied: the second one of "%%" is skipped, it needs no copy. -/
def directive (len : Nat) (out : List XChar) : List XChar → Option (List XChar × List XChar)
  | [] => scanSpec len (X '%') out []
  | c :: l => if c = X '%' then some (out, l) else scanSpec len (X '%') out (c :: l)

theorem directive_length {len : Nat} {out l out' rest : List XChar}
    (h : directive len out l = some (out', rest)) : rest.length ≤ l.length := by
  cases l with
  | nil =>
    change scanSpec len (X '%') out [] = some (out', rest) at h
    exact scanSpec_length h
  | cons c l =>
    change (if c = X '%' then some (out, l) else scanSpec len (X '%') out (c :: l)) = some (out', rest) at h
    split at h
    · cases h
      exact Nat.le_succ _
    · exact scanSpec_length h

/-- The outer loop, from a format pointer and an output on. -/
def loop (len : Nat) (fmt out : List XChar) : Option (List XChar) :=
  match _hp : fmt.dropWhile (· ≠ X '%') with
  | [] => put len out fmt
  | p :: rest =>
    match put len out (fmt.takeWhile (· ≠ X '%') ++ [p]) with
    | none => none
    | some out =>
      match _hd : directive len out rest with
      | none => none
      | some (out, rest') => loop len rest' out
termination_by fmt.length
decreasing_by
  have hle := directive_length _hd
  have hdrop := (List.dropWhile_suffix (l := fmt) fun c => decide (c ≠ X '%')).length_le
  rw [_hp, List.length_cons] at hdrop
  omega

/-- `fmtconv`. -/
def fmtconv (fmt : List XChar) : Option (List XChar) := loop (fmt.length + 1) fmt []

/-! ### The reference translation -/

/-- The flags of a conversion. -/
def flags : List XChar := [X '-', X '+', X ' ', X '#', X '0', quote]

def isDigit (c : XChar) : Bool := decide (X '0' ≤ c) && decide (c ≤ X '9')

/-- A field width or precision, '*' or digits, and what is behind it. -/
def number : List XChar → List XChar × List XChar
  | [] => ([], [])
  | c :: l => if c = X '*' then ([c], l) else ((c :: l).takeWhile isDigit, (c :: l).dropWhile isDigit)

/-- A precision with its '.', and what is behind it. -/
def precision : List XChar → List XChar × List XChar
  | [] => ([], [])
  | c :: l => if c = X '.' then (c :: (number l).1, (number l).2) else ([], c :: l)

/-- The flags, width and precision of a conversion, and what is behind them. -/
def modifiers (l : List XChar) : List XChar × List XChar :=
  let flag (c : XChar) : Bool := decide (c ∈ flags)
  let width := number (l.dropWhile flag)
  let prec := precision width.2
  (l.takeWhile flag ++ (width.1 ++ prec.1), prec.2)

/-- A conversion "%Ps" or "%Pc" with flags, width and precision, from behind its '%': those, the conversion
character and the rest. -/
def portable (l : List XChar) : Option (List XChar × XChar × List XChar) :=
  match modifiers l with
  | (u, p :: k :: rest) => if p = X 'P' ∧ (k = X 's' ∨ k = X 'c') then some (u, k, rest) else none
  | _ => none

/-- Characters that no modifier is. -/
def Plain (u : List XChar) : Prop := X '%' ∉ u ∧ X 'P' ∉ u

theorem Plain.nil : Plain [] := ⟨List.not_mem_nil, List.not_mem_nil⟩

theorem Plain.cons {c : XChar} {u : List XChar} (hc : c ≠ X '%' ∧ c ≠ X 'P') (h : Plain u) : Plain (c :: u) :=
  ⟨fun hm => (List.mem_cons.1 hm).elim (fun heq => hc.1 heq.symm) h.1,
    fun hm => (List.mem_cons.1 hm).elim (fun heq => hc.2 heq.symm) h.2⟩

theorem Plain.append {u v : List XChar} (h : Plain u) (h' : Plain v) : Plain (u ++ v) :=
  ⟨fun hm => (List.mem_append.1 hm).elim h.1 h'.1, fun hm => (List.mem_append.1 hm).elim h.2 h'.2⟩

theorem Plain.takeWhile {p : XChar → Bool} (hp : p (X '%') = false ∧ p (X 'P') = false) (l : List XChar) :
    Plain (l.takeWhile p) := by
  refine ⟨fun hm => ?_, fun hm => ?_⟩
  · exact Bool.noConfusion (hp.1.symm.trans (List.mem_takeWhile_imp hm))
  · exact Bool.noConfusion (hp.2.symm.trans (List.mem_takeWhile_imp hm))

theorem number_eq (l : List XChar) : (number l).1 ++ (number l).2 = l ∧ Plain (number l).1 := by
  cases l with
  | nil => exact ⟨rfl, .nil⟩
  | cons c l =>
    by_cases hc : c = X '*'
    · have hnum : number (c :: l) = ([c], l) := if_pos hc
      rw [hnum, hc]
      exact ⟨rfl, .cons (by decide) .nil⟩
    · have hnum : number (c :: l) = ((c :: l).takeWhile isDigit, (c :: l).dropWhile isDigit) := if_neg hc
      rw [hnum]
      exact ⟨List.takeWhile_append_dropWhile, .takeWhile (by decide) _⟩

theorem precision_eq (l : List XChar) : (precision l).1 ++ (precision l).2 = l ∧ Plain (precision l).1 := by
  cases l with
  | nil => exact ⟨rfl, .nil⟩
  | cons c l =>
    obtain ⟨heq, hplain⟩ := number_eq l
    by_cases hc : c = X '.'
    · have hprec : precision (c :: l) = (c :: (number l).1, (number l).2) := if_pos hc
      rw [hprec, hc]
      exact ⟨congrArg (X '.' :: ·) heq, .cons (by decide) hplain⟩
    · have hprec : precision (c :: l) = ([], c :: l) := if_neg hc
      rw [hprec]
      exact ⟨rfl, .nil⟩

theorem modifiers_eq (l : List XChar) : (modifiers l).1 ++ (modifiers l).2 = l ∧ Plain (modifiers l).1 := by
  let flag (c : XChar) : Bool := decide (c ∈ flags)
  obtain ⟨hwidth, hplain₁⟩ := number_eq (l.dropWhile flag)
  obtain ⟨hprec, hplain₂⟩ := precision_eq (number (l.dropWhile flag)).2
  refine ⟨?_, (Plain.takeWhile (by decide) l).append (hplain₁.append hplain₂)⟩
  show l.takeWhile flag ++ ((number (l.dropWhile flag)).1 ++ (precision (number (l.dropWhile flag)).2).1) ++
    (precision (number (l.dropWhile flag)).2).2 = l
  rw [List.append_assoc, List.append_assoc, hprec, hwidth]
  exact List.takeWhile_append_dropWhile

theorem portable_eq {l u rest : List XChar} {k : XChar} (h : portable l = some (u, k, rest)) :
    l = u ++ X 'P' :: k :: rest ∧ (k = X 's' ∨ k = X 'c') ∧ Plain u := by
  obtain ⟨heq, hplain⟩ := modifiers_eq l
  unfold portable at h
  split at h
  · rename_i u' p k' rest' hm
    rw [hm] at heq hplain
    split at h
    · rename_i hc
      cases h
      exact ⟨by rw [← hc.1]; exact heq.symm, hc.2, hplain⟩
    · cases h
  · cases h

/-- The format with "%/" and the portable conversions replaced; everything else is copied. -/
def reference : List XChar → List XChar
  | [] => []
  | c :: l =>
    if c ≠ X '%' then c :: reference l
    else
      match l with
      | [] => [c]
      | d :: l' =>
        if d = X '%' then c :: d :: reference l'
        else if d = X '/' then X '/' :: reference l'
        else
          match _h : portable (d :: l') with
          | none => c :: reference (d :: l')
          | some (u, k, rest) => c :: (u ++ k :: reference rest)
termination_by l => l.length
decreasing_by
  · exact Nat.lt_succ_self _
  · exact Nat.lt_succ_of_lt (Nat.lt_succ_self _)
  · exact Nat.lt_succ_of_lt (Nat.lt_succ_self _)
  · exact Nat.lt_succ_self _
  · have hl := congrArg List.length (portable_eq _h).1
    simp only [List.length_cons, List.length_append] at hl ⊢
    omega

theorem reference_literal {c : XChar} (hc : c ≠ X '%') (l : List XChar) : reference (c :: l) = c :: reference l := by
  rw [reference.eq_def]
  simp only
  rw [if_pos hc]

theorem reference_copies {v : List XChar} (hv : X '%' ∉ v) (l : List XChar) : reference (v ++ l) = v ++ reference l := by
  induction v with
  | nil => rfl
  | cons c v ih =>
    rw [List.mem_cons, not_or] at hv
    have hc : c ≠ X '%' := fun h => hv.1 h.symm
    rw [List.cons_append, reference_literal hc, ih hv.2]
    rfl

/-! ### What the scanner does -/

/-- The scanner drops a 'P' from here on: what it copies before it, the conversion character and the rest. -/
def scanned : List XChar → Option (List XChar × XChar × List XChar)
  | [] => none
  | c :: l =>
    if c = X 'P' then
      match l with
      | k :: rest => if k = X 's' ∨ k = X 'c' then some ([], k, rest) else none
      | [] => none
    else if c ∈ specChars then (scanned l).map fun p => (c :: p.1, p.2)
    else none

theorem scanned_eq {l u rest : List XChar} {k : XChar} (h : scanned l = some (u, k, rest)) :
    l = u ++ X 'P' :: k :: rest ∧ (k = X 's' ∨ k = X 'c') ∧ Plain u := by
  induction l generalizing u with
  | nil => cases h
  | cons c l ih =>
    unfold scanned at h
    split at h
    · rename_i hc
      cases l with
      | nil => cases h
      | cons k' rest' =>
        simp only at h
        split at h
        · rename_i hk
          cases h
          exact ⟨by rw [hc]; rfl, hk, .nil⟩
        · cases h
    · rename_i hc
      split at h
      · rename_i hspec
        obtain ⟨⟨u', k', rest'⟩, hs, heq⟩ := Option.map_eq_some_iff.1 h
        cases heq
        obtain ⟨hl, hk, hplain⟩ := ih hs
        have hpercent : c ≠ X '%' := fun h => absurd (h ▸ hspec) (by decide)
        exact ⟨congrArg (c :: ·) hl, hk, .cons ⟨hpercent, hc⟩ hplain⟩
      · cases h

/-- What the scanner makes of a format: "%%" loses a '%', and a 'P' is looked for behind "%/" as behind '%'. -/
def conv : List XChar → List XChar
  | [] => []
  | c :: l =>
    if c ≠ X '%' then c :: conv l
    else
      match l with
      | [] => [c]
      | d :: l' =>
        if d = X '%' then c :: conv l'
        else if d = X '/' then
          match _h : scanned l' with
          | none => X '/' :: conv l'
          | some (u, k, rest) => X '/' :: (u ++ k :: conv rest)
        else
          match _h : scanned (d :: l') with
          | none => c :: conv (d :: l')
          | some (u, k, rest) => c :: (u ++ k :: conv rest)
termination_by l => l.length
decreasing_by
  · exact Nat.lt_succ_self _
  · exact Nat.lt_succ_of_lt (Nat.lt_succ_self _)
  · exact Nat.lt_succ_of_lt (Nat.lt_succ_self _)
  · have hl := congrArg List.length (scanned_eq _h).1
    simp only [List.length_cons, List.length_append] at hl ⊢
    omega
  · exact Nat.lt_succ_self _
  · have hl := congrArg List.length (scanned_eq _h).1
    simp only [List.length_cons, List.length_append] at hl ⊢
    omega

theorem conv_literal {c : XChar} (hc : c ≠ X '%') (l : List XChar) : conv (c :: l) = c :: conv l := by
  rw [conv.eq_def]
  simp only
  rw [if_pos hc]

theorem conv_copies {v : List XChar} (hv : X '%' ∉ v) (l : List XChar) : conv (v ++ l) = v ++ conv l := by
  induction v with
  | nil => rfl
  | cons c v ih =>
    rw [List.mem_cons, not_or] at hv
    have hc : c ≠ X '%' := fun h => hv.1 h.symm
    rw [List.cons_append, conv_literal hc, ih hv.2]
    rfl

/-- What the scanner puts out from here on. -/
def convFrom (l : List XChar) : List XChar :=
  match scanned l with
  | none => conv l
  | some (u, k, rest) => u ++ k :: conv rest

theorem conv_percent (l : List XChar) : conv (X '%' :: X '%' :: l) = X '%' :: conv l := by
  rw [conv, if_neg (by decide), if_pos rfl]

theorem conv_slash (l : List XChar) : conv (X '%' :: X '/' :: l) = X '/' :: convFrom l := by
  rw [conv, if_neg (by decide), if_neg (by decide), if_pos rfl]
  unfold convFrom
  split <;> rename_i h <;> rw [h]

theorem conv_spec {d : XChar} (l : List XChar) (h : d ≠ X '%') (h' : d ≠ X '/') :
    conv (X '%' :: d :: l) = X '%' :: convFrom (d :: l) := by
  rw [conv, if_neg (by decide), if_neg h, if_neg h']
  unfold convFrom
  split <;> rename_i h <;> rw [h]

theorem put_room {len : Nat} {out s : List XChar} (h : out.length + s.length < len) : put len out s = some (out ++ s) :=
  if_pos h

/-- With room for the rest of the format, a scan puts out what is scanned up to the conversion, or without one what it
passes over. -/
theorem scanSpec_scanned {len : Nat} {prev : XChar} {out l : List XChar} (hprev : prev ≠ X '%' ∨ l.head? ≠ some (X '/'))
    (hroom : out.length + l.length < len) :
    ∃ s rest, scanSpec len prev out l = some (out ++ s, rest) ∧
      ((∃ u k, scanned l = some (u, k, rest) ∧ s = u ++ [k]) ∨ (scanned l = none ∧ l = s ++ rest ∧ X '%' ∉ s)) := by
  induction l generalizing prev out with
  | nil => exact ⟨[], [], by rw [List.append_nil]; rfl, .inr ⟨rfl, rfl, List.not_mem_nil⟩⟩
  | cons c l ih =>
    rw [List.length_cons] at hroom
    have hone (x : XChar) : put len out [x] = some (out ++ [x]) :=
      put_room (by simp only [List.length_cons, List.length_nil]; omega)
    unfold scanSpec
    by_cases hpercent : c = X '%'
    · have hnone : scanned (c :: l) = none := by
        rw [hpercent]
        rfl
      refine ⟨[], c :: l, ?_, .inr ⟨hnone, rfl, List.not_mem_nil⟩⟩
      rw [if_pos hpercent, List.append_nil]
    have hsingle : X '%' ∉ [c] := fun h => hpercent (List.mem_singleton.1 h).symm
    rw [if_neg hpercent]
    by_cases hslash : c = X '/'
    · have hp : prev ≠ X '%' := hprev.resolve_right (by rw [hslash]; simp)
      have hnone : scanned (c :: l) = none := by
        rw [hslash]
        rfl
      refine ⟨[c], l, ?_, .inr ⟨hnone, rfl, hsingle⟩⟩
      rw [if_pos hslash, if_neg hp, hone]
      rfl
    rw [if_neg hslash]
    by_cases hP : c = X 'P'
    · rw [if_pos hP]
      cases l with
      | nil =>
        have hnone : scanned [c] = none := by
          rw [hP]
          rfl
        refine ⟨[c], [], ?_, .inr ⟨hnone, rfl, hsingle⟩⟩
        simp only
        rw [← hP, hone]
        rfl
      | cons k l =>
        have hscanned : scanned (c :: k :: l) = if k = X 's' ∨ k = X 'c' then some ([], k, l) else none := by
          rw [hP]
          rfl
        by_cases hk : k = X 's' ∨ k = X 'c'
        · refine ⟨[k], l, ?_, .inl ⟨[], k, by rw [hscanned, if_pos hk], rfl⟩⟩
          simp only
          rw [if_pos hk, hone]
          rfl
        · refine ⟨[c], k :: l, ?_, .inr ⟨by rw [hscanned, if_neg hk], rfl, hsingle⟩⟩
          simp only
          rw [if_neg hk, ← hP, hone]
          rfl
    rw [if_neg hP]
    by_cases hspec : c ∈ specChars
    · have hscanned : scanned (c :: l) = (scanned l).map fun p => (c :: p.1, p.2) := by
        rw [scanned.eq_def]
        simp only
        rw [if_neg hP, if_pos hspec]
      have hroom' : (out ++ [c]).length + l.length < len := by
        rw [List.length_append]
        simp only [List.length_cons, List.length_nil]
        omega
      obtain ⟨s, rest, hscan, hcase⟩ := ih (.inl hpercent) hroom'
      refine ⟨c :: s, rest, ?_, ?_⟩
      · rw [if_pos hspec, hone]
        show scanSpec len c (out ++ [c]) l = _
        rw [hscan, List.append_assoc]
        rfl
      · rcases hcase with ⟨u, k, hsome, hs⟩ | ⟨hnone, hl, hs⟩
        · exact .inl ⟨c :: u, k, by rw [hscanned, hsome]; rfl, by rw [hs]; rfl⟩
        · exact .inr ⟨by rw [hscanned, hnone]; rfl, by rw [hl]; rfl, fun hm =>
            (List.mem_cons.1 hm).elim (fun h => hpercent h.symm) hs⟩
    · have hnone : scanned (c :: l) = none := by
        rw [scanned.eq_def]
        simp only
        rw [if_neg hP, if_neg hspec]
      refine ⟨[c], l, ?_, .inr ⟨hnone, rfl, hsingle⟩⟩
      rw [if_neg hspec, hone]
      rfl

/-- A scan puts out what `convFrom` says before it hands over to the outer loop. -/
theorem scanSpec_convFrom {len : Nat} {prev : XChar} {out l : List XChar} (hprev : prev ≠ X '%' ∨ l.head? ≠ some (X '/'))
    (hroom : out.length + l.length < len) :
    ∃ s rest, scanSpec len prev out l = some (out ++ s, rest) ∧ convFrom l = s ++ conv rest ∧
      s.length + rest.length ≤ l.length := by
  obtain ⟨s, rest, hscan, ⟨u, k, hsome, rfl⟩ | ⟨hnone, hl, hpercent⟩⟩ := scanSpec_scanned hprev hroom
  · have hlen := congrArg List.length (scanned_eq hsome).1
    simp only [List.length_append, List.length_cons] at hlen
    refine ⟨u ++ [k], rest, hscan, ?_, ?_⟩
    · unfold convFrom
      rw [hsome]
      simp
    · simp only [List.length_append, List.length_cons, List.length_nil]
      omega
  · refine ⟨s, rest, hscan, ?_, ?_⟩
    · unfold convFrom
      rw [hnone]
      show conv l = _
      rw [hl, conv_copies hpercent]
    · rw [hl, List.length_append]

end Fmtconv
end Pcl

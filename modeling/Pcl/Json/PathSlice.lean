import Mathlib.Algebra.Ring.Divisibility.Basic
import Mathlib.Algebra.Ring.Int.Defs
import Mathlib.Data.List.Sort
import Pcl.Json.PathCompose
import Pcl.Json.RoundTrip

/-!
# Slices

A slice selector is meant to select the elements from one index up to another in steps, where a bound may be
absent or count from the end. An absent bound and 0 are one number to the compiler, and the matcher starts
before the array if the start is before it.
-/

namespace Pcl

variable {R : Type} {e : ErrState}

/-! ### The selector -/

/-- A slice selector: the bounds and the step are there or not, and the step is positive. -/
structure SliceSel where
  start : Option Int
  stop : Option Int
  step : Option Int
  start_int : ∀ i ∈ start, intMin ≤ i ∧ i ≤ intMax
  stop_int : ∀ i ∈ stop, intMin ≤ i ∧ i ≤ intMax
  step_int : ∀ i ∈ step, 1 ≤ i ∧ i ≤ intMax

/-- The text of a number that may be absent. -/
def optText (i : Option Int) : List UInt8 := i.elim [] decimal

/-- An index of an array of `n` elements, counted from the end if it is negative, brought into the array. -/
def normalise (n : Nat) (i : Int) : Int := max 0 (min (if i < 0 then i + n else i) n)

/-- The elements at the indexes with a property. -/
def picks {α : Type} (l : List α) (p : Nat → Bool) : List α := ((List.range l.length).filter p).filterMap (l[·]?)

namespace SliceSel

/-- The text of the step. -/
def stepText (sel : SliceSel) : List UInt8 := sel.step.elim [] fun s => ch ':' :: decimal s

/-- The text of the selector from behind its first colon on. -/
def tail (sel : SliceSel) : List UInt8 := optText sel.stop ++ (sel.stepText ++ [ch ']'])

/-- The text of the selector. -/
def text (sel : SliceSel) : List UInt8 := ch '[' :: (optText sel.start ++ ch ':' :: sel.tail)

theorem nul_text (sel : SliceSel) : 0 ∉ sel.text := by
  have hopt (i : Option Int) : 0 ∉ optText i := by
    cases i with
    | none => exact List.not_mem_nil
    | some i => exact nul_decimal i
  have hstep : 0 ∉ sel.stepText := by
    unfold stepText
    cases sel.step with
    | none => exact List.not_mem_nil
    | some s =>
      rintro (_ | ⟨_, h⟩)
      exact nul_decimal s h
  unfold text tail
  simp only [List.mem_cons, List.mem_append, not_or]
  exact ⟨by decide, hopt _, by decide, hopt _, hstep, by decide, List.not_mem_nil⟩

/-- The path of the selector. -/
def path (sel : SliceSel) : CStr := dollar ⟨sel.text, sel.nul_text⟩

/-- The first index. -/
def lo (sel : SliceSel) (n : Nat) : Int := sel.start.elim 0 (normalise n)

/-- The index the slice ends before. -/
def hi (sel : SliceSel) (n : Nat) : Int := sel.stop.elim n (normalise n)

/-- The step. -/
def by_ (sel : SliceSel) : Int := sel.step.getD 1

/-- The elements at `lo`, `lo + step`, `lo + 2 * step` and so on below `hi`. -/
def elements {α : Type} (sel : SliceSel) (l : List α) : List α :=
  picks l fun j => sel.lo l.length ≤ j ∧ j < sel.hi l.length ∧ (j - sel.lo l.length) % sel.by_ = 0

end SliceSel

/-! ### Compiling a slice -/

theorem readInt_decimal {i : Int} (hi : intMin ≤ i ∧ i ≤ intMax) {c : UInt8} (hc : c = ch ':' ∨ c = ch ']')
    (t : List UInt8) (line : Int) (msg : String) (f : Int → List UInt8 → ErrM Compiled) :
    readInt line msg (decimal i ++ c :: t) f e = f i (c :: t) e := by
  have hstart := decimal_starts i
  have hne : decimal i ≠ [] := by
    intro h0
    rw [h0] at hstart
    exact absurd hstart (by unfold startsNumber; decide)
  have hc' : ¬ NumChar c := by rcases hc with rfl | rfl <;> (unfold NumChar; decide)
  have hnum : Numeral (decimal i ++ c :: t) i (c :: t) := by
    refine ⟨?_, ?_, ?_, ?_⟩
    · rw [decimal_append_headD]
      intro h0
      rw [h0] at hstart
      exact absurd hstart (by unfold startsNumber; decide)
    · rw [scanNumeral_stop hc' hne hstart.ne.2.2.2.2.2.2.2.2.2, scanNumeral_decimal]
      rfl
    · exact le_trans (by decide) hi.1
    · exact le_trans hi.2 (by decide)
  unfold readInt
  rw [ErrM.bind_run, pclStrtoi_numeral hnum, Option.bind_some, toInt_eq ⟨hi.1, Int.lt_of_le_of_lt hi.2 (by decide)⟩]
  rfl

namespace SliceSel

theorem sliceStep_text (sel : SliceSel) (start stop stepLine closeLine : Int) :
    sliceStep start stop stepLine closeLine (sel.stepText ++ [ch ']']) e =
      some (some (.elementSlice start stop sel.by_, []), e) := by
  unfold stepText by_
  cases hstep : sel.step with
  | none => rfl
  | some s =>
    have hs := sel.step_int s hstep
    have hint : intMin ≤ s ∧ s ≤ intMax := ⟨le_trans (by decide) hs.1, hs.2⟩
    exact readInt_decimal hint (.inr rfl) [] stepLine "invalid slice expression: slice step" fun step p =>
      sliceClose start stop step closeLine p

/-- Behind the end of a slice comes its step, or the bracket. -/
theorem stepText_head (sel : SliceSel) : ∃ c t, sel.stepText ++ [ch ']'] = c :: t ∧ (c = ch ':' ∨ c = ch ']') := by
  unfold stepText
  cases sel.step with
  | none => exact ⟨_, _, rfl, .inr rfl⟩
  | some s => exact ⟨_, _, rfl, .inl rfl⟩

theorem decimal_head_ne (i : Int) (t : List UInt8) :
    (decimal i ++ t).headD 0 ≠ ch ':' ∧ (decimal i ++ t).headD 0 ≠ ch ']' ∧ (decimal i ++ t).headD 0 ≠ ch '*' ∧ (decimal i ++ t).headD 0 ≠ quote := by
  rw [decimal_append_headD]
  have hstart := decimal_starts i
  refine ⟨?_, ?_, ?_, ?_⟩ <;> (intro h; rw [h] at hstart; exact absurd hstart (by unfold startsNumber; decide))

theorem tail_colon (sel : SliceSel) : sel.tail.headD 0 = ch ':' ↔ sel.stop = none ∧ sel.step ≠ none := by
  unfold tail stepText
  cases hstop : sel.stop with
  | some s => exact iff_of_false (decimal_head_ne s _).1 fun h => absurd h.1 (Option.some_ne_none s)
  | none =>
    cases hstep : sel.step with
    | none => exact iff_of_false (by decide : ch ']' ≠ ch ':') fun h => h.2 rfl
    | some s => exact iff_of_true rfl ⟨rfl, Option.some_ne_none s⟩

theorem tail_bracket (sel : SliceSel) : sel.tail.headD 0 = ch ']' ↔ sel.stop = none ∧ sel.step = none := by
  unfold tail stepText
  cases hstop : sel.stop with
  | some s => exact iff_of_false (decimal_head_ne s _).2.1 fun h => absurd h.1 (Option.some_ne_none s)
  | none =>
    cases hstep : sel.step with
    | none => exact iff_of_true rfl ⟨rfl, rfl⟩
    | some s => exact iff_of_false (by decide : ch ':' ≠ ch ']') fun h => absurd h.2 (Option.some_ne_none s)

/-- The end of a slice and its step, where `omitted` says that the end is not there. -/
theorem sliceEnd_tail (sel : SliceSel) {omitted : Bool} (homit : omitted = true ↔ sel.stop = none)
    (start endLine stepLine closeLine : Int) : sliceEnd start omitted endLine stepLine closeLine sel.tail e =
      some (some (.elementSlice start (sel.stop.getD 0) sel.by_, []), e) := by
  unfold tail
  cases hstop : sel.stop with
  | none =>
    rw [homit.2 hstop]
    exact sel.sliceStep_text start 0 stepLine closeLine
  | some s =>
    have hfalse : omitted = false := by
      rw [← Bool.not_eq_true, homit, hstop]
      exact Option.some_ne_none s
    obtain ⟨c, t, hhead, hc⟩ := sel.stepText_head
    have hstep := sel.sliceStep_text (e := e) start s stepLine closeLine
    rw [hfalse, hhead] at *
    exact (readInt_decimal (sel.stop_int s hstop) hc t endLine "invalid slice expression: slice end" fun stop p =>
      sliceStep start stop stepLine closeLine p).trans (by rwa [← hhead]) 

/-- A bound or the step is there. -/
def Written (sel : SliceSel) : Prop := sel.start ≠ none ∨ sel.stop ≠ none ∨ sel.step ≠ none

instance (sel : SliceSel) : Decidable sel.Written := by unfold Written; infer_instance

/-- The node of the selector. -/
def node (sel : SliceSel) : PathNode := .elementSlice (sel.start.getD 0) (sel.stop.getD 0) sel.by_

theorem compileBracket_text (sel : SliceSel) (hw : sel.Written) :
    compileBracket (optText sel.start ++ ch ':' :: sel.tail) e = some (some (sel.node, []), e) := by
  unfold compileBracket node
  cases hstart : sel.start with
  | none =>
    rw [show optText none ++ ch ':' :: sel.tail = ch ':' :: sel.tail from rfl]
    have hstar : ¬ txt "*]" <+: ch ':' :: sel.tail := not_starts_star (by decide : ch ':' ≠ ch '*')
    have homit : decide (sel.tail.headD 0 = ch ':') = true ↔ sel.stop = none := by
      rw [decide_eq_true_eq, sel.tail_colon]
      refine ⟨And.left, fun hstop => ⟨hstop, fun hstep => ?_⟩⟩
      rcases hw with h | h | h
      · exact h hstart
      · exact h hstop
      · exact h hstep
    rw [if_neg hstar, List.headD_cons, if_neg (by decide : ch ':' ≠ quote), if_pos rfl]
    exact sel.sliceEnd_tail homit 0 _ _ _
  | some i =>
    rw [show optText (some i) = decimal i from rfl]
    have hhead := decimal_head_ne i (ch ':' :: sel.tail)
    have hstar : ¬ txt "*]" <+: decimal i ++ ch ':' :: sel.tail := not_starts_star hhead.2.2.1
    have homit : decide (sel.tail.headD 0 = ch ']' ∨ sel.tail.headD 0 = ch ':') = true ↔ sel.stop = none := by
      rw [decide_eq_true_eq, sel.tail_colon, sel.tail_bracket, ← and_or_left]
      exact and_iff_left (em _)
    rw [if_neg hstar, if_neg hhead.2.2.2, if_neg hhead.1]
    refine (readInt_decimal (sel.start_int i hstart) (.inl rfl) sel.tail 186 "invalid subscript expression" _).trans ?_
    exact sel.sliceEnd_tail homit i _ _ _

/-- A slice is compiled if a bound or the step is there. -/
theorem jsonCompile_path (sel : SliceSel) (hw : sel.Written) :
    jsonCompile sel.path e = some (some [.root, sel.node], e) := by
  have hnode : compileNode sel.text e = some (some (sel.node, []), e) := sel.compileBracket_text hw
  exact jsonCompile_dollar (.inr rfl) (.cons hnode .nil)

/-- Without any of them the end of the slice is not found. -/
theorem jsonCompile_path_zero (sel : SliceSel) (hw : ¬ sel.Written) :
    ∀ nodes e', jsonCompile sel.path .zero ≠ some (some nodes, e') := by
  obtain ⟨hstart, hstop, hstep⟩ : sel.start = none ∧ sel.stop = none ∧ sel.step = none := by
    unfold Written at hw
    simpa only [not_or, not_not] using hw
  have htext : sel.text = txt "[:]" := by
    unfold text tail stepText
    rw [hstart, hstop, hstep]
    rfl
  have hpath : sel.path = dollar (.lit "[:]") := by
    unfold path
    congr 1
    exact CStr.ext htext
  have hnone : (jsonCompile (dollar (.lit "[:]")) .zero).all (·.1.isNone) = true := by decide
  intro nodes e' h
  rw [hpath] at h
  rw [h] at hnone
  cases hnone

end SliceSel

/-! ### The indexes of the loop -/

section
variable {stop step i j : Int} {m : Nat}

theorem sliceIndexes_mem (hstep : 0 < step) (hm : (stop - i).toNat ≤ m) :
    j ∈ sliceIndexes stop step m i ↔ i ≤ j ∧ j < stop ∧ step ∣ j - i := by
  induction m generalizing i with
  | zero =>
    refine ⟨fun h => absurd h List.not_mem_nil, ?_⟩
    rintro ⟨h₁, h₂, -⟩
    omega
  | succ m ih =>
    by_cases hi : i < stop
    · have hind : sliceIndexes stop step (m + 1) i = i :: sliceIndexes stop step m (i + step) := if_pos hi
      have hshift : step ∣ j - (i + step) ↔ step ∣ j - i := by
        rw [show j - (i + step) = j - i - step by omega]
        exact dvd_sub_self_right
      rw [hind, List.mem_cons, ih (by omega), hshift]
      constructor
      · rintro (rfl | ⟨h₁, h₂, h₃⟩)
        · exact ⟨le_refl _, hi, by simp⟩
        · exact ⟨by omega, h₂, h₃⟩
      · rintro ⟨h₁, h₂, h₃⟩
        by_cases hj : j = i
        · exact .inl hj
        · have := Int.le_of_dvd (by omega) h₃
          exact .inr ⟨by omega, h₂, h₃⟩
    · have hind : sliceIndexes stop step (m + 1) i = [] := if_neg hi
      rw [hind]
      refine ⟨fun h => absurd h List.not_mem_nil, ?_⟩
      rintro ⟨h₁, h₂, -⟩
      omega

theorem sliceIndexes_ge (hstep : 0 < step) (h : j ∈ sliceIndexes stop step m i) : i ≤ j := by
  induction m generalizing i with
  | zero => exact absurd h List.not_mem_nil
  | succ m ih =>
    rw [sliceIndexes] at h
    split at h
    · rcases List.mem_cons.1 h with rfl | h
      · exact le_refl _
      · have := ih h
        omega
    · exact absurd h List.not_mem_nil

theorem sliceIndexes_increasing (hstep : 0 < step) : (sliceIndexes stop step m i).Pairwise (· < ·) := by
  induction m generalizing i with
  | zero => exact .nil
  | succ m ih =>
    rw [sliceIndexes]
    split
    · refine .cons (fun j hj => ?_) ih
      have := sliceIndexes_ge hstep hj
      omega
    · exact .nil

theorem sliceIndexes_picks {α : Type} (l : List α) (hstep : 0 < step) (hm : (stop - i).toNat ≤ m) :
    (sliceIndexes stop step m i).filterMap (elementAt l) = picks l fun j => i ≤ j ∧ j < stop ∧ step ∣ j - i := by
  have hat : elementAt l = fun k : Int => if 0 ≤ k ∧ k < l.length then l[k.toNat]? else none := by
    funext k
    unfold elementAt
    by_cases hk : k < 0
    · rw [if_pos hk, if_neg (by omega)]
    · by_cases hlen : k < l.length
      · rw [if_neg hk, if_pos ⟨by omega, hlen⟩]
      · rw [if_neg hk, if_neg (by omega)]
        exact List.getElem?_eq_none (by omega)
  have hindexes : ((sliceIndexes stop step m i).filter fun k : Int => decide (0 ≤ k ∧ k < l.length)).map Int.toNat =
      (List.range l.length).filter fun j : Nat => decide (i ≤ j ∧ j < stop ∧ step ∣ j - i) := by
    refine List.Pairwise.eq_of_mem_iff (r := (· < ·)) ?_ (List.pairwise_lt_range.filter _) fun j => ?_
    · rw [List.pairwise_map]
      refine ((sliceIndexes_increasing hstep).filter _).imp_of_mem ?_
      intro a b ha hb hab
      have := of_decide_eq_true (List.mem_filter.1 ha).2
      omega
    · simp only [List.mem_map, List.mem_filter, sliceIndexes_mem hstep hm, decide_eq_true_eq, List.mem_range]
      constructor
      · rintro ⟨k, ⟨⟨h₁, h₂, h₃⟩, h0, hlen⟩, rfl⟩
        rw [Int.toNat_of_nonneg h0]
        exact ⟨by omega, h₁, h₂, h₃⟩
      · rintro ⟨hj, h⟩
        exact ⟨j, ⟨h, by omega, by omega⟩, by omega⟩
  unfold picks
  rw [← hindexes, List.filterMap_map, hat, List.filterMap_filter]
  congr 1
  funext k
  by_cases hk : 0 ≤ k ∧ k < l.length
  · simp [hk]
  · simp [hk]

end

/-- An array that holds its own indexes. -/
def indexArray (R : Type) (n : Nat) : List (Json R) := (List.range n).map fun k : Nat => .int k

@[simp] theorem length_indexArray (n : Nat) : (indexArray R n).length = n := by simp [indexArray]

theorem picks_injective {n : Nat} {p q : Nat → Bool} (h : picks (indexArray R n) p = picks (indexArray R n) q) :
    ∀ j < n, p j = q j := by
  have hpicks (r : Nat → Bool) : picks (indexArray R n) r = ((List.range n).filter r).map fun k : Nat => .int k := by
    unfold picks
    rw [length_indexArray, ← List.filterMap_eq_map]
    refine List.filterMap_congr fun k hk => ?_
    have hk := List.mem_range.1 (List.mem_filter.1 hk).1
    simp [indexArray, hk]
  have hinj : Function.Injective fun k : Nat => (.int k : Json R) := fun a b hab => by
    injection hab with hab
    exact Int.ofNat_inj.1 hab
  rw [hpicks, hpicks] at h
  have heq := List.map_injective_iff.2 hinj h
  intro j hj
  have hiff : j ∈ (List.range n).filter p ↔ j ∈ (List.range n).filter q := by rw [heq]
  simp only [List.mem_filter, List.mem_range, hj, true_and] at hiff
  exact Bool.eq_iff_iff.2 hiff

theorem picks_congr {α : Type} {l : List α} {p q : Nat → Bool} (h : ∀ j < l.length, p j = q j) :
    picks l p = picks l q := by
  unfold picks
  rw [List.filter_congr fun j hj => h j (List.mem_range.1 hj)]

/-! ### Matching a slice -/

namespace SliceSel

/-- The index the matcher starts at, which may lie before the array. -/
def first (sel : SliceSel) (n : Nat) : Int := sliceStart (sel.start.getD 0) n

/-- The index the matcher ends before. -/
def last (sel : SliceSel) (n : Nat) : Int := sliceStop (sel.stop.getD 0) n

/-- The slice selects the same elements for the matcher: an end that is 0 has nothing before it, and a start
before the array is in step with its first element. -/
structure InPhase (sel : SliceSel) (n : Nat) : Prop where
  zero : sel.stop = some 0 → n ≤ if sel.first n < 0 then sel.first n % sel.by_ else sel.first n
  phase : sel.first n < 0 → 0 < sel.hi n → sel.by_ ∣ sel.first n

theorem by_pos (sel : SliceSel) : 0 < sel.by_ := by
  unfold by_
  cases hstep : sel.step with
  | none => decide
  | some s =>
    have := (sel.step_int s hstep).1
    exact this

theorem lo_first (sel : SliceSel) (n : Nat) : sel.lo n = max 0 (min (sel.first n) n) := by
  unfold lo first normalise sliceStart
  cases sel.start with
  | none =>
    simp only [Option.elim_none, Option.getD_none]
    omega
  | some i =>
    simp only [Option.elim_some, Option.getD_some]
    rw [Int.add_comm]

theorem hi_last (sel : SliceSel) (n : Nat) :
    sel.hi n = if sel.stop = some 0 then 0 else max 0 (min (sel.last n) n) := by
  unfold hi last normalise sliceStop
  cases sel.stop with
  | none =>
    simp only [Option.elim_none, Option.getD_none, reduceCtorEq, ↓reduceIte]
    omega
  | some i =>
    simp only [Option.elim_some, Option.getD_some, Option.some.injEq]
    by_cases h0 : i = 0
    · rw [if_pos h0, h0]
      omega
    · rw [if_neg h0, if_neg h0, Int.add_comm]

theorem last_zero (sel : SliceSel) (n : Nat) (h : sel.stop = some 0) : sel.last n = n := by
  unfold last sliceStop
  rw [h]
  exact if_pos rfl

/-- The matcher and the slice agree on every index of the array exactly in phase. -/
theorem inPhase_iff (sel : SliceSel) (n : Nat) : sel.InPhase n ↔ ∀ j < n,
    decide (sel.first n ≤ j ∧ j < sel.last n ∧ sel.by_ ∣ j - sel.first n) =
      decide (sel.lo n ≤ j ∧ j < sel.hi n ∧ ((j : Int) - sel.lo n) % sel.by_ = 0) := by
  have hpos := sel.by_pos
  have hlo := sel.lo_first n
  have hhi := sel.hi_last n
  simp only [decide_eq_decide, ← Int.dvd_iff_emod_eq_zero]
  -- the indexes the matcher may meet are those that leave the remainder of its start
  have hmod (j : Nat) : sel.by_ ∣ j - sel.first n ↔ (j : Int) % sel.by_ = sel.first n % sel.by_ := by
    rw [Int.dvd_iff_emod_eq_zero, Int.emod_eq_emod_iff_emod_sub_eq_zero]
  have hrange := Int.emod_lt_of_pos (sel.first n) hpos
  have hnonneg := Int.emod_nonneg (sel.first n) (ne_of_gt hpos)
  constructor
  · rintro ⟨hzero, hphase⟩ j hj
    by_cases hz : sel.stop = some 0
    · rw [if_pos hz] at hhi
      refine iff_of_false ?_ (by omega)
      rintro ⟨hge, -, hdvd⟩
      have hn := hzero hz
      by_cases hneg : sel.first n < 0
      · rw [if_pos hneg] at hn
        rw [hmod, Int.emod_eq_of_lt (by omega) (by omega)] at hdvd
        omega
      · rw [if_neg hneg] at hn
        omega
    · rw [if_neg hz] at hhi
      by_cases hneg : sel.first n < 0
      · have hlo0 : sel.lo n = 0 := by omega
        have hdvd : 0 < sel.hi n → (sel.by_ ∣ j - sel.first n ↔ sel.by_ ∣ j - sel.lo n) := fun h => by
          rw [hlo0, Int.sub_zero, dvd_sub_left (hphase hneg h)]
        constructor
        · rintro ⟨-, hlt, hd⟩
          exact ⟨by omega, by omega, (hdvd (by omega)).1 hd⟩
        · rintro ⟨-, hlt, hd⟩
          exact ⟨by omega, by omega, (hdvd (by omega)).2 hd⟩
      · by_cases hlt : sel.first n < n
        · have hlo' : sel.lo n = sel.first n := by omega
          rw [hlo']
          refine and_congr_right fun _ => and_congr_left fun _ => ?_
          omega
        · exact iff_of_false (by omega) (by omega)
  · intro h
    refine ⟨fun hz => ?_, fun hneg hlast => ?_⟩
    · have hlast := sel.last_zero n hz
      rw [if_pos hz] at hhi
      by_contra hlt
      by_cases hneg : sel.first n < 0
      · rw [if_pos hneg] at hlt
        have hmeets := (h (sel.first n % sel.by_).toNat (by omega)).1 ⟨by omega, by omega, ?_⟩
        · omega
        · rw [hmod, Int.toNat_of_nonneg hnonneg, Int.emod_emod]
      · rw [if_neg hneg] at hlt
        have hmeets := (h (sel.first n).toNat (by omega)).1 ⟨by omega, by omega, ?_⟩
        · omega
        · rw [hmod, Int.toNat_of_nonneg (by omega)]
    · have hz : sel.stop ≠ some 0 := fun hz => by
        rw [if_pos hz] at hhi
        omega
      rw [if_neg hz] at hhi
      have hlo0 : sel.lo n = 0 := by omega
      have hmeets := (h 0 (by omega)).2 ⟨by omega, by omega, by rw [hlo0]; exact ⟨0, by simp⟩⟩
      rw [← Int.dvd_neg]
      simpa using hmeets.2.2

theorem pathOk (sel : SliceSel) : PathOk [.root, sel.node] := by
  refine ⟨by simp [node], fun a b c hm => ?_⟩
  rcases hm with _ | ⟨_, _ | ⟨_, hm⟩⟩
  · cases hstart : sel.start with
    | none => decide
    | some i => exact (sel.start_int i hstart).1
  · exact absurd hm List.not_mem_nil

theorem results_path (sel : SliceSel) (l : List (Json R)) : results [.root, sel.node] (.arr l) =
    picks l fun j => sel.first l.length ≤ j ∧ j < sel.last l.length ∧ sel.by_ ∣ j - sel.first l.length := by
  rw [results_root, results_last (by simp [node]), if_neg (show ¬ Mismatch sel.node _ from id)]
  exact sliceIndexes_picks l sel.by_pos (le_refl _)

theorem slicesOk_path (sel : SliceSel) (l : List (Json R)) : SlicesOk [.root, sel.node] (.arr l) ↔
    SliceEnds (sel.first l.length) (sel.last l.length) sel.by_ := by
  have hnil (u : Json R) : SlicesOk [] u := fun path' w hv => by
    obtain ⟨rfl, -⟩ := hv.nil
    trivial
  rw [slicesOk_cons]
  refine ⟨fun h => ?_, fun h => ⟨trivial, fun c hc => ?_⟩⟩
  · exact (slicesOk_cons.1 (h.2 _ (List.mem_singleton_self _))).1
  · rw [List.mem_singleton.1 hc, slicesOk_cons]
    refine ⟨h, fun d hd => ?_⟩
    obtain ⟨u, -, rfl⟩ := List.mem_map.1 hd
    exact hnil u

/-- A path that is compiled matches what the loop of the matcher picks, if the loop ends. -/
theorem matches_path (sel : SliceSel) (l : List (Json R)) {res : List (Json R)} :
    Matches [.root, sel.node] (.arr l) res ↔ SliceEnds (sel.first l.length) (sel.last l.length) sel.by_ ∧ res =
      picks l fun j => sel.first l.length ≤ j ∧ j < sel.last l.length ∧ sel.by_ ∣ j - sel.first l.length := by
  rw [matches_iff (List.cons_ne_nil _ _) sel.pathOk, sel.slicesOk_path, sel.results_path]

end SliceSel

/-- In every array of `n` elements the path of the selector matches the elements of the slice. -/
def SliceMeets (R : Type) (n : Nat) (sel : SliceSel) : Prop := ∀ l : List (Json R), l.length = n → ∀ e,
  ∃ nodes e', jsonCompile sel.path e = some (some nodes, e') ∧ Matches nodes (.arr l) (sel.elements l)

/-- A slice selects what it is meant to exactly where a bound or the step is written, the loop of the matcher
stays within `int`, an end that is 0 has nothing before it, and a start before the array is in step with its
first element. -/
theorem jsonMatch_slice_iff (n : Nat) (sel : SliceSel) : SliceMeets R n sel ↔
    sel.Written ∧ SliceEnds (sel.first n) (sel.last n) sel.by_ ∧ sel.InPhase n := by
  rw [sel.inPhase_iff]
  constructor
  · intro h
    have hw : sel.Written := by
      by_contra hw
      obtain ⟨nodes, e', hc, -⟩ := h (indexArray R n) (length_indexArray n) .zero
      exact sel.jsonCompile_path_zero hw nodes e' hc
    obtain ⟨nodes, e', hc, hm⟩ := h (indexArray R n) (length_indexArray n) .zero
    rw [sel.jsonCompile_path hw] at hc
    cases hc
    rw [sel.matches_path, length_indexArray] at hm
    obtain ⟨hends, heq⟩ := hm
    refine ⟨hw, hends, picks_injective (R := R) ?_⟩
    rw [← heq, SliceSel.elements, length_indexArray]
  · rintro ⟨hw, hends, heq⟩ l rfl e
    exact ⟨_, e, sel.jsonCompile_path hw, (sel.matches_path l).2 ⟨hends, (picks_congr heq).symm⟩⟩

/-- An end that is 0 is taken for an absent one: `$[0:0:1]` matches the element of an array. -/
theorem jsonMatch_slice_zero : ¬ SliceMeets Nat 1 ⟨some 0, some 0, some 1, by decide, by decide, by decide⟩ := by
  intro h
  obtain ⟨nodes, e', hc, hm⟩ := h [.null] rfl .zero
  rw [SliceSel.jsonCompile_path _ (by decide)] at hc
  cases hc
  have hlen := congrArg List.length ((SliceSel.matches_path _ _).1 hm).2
  exact absurd hlen (by decide)

end Pcl

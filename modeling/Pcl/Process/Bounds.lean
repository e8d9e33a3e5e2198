import Pcl.Process.Parsecmd

/-!
# How far `pcl_proc_parsecmd` reads

A backslash takes the character behind it along, whatever that is, so in front of the NUL the cursor leaves
the command. `Args` is the grammar of the arguments the parser has behind it; what it runs into is read off
the text that is left.
-/

namespace Pcl

/-- The table has its capacity, and a `NULL` behind the elements is in it. -/
structure PArray.Terminated {α : Type} (arr : PArray α) : Prop where
  length_eq : arr.elements.length = arr.capacity
  count_lt : arr.count < arr.capacity
  null_behind : arr.elements[arr.count]? = some none

/-- The parser stays in the command, and an array that it returns has a `NULL` behind its elements. -/
def ParsecmdMeets (cmd : CStr) : Prop :=
  ∀ e, ∃ res e', procParsecmdExec (some cmd) e = some (res, e') ∧ ∀ arr, res = some arr → arr.Terminated

/-! ### The arguments of a command -/

/-- What follows the blanks and the opening quote, and whether there is one. -/
def opened (text : List UInt8) : Bool × List UInt8 := openQuote false (text.dropWhile isspace)

/-- What an argument ends at. -/
def Stops (inQuote : Bool) (c : UInt8) : Prop := c = ch '"' ∨ inQuote = false ∧ (c = ch ' ' ∨ c = ch '\t')

/-- The text of an argument: a backslash and what follows it, or any other character that does not end it. -/
inductive ArgText (inQuote : Bool) : List UInt8 → Prop where
  | nil : ArgText inQuote []
  | escape {c t} (h : ArgText inQuote t) : ArgText inQuote (ch '\\' :: c :: t)
  | char {c t} (hc : c ≠ ch '\\') (hs : ¬ Stops inQuote c) (h : ArgText inQuote t) : ArgText inQuote (c :: t)

/-- The text has `n` arguments in front of `rest`, those without any text not counted. -/
inductive Args : Nat → List UInt8 → List UInt8 → Prop where
  | none {text} : Args 0 text text
  | arg {text q t c rest n rest'} (h : opened text = (q, t ++ c :: rest)) (ht : ArgText q t) (hc : Stops q c)
      (hq : c = ch '"' → q = true) (hrest : Args n rest rest') : Args ((if t = [] then 0 else 1) + n) text rest'

/-- What is left is the text of an argument and a backslash. -/
def Lone (text : List UInt8) : Prop := ∃ q t, opened text = (q, t ++ [ch '\\']) ∧ ArgText q t

/-- The text is `n` arguments. -/
def Whole (n : Nat) (text : List UInt8) : Prop :=
  ∃ m rest t, Args m text rest ∧ opened rest = (false, t) ∧ ArgText false t ∧ n = m + if t = [] then 0 else 1

/-- No argument ends in a backslash that escapes nothing, and the array, whose capacity is an `int`, has room for
the arguments and a `NULL` behind them. -/
structure Parsable (text : List UInt8) : Prop where
  not_lone : ∀ n rest, Args n text rest → ¬ Lone rest
  room : ∀ n rest, Args n text rest → n ≤ 2 ^ 30
  room_null : ∀ n, Whole n text → n < 2 ^ 30

/-! ### The parser over an argument -/

theorem parsecmdExec_text {q : Bool} {t : List UInt8} (ht : ArgText q t) (start rest : List UInt8) (arr : PArray CStr) :
    parsecmdExec start (t ++ rest) q arr = parsecmdExec start rest q arr := by
  induction ht with
  | nil => rfl
  | escape h ih =>
    rw [List.cons_append, List.cons_append, parsecmdExec.eq_def]
    simp only [↓reduceIte]
    exact ih
  | @char c t hc hs h ih =>
    rw [List.cons_append, parsecmdExec.eq_def]
    rw [Stops, not_or, not_and] at hs
    simp only [hc, hs.1, false_or, ↓reduceIte, false_and, ne_eq, not_false_eq_true, true_and]
    split
    · next hblank =>
      cases q with
      | false => exact absurd hblank (hs.2 rfl)
      | true => exact ih
    · exact ih

/-- The text of an argument ends where the command does, at a lone backslash, or at what stops it. -/
theorem argText_split (q : Bool) : ∀ text : List UInt8, ∃ t rest, text = t ++ rest ∧ ArgText q t ∧
    (rest = [] ∨ rest = [ch '\\'] ∨ ∃ c rest', rest = c :: rest' ∧ Stops q c)
  | [] => ⟨[], [], rfl, .nil, .inl rfl⟩
  | [c] => by
    by_cases hc : c = ch '\\'
    · exact ⟨[], [c], rfl, .nil, .inr (.inl (by rw [hc]))⟩
    by_cases hs : Stops q c
    · exact ⟨[], [c], rfl, .nil, .inr (.inr ⟨c, [], rfl, hs⟩)⟩
    · exact ⟨[c], [], rfl, .char hc hs .nil, .inl rfl⟩
  | c :: d :: text => by
    by_cases hc : c = ch '\\'
    · obtain ⟨t, rest, rfl, ht, hrest⟩ := argText_split q text
      exact ⟨c :: d :: t, rest, rfl, hc ▸ .escape ht, hrest⟩
    by_cases hs : Stops q c
    · exact ⟨[], c :: d :: text, rfl, .nil, .inr (.inr ⟨c, d :: text, rfl, hs⟩)⟩
    · obtain ⟨t, rest, heq, ht, hrest⟩ := argText_split q (d :: text)
      exact ⟨c :: t, rest, by rw [heq, List.cons_append], .char hc hs ht, hrest⟩

/-- The parser in front of an argument. -/
def parseFrom (text : List UInt8) (arr : PArray CStr) : ErrM (Option (PArray CStr)) :=
  parsecmdExec (opened text).2 (opened text).2 (opened text).1 arr

theorem parseFrom_arg {text t rest : List UInt8} {q : Bool} {c : UInt8} (h : opened text = (q, t ++ c :: rest))
    (ht : ArgText q t) (hc : Stops q c) (hq : c = ch '"' → q = true) (arr : PArray CStr) :
    parseFrom text arr = appendText arr (t ++ c :: rest) (c :: rest) >>= parseFrom rest := by
  have hslash : c ≠ ch '\\' := by
    rcases hc with rfl | ⟨-, rfl | rfl⟩ <;> decide
  have hend : c = ch '"' ∨ c = ch ' ' ∨ c = ch '\t' := hc.imp_right And.right
  have hskip : ¬ (c ≠ ch '"' ∧ q = true) := by
    rintro ⟨hne, rfl⟩
    rcases hc with h | ⟨h, -⟩
    · exact hne h
    · exact nomatch h
  have hopen : ¬ (c = ch '"' ∧ q = false) := by
    rintro ⟨heq, rfl⟩
    cases hq heq
  unfold parseFrom
  rw [h]
  show parsecmdExec (t ++ c :: rest) (t ++ c :: rest) q arr = _
  rw [parsecmdExec_text ht, parsecmdExec.eq_def]
  simp only [if_neg hslash, if_pos hend, if_neg hskip, if_neg hopen]
  rfl

/-- A quote in the middle of an argument that has none in front. -/
theorem parseFrom_quote {text t rest : List UInt8} (h : opened text = (false, t ++ ch '"' :: rest))
    (ht : ArgText false t) (arr : PArray CStr) (e : ErrState) : ∃ e', parseFrom text arr e = some (none, e') := by
  unfold parseFrom
  rw [h]
  show ∃ e', parsecmdExec (t ++ ch '"' :: rest) (t ++ ch '"' :: rest) false arr e = _
  have hslash : ch '"' ≠ ch '\\' := by decide
  rw [parsecmdExec_text ht, parsecmdExec.eq_def]
  simp only [if_neg hslash, true_or, if_true, and_self]
  rw [ErrM.bind_run, setErrMsg_run _ _ _ _ (by decide)]
  exact ⟨_, rfl⟩

theorem parseFrom_lone {text : List UInt8} (h : Lone text) (arr : PArray CStr) : parseFrom text arr = ErrM.undef := by
  obtain ⟨q, t, hopen, ht⟩ := h
  unfold parseFrom
  rw [hopen]
  show parsecmdExec (t ++ [ch '\\']) (t ++ [ch '\\']) q arr = _
  rw [parsecmdExec_text ht, parsecmdExec.eq_def]
  rfl

/-- The command ends inside an argument. -/
theorem parseFrom_end {text t : List UInt8} {q : Bool} (h : opened text = (q, t)) (ht : ArgText q t)
    (arr : PArray CStr) : parseFrom text arr = parsecmdExec t [] q arr := by
  have hrun := parsecmdExec_text ht t [] arr
  rw [List.append_nil] at hrun
  unfold parseFrom
  rw [h]
  exact hrun

/-! ### The end of the command -/

theorem parsecmdExec_unterminated (t : List UInt8) (arr : PArray CStr) (e : ErrState) :
    ∃ e', parsecmdExec t [] true arr e = some (none, e') := by
  rw [parsecmdExec.eq_def]
  simp only [if_true]
  rw [ErrM.bind_run, setErrMsg_run _ _ _ _ (by decide)]
  exact ⟨_, rfl⟩

namespace Filled
variable {arr : PArray CStr} {l : List (Option CStr)}

/-- Taking the `NULL` at the end out of the count leaves it in its slot. -/
theorem terminated (h : Filled arr (l ++ [none])) : PArray.Terminated { arr with count := arr.count - 1 } := by
  obtain ⟨⟨t, href, hlist⟩, -⟩ := h
  have hle := t.length_le
  have hlen : t.list.length = l.length + 1 := by rw [hlist, List.length_append, List.length_singleton]
  have hcount : arr.count - 1 = l.length := by rw [href.count_eq, hlen, Nat.add_sub_cancel]
  have hcap := href.capacity_eq
  refine ⟨?_, ?_, ?_⟩
  · show arr.elements.length = arr.capacity
    rw [href.elements_eq, List.length_append, List.length_replicate, hcap]
    omega
  · show arr.count - 1 < arr.capacity
    omega
  · show arr.elements[arr.count - 1]? = some none
    rw [hcount, href.getElem?_slot (by omega), hlist, List.getElem?_concat_length]
    rfl

theorem finish (h : Filled arr l) (t : List UInt8) (e : ErrState)
    (hroom : l.length + (if t = [] then 0 else 1) < 2 ^ 30) :
    ∃ arr', parsecmdExec t [] false arr e = some (some arr', e) ∧ arr'.Terminated := by
  obtain ⟨arr₁, l₁, htext, h₁, hlen⟩ := h.appendText t [] e (Nat.le_of_lt hroom)
  obtain ⟨arr₂, hnull, h₂⟩ := h₁.append none (hlen ▸ hroom) e
  refine ⟨_, ?_, h₂.terminated⟩
  rw [List.append_nil] at htext
  rw [parsecmdExec.eq_def]
  simp only [Bool.false_eq_true, if_false, ErrM.bind_run, htext, Option.bind_some, hnull]
  rfl

theorem finish_full (h : Filled arr l) (t : List UInt8) (e : ErrState)
    (hfull : ¬ l.length + (if t = [] then 0 else 1) < 2 ^ 30) : parsecmdExec t [] false arr e = none := by
  rw [parsecmdExec.eq_def]
  simp only [Bool.false_eq_true, if_false, ErrM.bind_run]
  by_cases hroom : l.length + (if t = [] then 0 else 1) ≤ 2 ^ 30
  · obtain ⟨arr₁, l₁, htext, h₁, hlen⟩ := h.appendText t [] e hroom
    rw [List.append_nil] at htext
    rw [htext, Option.bind_some, h₁.append_full none (hlen ▸ hfull)]
    rfl
  · have hundef := h.appendText_full t [] hroom
    rw [List.append_nil] at hundef
    rw [hundef]
    rfl

end Filled

/-! ### The whole command -/

/-- Over the arguments in front the parser appends them, or the array has no room for them. -/
theorem parseFrom_args {n : Nat} {text rest : List UInt8} (hargs : Args n text rest) (e : ErrState) :
    ∀ {arr l}, Filled arr l → parseFrom text arr e = none ∨
      ∃ arr' l', Filled arr' l' ∧ l'.length = l.length + n ∧ parseFrom text arr e = parseFrom rest arr' e := by
  induction hargs with
  | none => exact fun {arr l} h => .inr ⟨arr, l, h, rfl, rfl⟩
  | @arg text q t c rest n rest' hopen ht hc hq hrest ih =>
    intro arr l h
    rw [parseFrom_arg hopen ht hc hq, ErrM.bind_run]
    by_cases hroom : l.length + (if t = [] then 0 else 1) ≤ 2 ^ 30
    · obtain ⟨arr₁, l₁, htext, h₁, hlen⟩ := h.appendText t (c :: rest) e hroom
      rw [htext, Option.bind_some]
      rcases ih h₁ with hnone | ⟨arr', l', h', hlen', hrun⟩
      · exact .inl hnone
      · exact .inr ⟨arr', l', h', by omega, hrun⟩
    · rw [h.appendText_full t (c :: rest) hroom]
      exact .inl rfl

theorem opened_length (text : List UInt8) : (opened text).2.length ≤ text.length :=
  Nat.le_trans (openQuote_length _ _) (List.length_dropWhile_le _ _)

theorem parseFrom_defined {text : List UInt8} {arr : PArray CStr} {l : List (Option CStr)} (h : Filled arr l)
    (hlone : ∀ n rest, Args n text rest → ¬ Lone rest) (hroom : ∀ n rest, Args n text rest → l.length + n ≤ 2 ^ 30)
    (hnull : ∀ n, Whole n text → l.length + n < 2 ^ 30) (e : ErrState) :
    ∃ res e', parseFrom text arr e = some (res, e') ∧ ∀ arr', res = some arr' → arr'.Terminated := by
  induction hm : text.length using Nat.strong_induction_on generalizing text arr l with
  | _ m ih =>
    subst hm
    obtain ⟨t, rest, htext, ht, hrest⟩ := argText_split (opened text).1 (opened text).2
    have hopen : opened text = ((opened text).1, t ++ rest) := Prod.ext rfl htext
    rcases hrest with rfl | rfl | ⟨c, rest, rfl, hc⟩
    · rw [List.append_nil] at hopen
      rw [parseFrom_end hopen ht]
      cases hq : (opened text).1 with
      | true =>
        obtain ⟨e', hrun⟩ := parsecmdExec_unterminated t arr e
        exact ⟨none, e', hrun, fun _ h => nomatch h⟩
      | false =>
        rw [hq] at hopen ht
        have hwhole : Whole (0 + if t = [] then 0 else 1) text := ⟨0, text, t, .none, hopen, ht, rfl⟩
        obtain ⟨arr', hrun, hterm⟩ := h.finish t e (by have := hnull _ hwhole; omega)
        refine ⟨some arr', e, hrun, ?_⟩
        rintro _ ⟨rfl⟩
        exact hterm
    · exact absurd ⟨_, t, hopen, ht⟩ (hlone 0 text .none)
    · by_cases hq : c = ch '"' → (opened text).1 = true
      · have hstep {n : Nat} {rest' : List UInt8} (hn : Args n rest rest') :
            Args ((if t = [] then 0 else 1) + n) text rest' := .arg hopen ht hc hq hn
        obtain ⟨arr₁, l₁, hrun, h₁, hlen⟩ := h.appendText t (c :: rest) e (hroom _ _ (hstep .none))
        have hlt : rest.length < text.length := by
          have hle := opened_length text
          rw [htext, List.length_append, List.length_cons] at hle
          omega
        rw [parseFrom_arg hopen ht hc hq, ErrM.bind_run, hrun, Option.bind_some]
        refine ih _ hlt h₁ (fun n rest' hn => hlone _ _ (hstep hn)) (fun n rest' hn => ?_) (fun n hn => ?_) rfl
        · have := hroom _ _ (hstep hn)
          omega
        · obtain ⟨m, rest', t', hm, hopen', ht', rfl⟩ := hn
          have := hnull _ ⟨_, rest', t', hstep hm, hopen', ht', rfl⟩
          omega
      · rw [Classical.not_imp, Bool.not_eq_true] at hq
        obtain ⟨rfl, hq⟩ := hq
        rw [hq] at hopen ht
        obtain ⟨e', hrun⟩ := parseFrom_quote hopen ht arr e
        exact ⟨none, e', hrun, fun _ h => nomatch h⟩

theorem procParsecmdExec_eq (cmd : CStr) : procParsecmdExec (some cmd) = parseFrom cmd.bytes (.new 4 true) := rfl

/-- The parser stays in the command, and ends its array with a `NULL`, exactly where no argument ends in a backslash
that escapes nothing and the arguments fit into an array. -/
theorem procParsecmd_meets_iff (cmd : CStr) : ParsecmdMeets cmd ↔ Parsable cmd.bytes := by
  have hundef (h : parseFrom cmd.bytes (.new 4 true) .zero = none) : ¬ ParsecmdMeets cmd := by
    intro hmeets
    obtain ⟨res, e', hrun, -⟩ := hmeets .zero
    rw [procParsecmdExec_eq, h] at hrun
    cases hrun
  constructor
  · intro hmeets
    have hargs {n : Nat} {rest : List UInt8} (hn : Args n cmd.bytes rest) : ∃ arr l, Filled arr l ∧ l.length = n ∧
        parseFrom cmd.bytes (.new 4 true) .zero = parseFrom rest arr .zero := by
      rcases parseFrom_args hn .zero .new with hnone | ⟨arr, l, h, hlen, hrun⟩
      · exact absurd hmeets (hundef hnone)
      · exact ⟨arr, l, h, by rw [hlen, List.length_nil, Nat.zero_add], hrun⟩
    refine ⟨fun n rest hn hlone => ?_, fun n rest hn => ?_, ?_⟩
    · obtain ⟨arr, l, h, -, hrun⟩ := hargs hn
      rw [parseFrom_lone hlone] at hrun
      exact hundef hrun hmeets
    · obtain ⟨arr, l, h, rfl, -⟩ := hargs hn
      exact h.length_le
    · rintro _ ⟨m, rest, t, hm, hopen, ht, rfl⟩
      obtain ⟨arr, l, h, rfl, hrun⟩ := hargs hm
      rw [parseFrom_end hopen ht] at hrun
      by_contra hfull
      rw [h.finish_full t .zero hfull] at hrun
      exact hundef hrun hmeets
  · intro h e
    rw [procParsecmdExec_eq]
    refine parseFrom_defined .new h.not_lone (fun n rest hn => ?_) (fun n hn => ?_) e
    · rw [List.length_nil, Nat.zero_add]
      exact h.room n rest hn
    · rw [List.length_nil, Nat.zero_add]
      exact h.room_null n hn

/-- The command "a\\". -/
theorem procParsecmd_leaves : ¬ ParsecmdMeets (.lit "a\\") := by
  intro hmeets
  obtain ⟨res, e', hrun, -⟩ := hmeets .zero
  have hlone : Lone (CStr.lit "a\\").bytes :=
    ⟨false, [ch 'a'], by decide, .char (by decide) (by unfold Stops; decide) .nil⟩
  rw [procParsecmdExec_eq, parseFrom_lone hlone] at hrun
  cases hrun

end Pcl

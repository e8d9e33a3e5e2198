import Pcl.Process.Parsecmd

/-!
# Quoted arguments

What the parser makes of a command whose arguments were all escaped and quoted.
-/

namespace Pcl

/-- An argument with every double quote and backslash escaped. -/
def escapeArg (arg : List UInt8) : List UInt8 :=
  arg.flatMap fun c => if c = ch '"' ∨ c = ch '\\' then [ch '\\', c] else [c]

/-- The arguments as one command: each escaped and in double quotes, with a space between every two. -/
def commandLine (args : List CStr) : List UInt8 :=
  [ch ' '].intercalate (args.map fun a => ch '"' :: (escapeArg a.bytes ++ [ch '"']))

theorem escapeArg_cons (c : UInt8) (arg : List UInt8) : escapeArg (c :: arg) =
    (if c = ch '"' ∨ c = ch '\\' then [ch '\\', c] else [c]) ++ escapeArg arg := List.flatMap_cons ..

theorem mem_escapeArg {b : UInt8} {arg : List UInt8} (h : b ∈ escapeArg arg) : b = ch '\\' ∨ b ∈ arg := by
  obtain ⟨c, hc, hb⟩ := List.mem_flatMap.1 h
  split at hb
  · simp only [List.mem_cons, List.not_mem_nil, or_false] at hb
    rcases hb with rfl | rfl
    · exact .inl rfl
    · exact .inr hc
  · rw [List.mem_singleton] at hb
    rw [hb]
    exact .inr hc

/-- The parser runs over an escaped text in quotes. -/
theorem parsecmdLoop_escaped (arg rest start : List UInt8) (arr : List CStr) :
    parsecmdLoop start (escapeArg arg ++ rest) true arr = parsecmdLoop start rest true arr := by
  induction arg with
  | nil => rfl
  | cons c arg ih =>
    rw [escapeArg_cons]
    by_cases hc : c = ch '"' ∨ c = ch '\\'
    · rw [if_pos hc, List.append_assoc, List.cons_append, List.singleton_append, parsecmdLoop.eq_def]
      simp only [↓reduceIte]
      exact ih
    · rw [if_neg hc, List.append_assoc, List.singleton_append, parsecmdLoop.eq_def]
      rw [not_or] at hc
      simp only [hc, ↓reduceIte, false_or, not_false_eq_true, true_and, false_and, ne_eq]
      split
      · exact ih
      · exact ih

/-- What the parser makes of a quoted argument. -/
def escaped (arg : CStr) : CStr := .ofBytes (escapeArg arg.bytes)

theorem escaped_bytes (arg : CStr) : (escaped arg).bytes = escapeArg arg.bytes := by
  refine ofBytes_of_nul_free fun h => ?_
  rcases mem_escapeArg h with h | h
  · exact absurd h (by decide)
  · exact arg.nul_free h

/-- The arguments the parser returns. -/
def kept (args : List CStr) : List CStr := (args.map escaped).filter fun a => a.bytes ≠ []

theorem parsecmdLoop_quoted (arg : CStr) (rest : List UInt8) (arr : List CStr) :
    parsecmdLoop (escapeArg arg.bytes ++ ch '"' :: rest) (escapeArg arg.bytes ++ ch '"' :: rest) true arr =
      parsecmdLoop (openQuote false (rest.dropWhile isspace)).2 (openQuote false (rest.dropWhile isspace)).2
        (openQuote false (rest.dropWhile isspace)).1 (arr ++ kept [arg]) := by
  have harr : appendArg arr (escapeArg arg.bytes ++ ch '"' :: rest) (ch '"' :: rest) = arr ++ kept [arg] := by
    unfold appendArg
    have hlen : (escapeArg arg.bytes ++ ch '"' :: rest).length - (ch '"' :: rest).length =
        (escapeArg arg.bytes).length := by
      rw [List.length_append, Nat.add_sub_cancel]
    simp only [hlen]
    by_cases hnil : escapeArg arg.bytes = []
    · have hkept : kept [arg] = [] := by
        unfold kept
        simp only [List.map_singleton, List.filter_singleton, escaped_bytes, hnil, ne_eq, not_true_eq_false,
          decide_false, cond_false]
      rw [hnil, hkept, List.length_nil, if_neg (Nat.lt_irrefl 0), List.append_nil]
    · have hpos : 0 < (escapeArg arg.bytes).length := List.length_pos_iff.2 hnil
      have hkept : kept [arg] = [escaped arg] := by
        unfold kept
        simp only [List.map_singleton, List.filter_singleton, escaped_bytes, hnil, ne_eq, not_false_eq_true,
          decide_true, cond_true]
      rw [if_pos hpos, hkept, strndup, if_neg (Nat.ne_of_gt hpos), List.take_left' rfl]
      rfl
  have h₁ : ch '"' ≠ ch '\\' := by decide
  rw [parsecmdLoop_escaped, parsecmdLoop.eq_def]
  simp only [h₁, ↓reduceIte, true_or, Bool.true_eq_false, and_false, not_true_eq_false, ne_eq, false_and, harr]

/-- What follows the first argument. -/
def more (args : List CStr) : List UInt8 := if args = [] then [] else ch ' ' :: commandLine args

theorem commandLine_cons (a : CStr) (args : List CStr) :
    commandLine (a :: args) = ch '"' :: (escapeArg a.bytes ++ ch '"' :: more args) := by
  unfold commandLine more
  cases args with
  | nil => simp
  | cons b args => simp [List.intercalate_cons_cons, commandLine]

/-- The parser in front of the arguments that are left. -/
theorem parsecmdLoop_more (args arr : List CStr) :
    parsecmdLoop (openQuote false ((more args).dropWhile isspace)).2 (openQuote false ((more args).dropWhile isspace)).2
      (openQuote false ((more args).dropWhile isspace)).1 arr = pure (some (arr ++ kept args)) := by
  induction args generalizing arr with
  | nil =>
    rw [show kept [] = [] from rfl, List.append_nil]
    show parsecmdLoop [] [] false arr = _
    rw [parsecmdLoop.eq_def]
    rfl
  | cons a args ih =>
    have hopen : openQuote false ((more (a :: args)).dropWhile isspace) =
        (true, escapeArg a.bytes ++ ch '"' :: more args) := by
      have hquote : isspace (ch '"') = false := by decide
      rw [more, if_neg (List.cons_ne_nil _ _), List.dropWhile_cons_of_pos (by decide), commandLine_cons,
        List.dropWhile_cons_of_neg (by rw [hquote]; exact Bool.false_ne_true), openQuote, List.head?_cons, if_pos rfl,
        List.tail_cons]
    have hkept : kept (a :: args) = kept [a] ++ kept args := by
      unfold kept
      rw [← List.filter_append, ← List.map_append]
      rfl
    rw [hopen]
    show parsecmdLoop (escapeArg a.bytes ++ ch '"' :: more args) (escapeArg a.bytes ++ ch '"' :: more args) true arr = _
    rw [parsecmdLoop_quoted, ih, hkept, List.append_assoc]

/-- The command line as a string. -/
def command (args : List CStr) : CStr := .ofBytes (commandLine args)

theorem command_bytes (args : List CStr) : (command args).bytes = commandLine args := by
  refine ofBytes_of_nul_free ?_
  induction args with
  | nil => exact List.not_mem_nil
  | cons a args ih =>
    rw [commandLine_cons]
    intro h
    rcases List.mem_cons.1 h with h | h
    · exact absurd h (by decide)
    rcases List.mem_append.1 h with h | h
    · rw [← escaped_bytes] at h
      exact (escaped a).nul_free h
    rcases List.mem_cons.1 h with h | h
    · exact absurd h (by decide)
    unfold more at h
    split at h
    · exact absurd h List.not_mem_nil
    · rcases List.mem_cons.1 h with h | h
      · exact absurd h (by decide)
      · exact ih h

theorem parsecmdList_command {args : List CStr} (hne : args ≠ []) :
    parsecmdList (command args) = pure (some (kept args)) := by
  have hmore : (command args).bytes.dropWhile isspace = (more args).dropWhile isspace := by
    rw [command_bytes, more, if_neg hne, List.dropWhile_cons_of_pos (by decide)]
  unfold parsecmdList
  simp only [hmore, parsecmdLoop_more, List.nil_append]

theorem escapeArg_eq_iff (arg : List UInt8) : escapeArg arg = arg ↔ ch '"' ∉ arg ∧ ch '\\' ∉ arg := by
  have hle (l : List UInt8) : l.length ≤ (escapeArg l).length := by
    induction l with
    | nil => exact Nat.le_refl _
    | cons c l ih =>
      rw [escapeArg_cons, List.length_append, List.length_cons]
      split <;> simp only [List.length_cons, List.length_nil] <;> omega
  induction arg with
  | nil => exact ⟨fun _ => ⟨List.not_mem_nil, List.not_mem_nil⟩, fun _ => rfl⟩
  | cons c arg ih =>
    rw [escapeArg_cons]
    by_cases hc : c = ch '"' ∨ c = ch '\\'
    · rw [if_pos hc]
      refine ⟨fun h => ?_, fun h => ?_⟩
      · have hlen := congrArg List.length h
        have := hle arg
        simp only [List.length_append, List.length_cons, List.length_nil] at hlen
        omega
      · rcases hc with rfl | rfl
        · exact absurd List.mem_cons_self h.1
        · exact absurd List.mem_cons_self h.2
    · rw [if_neg hc, List.singleton_append, List.cons_inj_right, List.mem_cons, List.mem_cons]
      rw [not_or] at hc
      simp only [not_or, Ne.symm hc.1, Ne.symm hc.2, not_false_eq_true, true_and]
      exact ih

theorem kept_eq_iff (args : List CStr) :
    kept args = args ↔ ∀ a ∈ args, a.bytes ≠ [] ∧ ch '"' ∉ a.bytes ∧ ch '\\' ∉ a.bytes := by
  have hbytes (a : CStr) : escaped a = a ↔ ch '"' ∉ a.bytes ∧ ch '\\' ∉ a.bytes := by
    rw [← escapeArg_eq_iff, ← escaped_bytes]
    exact ⟨fun h => by rw [h], CStr.ext⟩
  constructor
  · intro h
    have hlen : ((args.map escaped).filter fun a => a.bytes ≠ []).length = (args.map escaped).length := by
      rw [List.length_map]
      exact congrArg List.length h
    have hall := List.length_filter_eq_length_iff.1 hlen
    have hmap : args.map escaped = args := by
      unfold kept at h
      rwa [List.filter_eq_self.2 hall] at h
    intro a ha
    have hself : escaped a = a := List.map_inj_left.1 (hmap.trans (List.map_id args).symm) a ha
    have hnil := hall (escaped a) (List.mem_map_of_mem ha)
    rw [hself] at hnil
    exact ⟨of_decide_eq_true hnil, (hbytes a).1 hself⟩
  · intro h
    have hmap : args.map escaped = args := by
      conv_rhs => rw [← List.map_id args]
      exact List.map_congr_left fun a ha => (hbytes a).2 (h a ha).2
    unfold kept
    rw [hmap, List.filter_eq_self]
    exact fun a ha => decide_eq_true (h a ha).1

/-- Quoting is undone exactly where no argument is empty or has a double quote or a backslash, and the array has room
for all of them. -/
theorem procParsecmd_quoted_iff {args : List CStr} (hne : args ≠ []) (e : ErrState) :
    (∃ e', procParsecmd (some (command args)) e = some (some ⟨args.map some ++ [none], args.length⟩, e')) ↔
      args.length < 2 ^ 30 ∧ ∀ a ∈ args, a.bytes ≠ [] ∧ ch '"' ∉ a.bytes ∧ ch '\\' ∉ a.bytes := by
  have hlist := congrFun (parsecmdList_command hne) e
  rw [← kept_eq_iff]
  constructor
  · rintro ⟨e', h⟩
    obtain ⟨res, hrun, hres, hroom⟩ := procParsecmd_list h
    rw [hlist] at hrun
    cases hrun
    have hargv := congrArg Argv.elements (Option.some.inj hres)
    have hkept : args = kept args :=
      List.map_injective_iff.2 (Option.some_injective _) (List.append_cancel_right hargv)
    exact ⟨hkept ▸ hroom (kept args) rfl, hkept.symm⟩
  · rintro ⟨hroom, hkept⟩
    rw [hkept] at hlist
    exact ⟨e, procParsecmd_of_list hlist hroom⟩

/-- ls "-l x". -/
theorem procParsecmd_quoted_iff_ls :
    (∃ e', procParsecmd (some (command [.lit "ls", .lit "-l x"])) .zero =
      some (some ⟨[.lit "ls", .lit "-l x"].map some ++ [none], 2⟩, e')) ↔
      2 < 2 ^ 30 ∧ ∀ a ∈ [CStr.lit "ls", .lit "-l x"], a.bytes ≠ [] ∧ ch '"' ∉ a.bytes ∧ ch '\\' ∉ a.bytes :=
  procParsecmd_quoted_iff (List.cons_ne_nil _ _) .zero

/-- The backslash stays in an argument with a double quote, and an empty argument is dropped. -/
theorem procParsecmd_keeps_backslash :
    procParsecmd (some (command [.lit "\"", .lit ""])) .zero =
      some (some ⟨[some (.lit "\\\""), none], 1⟩, .zero) ∧
    [some (CStr.lit "\\\""), none] ≠ [CStr.lit "\"", .lit ""].map some ++ [none] := by
  have hkept : kept [.lit "\"", .lit ""] = [.lit "\\\""] := by decide
  have hlist := congrFun (parsecmdList_command (List.cons_ne_nil (CStr.lit "\"") [.lit ""])) .zero
  rw [hkept] at hlist
  exact ⟨procParsecmd_of_list hlist (by decide), by decide⟩

end Pcl

import Pcl.Array.Filled
import Pcl.Str.Search

/-!
# `pcl_proc_parsecmd`

The parser with the array it fills. It takes the quotes off an argument and passes over the escaped characters in it,
but copies the text between the quotes as it stands, and drops an argument without any text. `parsecmdLoop` is
what it does to the list of the arguments, as long as the capacity of the array is an `int`.
-/

namespace Pcl

/-- An opening quote: `in_quote` and the text behind it. -/
def openQuote (inQuote : Bool) (shellCmd : List UInt8) : Bool × List UInt8 :=
  if shellCmd.head? = some (ch '"') then (true, shellCmd.tail) else (inQuote, shellCmd)

theorem openQuote_length (q : Bool) (s : List UInt8) : (openQuote q s).2.length ≤ s.length := by
  unfold openQuote
  split <;> simp

/-- `pcl_array_append` for the text from `start` to `shellCmd`. -/
def appendText (arr : PArray CStr) (start shellCmd : List UInt8) : ErrM (PArray CStr) :=
  let n := start.length - shellCmd.length
  if n > 0 then do
    let (_, arr, _) ← arr.insertExec (some (strndup start n)) arr.count
    return arr
  else return arr

/-- The loop of `pcl_proc_parsecmd` with its array; the end of `shellCmd` is the NUL. -/
def parsecmdExec (start shellCmd : List UInt8) (inQuote : Bool) (arr : PArray CStr) :
    ErrM (Option (PArray CStr)) :=
  match shellCmd with
  | [] =>
    if inQuote then do
      let _ ← setErrMsg (loc "proc_parsecmd.c" "pcl_proc_parsecmd" 87) eSyntax "unterminated quote"
      return none
    else do
      let arr ← appendText arr start []
      -- make sure to NULL terminate array
      let (_, arr, _) ← arr.insertExec none arr.count
      -- don't include NULL in element count
      return some { arr with count := arr.count - 1 }
  | c :: rest =>
    if c = ch '\\' then
      match rest with
      -- the cursor moves past the NUL
      | [] => ErrM.undef
      | _ :: rest => parsecmdExec start rest inQuote arr
    else if c = ch '"' ∨ c = ch ' ' ∨ c = ch '\t' then
      if c = ch '"' ∧ inQuote = false then do
        let _ ← setErrMsg (loc "proc_parsecmd.c" "pcl_proc_parsecmd" 77) eSyntax "unescaped quote"
        return none
      else if c ≠ ch '"' ∧ inQuote = true then parsecmdExec start rest inQuote arr
      else do
        let arr ← appendText arr start (c :: rest)
        let next := openQuote false (rest.dropWhile isspace)
        parsecmdExec next.2 next.2 next.1 arr
    else parsecmdExec start rest inQuote arr
termination_by shellCmd.length
decreasing_by
  · simp only [List.length_cons]; omega
  · simp
  · have h := openQuote_length false (rest.dropWhile isspace)
    have h' := List.length_dropWhile_le isspace rest
    simp only [List.length_cons]
    omega
  · simp

/-- `pcl_proc_parsecmd` with its array. -/
def procParsecmdExec (shellCmd : Option CStr) : ErrM (Option (PArray CStr)) :=
  match shellCmd with
  | none => setErrNull (loc "proc_parsecmd.c" "pcl_proc_parsecmd" 45) eInval
  | some cmd =>
    let next := openQuote false (cmd.bytes.dropWhile isspace)
    parsecmdExec next.2 next.2 next.1 (.new 4 true)

/-- What a caller sees of the array: the elements in memory, and their count. -/
structure Argv where
  elements : List (Option CStr)
  count : Nat
deriving DecidableEq

/-- The elements with the `NULL` behind them, and their count. -/
def PArray.argv (arr : PArray CStr) : Argv := ⟨arr.elements.take (arr.count + 1), arr.count⟩

/-- `pcl_proc_parsecmd` for its caller. -/
def procParsecmd (shellCmd : Option CStr) : ErrM (Option Argv) := do
  let arr ← procParsecmdExec shellCmd
  return arr.map PArray.argv

/-! ### The array -/

namespace Filled
variable {arr : PArray CStr} {l : List (Option CStr)}

/-- A text without any character is not appended. -/
theorem appendText (h : Filled arr l) (t rest : List UInt8) (e : ErrState)
    (hroom : l.length + (if t = [] then 0 else 1) ≤ 2 ^ 30) :
    ∃ arr' l', appendText arr (t ++ rest) rest e = some (arr', e) ∧ Filled arr' l' ∧
      l'.length = l.length + if t = [] then 0 else 1 := by
  unfold Pcl.appendText
  rw [List.length_append, Nat.add_sub_cancel]
  cases t with
  | nil => exact ⟨arr, l, rfl, h, rfl⟩
  | cons c t =>
    obtain ⟨arr', hrun, h'⟩ := h.append (some (strndup (c :: t ++ rest) (c :: t).length)) hroom e
    refine ⟨arr', _, ?_, h', List.length_append⟩
    simp only [List.length_cons, Nat.succ_pos, if_true, ErrM.bind_run]
    rw [List.length_cons] at hrun
    rw [hrun]
    rfl

theorem appendText_full (h : Filled arr l) (t rest : List UInt8)
    (hfull : ¬ l.length + (if t = [] then 0 else 1) ≤ 2 ^ 30) : Pcl.appendText arr (t ++ rest) rest = ErrM.undef := by
  cases t with
  | nil => exact absurd h.length_le hfull
  | cons c t =>
    have hundef := h.append_full (some (strndup (c :: t ++ rest) (c :: t).length)) hfull
    unfold Pcl.appendText
    rw [List.length_append, Nat.add_sub_cancel]
    show (do let x ← arr.insertExec (some (strndup (c :: t ++ rest) (c :: t).length)) arr.count; return x.2.1) = _
    rw [hundef]
    rfl

end Filled

/-! ### The list of the arguments -/

/-- What is appended for the text from `start` to `shell_cmd`. -/
def appendArg (arr : List CStr) (start shellCmd : List UInt8) : List CStr :=
  let n := start.length - shellCmd.length
  if n > 0 then arr ++ [strndup start n] else arr

theorem appendArg_length_le (l : List CStr) (start shellCmd : List UInt8) :
    l.length ≤ (appendArg l start shellCmd).length := by
  unfold appendArg
  dsimp only
  split
  · rw [List.length_append]
    exact Nat.le_add_right _ _
  · exact Nat.le_refl _

/-- The parser with a list in place of its array. -/
def parsecmdLoop (start shellCmd : List UInt8) (inQuote : Bool) (arr : List CStr) : ErrM (Option (List CStr)) :=
  match shellCmd with
  | [] =>
    if inQuote then do
      let _ ← setErrMsg (loc "proc_parsecmd.c" "pcl_proc_parsecmd" 87) eSyntax "unterminated quote"
      return none
    else return some (appendArg arr start [])
  | c :: rest =>
    if c = ch '\\' then
      match rest with
      -- the cursor moves past the NUL
      | [] => ErrM.undef
      | _ :: rest => parsecmdLoop start rest inQuote arr
    else if c = ch '"' ∨ c = ch ' ' ∨ c = ch '\t' then
      if c = ch '"' ∧ inQuote = false then do
        let _ ← setErrMsg (loc "proc_parsecmd.c" "pcl_proc_parsecmd" 77) eSyntax "unescaped quote"
        return none
      else if c ≠ ch '"' ∧ inQuote = true then parsecmdLoop start rest inQuote arr
      else
        let next := openQuote false (rest.dropWhile isspace)
        parsecmdLoop next.2 next.2 next.1 (appendArg arr start (c :: rest))
    else parsecmdLoop start rest inQuote arr
termination_by shellCmd.length
decreasing_by
  · simp only [List.length_cons]; omega
  · simp
  · have h := openQuote_length false (rest.dropWhile isspace)
    have h' := List.length_dropWhile_le isspace rest
    simp only [List.length_cons]
    omega
  · simp

namespace Filled
variable {arr arr' : PArray CStr} {l : List CStr} {start shellCmd : List UInt8} {e e' : ErrState}

theorem appendText_some (h : Filled arr (l.map some)) (hrun : Pcl.appendText arr start shellCmd e = some (arr', e')) :
    e' = e ∧ Filled arr' ((appendArg l start shellCmd).map some) := by
  unfold Pcl.appendText at hrun
  unfold appendArg
  dsimp only at hrun ⊢
  split at hrun
  · next hn =>
    obtain ⟨⟨⟨r, arr₁, log⟩, e₁⟩, hins, hret⟩ := Option.bind_eq_some_iff.1 hrun
    cases hret
    rw [if_pos hn, List.map_append]
    exact h.append_some hins
  · next hn =>
    cases hrun
    rw [if_neg hn]
    exact ⟨rfl, h⟩

theorem appendText_arg (h : Filled arr (l.map some)) (start shellCmd : List UInt8) (e : ErrState)
    (hroom : (appendArg l start shellCmd).length ≤ 2 ^ 30) :
    ∃ arr', Pcl.appendText arr start shellCmd e = some (arr', e) ∧ Filled arr' ((appendArg l start shellCmd).map some) := by
  unfold Pcl.appendText
  unfold appendArg at hroom ⊢
  dsimp only at hroom ⊢
  split
  · next hn =>
    rw [if_pos hn, List.length_append, List.length_singleton] at hroom
    obtain ⟨arr', hrun, h'⟩ := h.append (some (strndup start (start.length - shellCmd.length)))
      (by rw [List.length_map]; exact hroom) e
    rw [List.map_append]
    exact ⟨arr', by rw [ErrM.bind_run, hrun]; rfl, h'⟩
  · exact ⟨arr, rfl, h⟩

end Filled

theorem Filled.argv_eq {arr : PArray CStr} {l : List CStr} (h : Filled arr (l.map some ++ [none])) :
    PArray.argv { arr with count := arr.count - 1 } = ⟨l.map some ++ [none], l.length⟩ := by
  obtain ⟨⟨t, href, hlist⟩, -⟩ := h
  have hcount : arr.count = l.length + 1 := by
    rw [href.count_eq, hlist, List.length_append, List.length_map, List.length_singleton]
  have htake : arr.elements.take (l.length + 1) = l.map some ++ [none] := by
    rw [href.elements_eq, hlist]
    exact List.take_left' (by rw [List.length_append, List.length_map, List.length_singleton])
  unfold PArray.argv
  simp only [hcount, Nat.add_sub_cancel, htake]

/-- Where the array takes them all, its arguments are those of the parser on lists. -/
theorem parsecmdLoop_of_exec {start text : List UInt8} {q : Bool} {l : List CStr} {arr : PArray CStr}
    {e e' : ErrState} {res : Option (PArray CStr)} (h : Filled arr (l.map some))
    (hrun : parsecmdExec start text q arr e = some (res, e')) : ∃ res', parsecmdLoop start text q l e = some (res', e') ∧
      res.map PArray.argv = res'.map (fun l => ⟨l.map some ++ [none], l.length⟩) ∧ ∀ l' ∈ res', l'.length < 2 ^ 30 := by
  fun_induction parsecmdExec start text q arr generalizing l with
  | case1 start arr =>
    obtain ⟨⟨r, e₁⟩, hset, hret⟩ := Option.bind_eq_some_iff.1 hrun
    cases hret
    refine ⟨none, ?_, rfl, fun _ h => nomatch h⟩
    rw [parsecmdLoop.eq_def]
    simp only [if_true, ErrM.bind_run, hset]
    rfl
  | case2 start q arr hq =>
    obtain ⟨⟨arr₁, e₁⟩, htext, hrest⟩ := Option.bind_eq_some_iff.1 hrun
    obtain ⟨⟨⟨r, arr₂, log⟩, e₂⟩, hnull, hret⟩ := Option.bind_eq_some_iff.1 hrest
    obtain ⟨rfl, h₁⟩ := h.appendText_some htext
    obtain ⟨rfl, h₂⟩ := h₁.append_some hnull
    cases hret
    refine ⟨some (appendArg l start []), ?_, congrArg some h₂.argv_eq, ?_⟩
    · rw [parsecmdLoop.eq_def]
      simp only [if_neg hq]
      rfl
    · rintro _ ⟨rfl⟩
      -- the `NULL` behind the arguments has a slot too
      have hle := h₂.length_le
      rw [List.length_append, List.length_map, List.length_singleton] at hle
      omega
  | case3 => exact nomatch hrun
  | case4 start q arr c rest ih =>
    rw [parsecmdLoop.eq_def]
    simp only [↓reduceIte]
    exact ih h hrun
  | case5 start q arr c rest hslash hend hquote =>
    obtain ⟨⟨r, e₁⟩, hset, hret⟩ := Option.bind_eq_some_iff.1 hrun
    cases hret
    refine ⟨none, ?_, rfl, fun _ h => nomatch h⟩
    rw [parsecmdLoop.eq_def]
    simp only [if_neg hslash, if_pos hend, if_pos hquote, ErrM.bind_run, hset]
    rfl
  | case6 start q arr c rest hslash hend hquote hskip ih =>
    rw [parsecmdLoop.eq_def]
    simp only [if_neg hslash, if_pos hend, if_neg hquote, if_pos hskip]
    exact ih h hrun
  | case7 start q arr c rest hslash hend hquote hskip ih =>
    obtain ⟨⟨arr₁, e₁⟩, htext, hrest⟩ := Option.bind_eq_some_iff.1 hrun
    obtain ⟨rfl, h₁⟩ := h.appendText_some htext
    rw [parsecmdLoop.eq_def]
    simp only [if_neg hslash, if_pos hend, if_neg hquote, if_neg hskip]
    exact ih arr₁ h₁ hrest
  | case8 start q arr c rest hslash hend ih =>
    rw [parsecmdLoop.eq_def]
    simp only [if_neg hslash, if_neg hend]
    exact ih h hrun

theorem parsecmdLoop_length_le {start text : List UInt8} {q : Bool} {l l' : List CStr} {e e' : ErrState}
    (hrun : parsecmdLoop start text q l e = some (some l', e')) : l.length ≤ l'.length := by
  fun_induction parsecmdLoop start text q l with
  | case1 =>
    obtain ⟨⟨r, e₁⟩, -, hret⟩ := Option.bind_eq_some_iff.1 hrun
    cases hret
  | case2 start q l hq =>
    cases hrun
    exact appendArg_length_le l start []
  | case3 => exact nomatch hrun
  | case5 =>
    obtain ⟨⟨r, e₁⟩, -, hret⟩ := Option.bind_eq_some_iff.1 hrun
    cases hret
  | case7 start q l c rest hslash hend hquote hskip next ih =>
    exact Nat.le_trans (appendArg_length_le l start (c :: rest)) (ih hrun)
  | case4 start q l c rest ih => exact ih hrun
  | case6 start q l c rest hslash hend hquote hskip ih => exact ih hrun
  | case8 start q l c rest hslash hend ih => exact ih hrun

/-- Where the list is short enough, the array takes all the arguments. -/
theorem parsecmdExec_of_loop {start text : List UInt8} {q : Bool} {l l' : List CStr} {arr : PArray CStr} {e e' : ErrState}
    (h : Filled arr (l.map some)) (hrun : parsecmdLoop start text q l e = some (some l', e')) (hroom : l'.length < 2 ^ 30) :
    ∃ arr', parsecmdExec start text q arr e = some (some arr', e') ∧ arr'.argv = ⟨l'.map some ++ [none], l'.length⟩ := by
  fun_induction parsecmdLoop start text q l generalizing arr with
  | case1 =>
    obtain ⟨⟨r, e₁⟩, -, hret⟩ := Option.bind_eq_some_iff.1 hrun
    cases hret
  | case2 start q l hq =>
    cases hrun
    obtain ⟨arr₁, htext, h₁⟩ := h.appendText_arg start [] e (Nat.le_of_lt hroom)
    obtain ⟨arr₂, hnull, h₂⟩ := h₁.append none (by rw [List.length_map]; exact hroom) e
    refine ⟨_, ?_, h₂.argv_eq⟩
    rw [parsecmdExec.eq_def]
    simp only [if_neg hq, ErrM.bind_run, htext, Option.bind_some, hnull]
    rfl
  | case3 => exact nomatch hrun
  | case4 start q l c rest ih =>
    rw [parsecmdExec.eq_def]
    simp only [↓reduceIte]
    exact ih h hrun
  | case5 =>
    obtain ⟨⟨r, e₁⟩, -, hret⟩ := Option.bind_eq_some_iff.1 hrun
    cases hret
  | case6 start q l c rest hslash hend hquote hskip ih =>
    rw [parsecmdExec.eq_def]
    simp only [if_neg hslash, if_pos hend, if_neg hquote, if_pos hskip]
    exact ih h hrun
  | case7 start q l c rest hslash hend hquote hskip next =>
    rename_i ih
    have hle := parsecmdLoop_length_le hrun
    obtain ⟨arr₁, htext, h₁⟩ := h.appendText_arg start (c :: rest) e (by omega)
    obtain ⟨arr', hrest, hargv⟩ := ih h₁ hrun
    refine ⟨arr', ?_, hargv⟩
    rw [parsecmdExec.eq_def]
    simp only [if_neg hslash, if_pos hend, if_neg hquote, if_neg hskip, ErrM.bind_run, htext, Option.bind_some]
    exact hrest
  | case8 start q l c rest hslash hend ih =>
    rw [parsecmdExec.eq_def]
    simp only [if_neg hslash, if_neg hend]
    exact ih h hrun

/-- The text behind the blanks and an opening quote, parsed into a list. -/
def parsecmdList (cmd : CStr) : ErrM (Option (List CStr)) :=
  let next := openQuote false (cmd.bytes.dropWhile isspace)
  parsecmdLoop next.2 next.2 next.1 []

theorem procParsecmd_list {cmd : CStr} {e e' : ErrState} {res : Option Argv}
    (hrun : procParsecmd (some cmd) e = some (res, e')) : ∃ res', parsecmdList cmd e = some (res', e') ∧
      res = res'.map (fun l => ⟨l.map some ++ [none], l.length⟩) ∧ ∀ l' ∈ res', l'.length < 2 ^ 30 := by
  obtain ⟨⟨arr, e₁⟩, hexec, hret⟩ := Option.bind_eq_some_iff.1 hrun
  cases hret
  exact parsecmdLoop_of_exec (l := []) .new hexec

theorem procParsecmd_of_list {cmd : CStr} {l : List CStr} {e e' : ErrState} (hrun : parsecmdList cmd e = some (some l, e'))
    (hroom : l.length < 2 ^ 30) : procParsecmd (some cmd) e = some (some ⟨l.map some ++ [none], l.length⟩, e') := by
  obtain ⟨arr, hexec, hargv⟩ := parsecmdExec_of_loop .new hrun hroom
  rw [← hargv]
  exact Option.bind_eq_some_iff.2 ⟨_, hexec, rfl⟩

end Pcl

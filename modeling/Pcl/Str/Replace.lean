import Pcl.Buf.Fit
import Pcl.Buf.Overwrite
import Pcl.Str.Search

/-!
# Replacing text

`replace_impl` of `src/string/strreplace.c`. The result is put together in a buffer, the rest of the subject in front of
which it stands is compared with the search string at each step. The lengths of the two strings are taken as `int`s, and
the buffer counts its characters in one: where it grows too large for that its arithmetic is undefined.
-/

namespace Pcl

/-- Whether `strncmp`, or its sibling that folds case, finds no difference in `n` characters. -/
def strncmpEq (key : UInt8 → UInt8) (n : Nat) (a b : List UInt8) : Bool := (a.take n).map key == (b.take n).map key

/-- The loop of `replace_impl`, `off` characters behind the start of the subject; no fuel, no result. -/
def replaceLoop (put : Buf UInt8 → List UInt8 → ErrM (Int × Buf UInt8)) (key : UInt8 → UInt8) (s fromStr toStr : List UInt8)
    (fromLen toLen : Int) : Nat → Nat → Buf UInt8 → ErrM (Buf UInt8)
  | 0, _, _ => ErrM.undef
  | fuel + 1, off, buf =>
    match s.drop off with
    | [] => if off ≤ s.length then return buf else ErrM.undef
    | c :: rest =>
      -- the length is a `size_t` to `strncmp`
      if strncmpEq key (fromLen % 2 ^ 64).toNat (c :: rest) fromStr then
        -- a copy of a negative length, a pointer in front of the subject
        if toLen < 0 ∨ off + fromLen < 0 then ErrM.undef
        else do
          let (_, buf) ← put buf (toStr.take toLen.toNat)
          replaceLoop put key s fromStr toStr fromLen toLen fuel (off + fromLen).toNat buf
      else do
        let (_, buf) ← put buf [c]
        replaceLoop put key s fromStr toStr fromLen toLen fuel (off + 1) buf

/-- `replace_impl`; the result is the buffer whose `data` is returned. -/
def replaceImpl (put : Buf UInt8 → List UInt8 → ErrM (Int × Buf UInt8)) (tl : Tolower) (fuel : Nat) (s fromStr toStr : CStr)
    (casefold : Bool) : ErrM (Buf UInt8) :=
  let toLen := Int.bmod toStr.strlen (2 ^ 32)
  let fromLen := Int.bmod fromStr.strlen (2 ^ 32)
  replaceLoop put (if casefold then tl.fn else id) s.bytes fromStr.bytes toStr.bytes fromLen toLen fuel 0 (bufInit 64 .text)

/-- `pcl_strreplace`; the fuel is enough for every search string that an `int` can count, but the empty one. -/
def strreplace (tl : Tolower) (subject fromStr toStr : CStr) : ErrM (Buf UInt8) :=
  replaceImpl bufPutExec tl (subject.strlen + 1) subject fromStr toStr false

/-- `pcl_strireplace`. -/
def strireplace (tl : Tolower) (subject fromStr toStr : CStr) : ErrM (Buf UInt8) :=
  replaceImpl bufPutExec tl (subject.strlen + 1) subject fromStr toStr true

/-- The text that is returned is the subject with all occurrences replaced, and a NUL. -/
def StrreplaceMeets (tl : Tolower) (subject fromStr toStr : CStr) (e : ErrState) : Prop :=
  ∃ b e' t, strreplace tl subject fromStr toStr e = some (b, e') ∧
    (∀ t', Split.Replaced fromStr.bytes toStr.bytes subject.bytes t' ↔ t' = t) ∧ (b.data.take (t.length + 1)).mapM id = some (t ++ [0])

/-! ### One put -/

section
variable {b b' : Buf UInt8} {bs data : List UInt8} {t : Bool}

/-- A put appends its characters, and nothing when there are none. -/
theorem bufPut_appends (h : b.Holds bs true) (data : List UInt8) (e : ErrState) :
    ∃ r b' e', bufPut b data e = some ((r, b'), e') ∧ b'.Holds (bs ++ data) true ∧
      b'.size = if data = [] then b.size else if b.size ≤ bs.length + data.length + 1 then 2 * (bs.length + data.length + 1)
        else b.size := by
  by_cases hdata : data = []
  · subst hdata
    rw [List.append_nil, if_pos rfl]
    have hrun : bufPut b [] e = some ((if e.frozen then 0 else -1, b), e.raised (loc "buf_put.c" "pcl_buf_put" 39) eInval 0 none) := by
      unfold bufPut
      simp only [List.length_nil, if_true, ErrM.bind_run, badArg_run, Option.bind_some, ErrM.pure_run]
    exact ⟨_, b, _, hrun, h, rfl⟩
  · obtain ⟨b', hrun, hb', -⟩ := h.put hdata e
    refine ⟨_, b', e, hrun, hb', ?_⟩
    rw [bufPut_size hdata hrun, bufGrow_size, h.pos_eq, if_neg hdata, Nat.add_assoc]

/-- With its arithmetic it is undefined just where that does not fit. -/
theorem bufPutExec_cases (h : b.Holds bs true) (data : List UInt8) (e : ErrState) :
    (bufPutExec b data e = none ∧ ∀ ks, ¬ PutsFit bs.length b.size (data.length :: ks)) ∨
    ∃ r b' e', bufPutExec b data e = some ((r, b'), e') ∧ b'.Holds (bs ++ data) true ∧
      ∀ ks, PutsFit bs.length b.size (data.length :: ks) ↔ PutsFit (bs ++ data).length b'.size ks := by
  obtain ⟨r, b', e', hrun, hb', hsize⟩ := bufPut_appends h data e
  by_cases hdata : data = []
  · subst hdata
    refine .inr ⟨r, b', e', ?_, hb', fun ks => ?_⟩
    · unfold bufPutExec
      rw [if_pos, hrun]
      intro x hx
      rw [show putInts b ([] : List UInt8).length = [0] by simp [putInts], List.mem_singleton] at hx
      rw [hx]
      decide
    · rw [hsize, if_pos rfl, List.append_nil]
      rfl
  · have hlen : data.length ≠ 0 := fun h0 => hdata (List.eq_nil_of_length_eq_zero h0)
    have hints := putInts_fit h hdata
    rw [if_neg hdata] at hsize
    unfold bufPutExec
    by_cases hfit : ∀ x ∈ putInts b data.length, InInt x
    · refine .inr ⟨r, b', e', by rw [if_pos hfit, hrun], hb', fun ks => ?_⟩
      obtain ⟨h₁, h₂, h₃⟩ := hints.1 hfit
      rw [PutsFit, if_neg hlen, and_iff_right h₁, and_iff_right h₂, and_iff_right h₃, hsize, List.length_append]
    · refine .inl ⟨by rw [if_neg hfit]; rfl, fun ks hks => hfit (hints.2 ?_)⟩
      rw [PutsFit, if_neg hlen] at hks
      exact ⟨hks.1, hks.2.1, hks.2.2.1⟩

end

/-! ### The loop -/

theorem strncmpEq_iff {fromStr rest : List UInt8} : strncmpEq id fromStr.length rest fromStr = true ↔ fromStr <+: rest := by
  unfold strncmpEq
  rw [beq_iff_eq, List.map_id, List.map_id, List.take_length, List.prefix_iff_eq_take]
  exact eq_comm

section
variable {s fromStr toStr : List UInt8}

/-- What the loop leads to from a buffer: it puts the pieces of the rest of the subject behind what is there, where they
fit, and is undefined where they do not. -/
def LoopPuts (loop : ErrM (Buf UInt8)) (b : Buf UInt8) (bs : List UInt8) (pieces : List (List UInt8)) (e : ErrState) : Prop :=
  (loop e = none ∧ ¬ PutsFit bs.length b.size (pieces.map List.length)) ∨
    ∃ b' e', loop e = some (b', e') ∧ b'.Holds (bs ++ pieces.flatten) true ∧ PutsFit bs.length b.size (pieces.map List.length)

theorem LoopPuts.cons {b : Buf UInt8} {bs data : List UInt8} {pieces : List (List UInt8)} (hb : b.Holds bs true)
    {loop : Buf UInt8 → ErrM (Buf UInt8)} (hloop : ∀ b', b'.Holds (bs ++ data) true → ∀ e', LoopPuts (loop b') b' (bs ++ data) pieces e')
    (e : ErrState) : LoopPuts (bufPutExec b data >>= fun p => loop p.2) b bs (data :: pieces) e := by
  unfold LoopPuts
  rw [List.map_cons, List.flatten_cons, ErrM.bind_run]
  rcases bufPutExec_cases hb data e with ⟨hnone, hfit⟩ | ⟨r, b', e', hrun, hb', hfit⟩
  · rw [hnone]
    exact .inl ⟨rfl, hfit _⟩
  · rw [hrun, Option.bind_some, hfit, ← List.append_assoc]
    exact hloop b' hb' e'

theorem replaceLoop_puts (hne : fromStr ≠ []) (hlen : fromStr.length < 2 ^ 31) (fuel : Nat) : ∀ (off : Nat)
    (b : Buf UInt8) (bs : List UInt8), s.length < off + fuel → off ≤ s.length → b.Holds bs true → ∀ e,
      LoopPuts (replaceLoop bufPutExec id s fromStr toStr fromStr.length toStr.length fuel off b) b bs
        (Split.replacePieces fromStr toStr (s.drop off)) e := by
  induction fuel with
  | zero =>
    intro off b bs hfuel hoff
    omega
  | succ fuel ih =>
    intro off b bs hfuel hoff hb e
    have hn : ((fromStr.length : Int) % 2 ^ 64).toNat = fromStr.length := by omega
    unfold replaceLoop
    rw [hn]
    cases hrest : s.drop off with
    | nil =>
      simp only [if_pos hoff, Split.replacePieces_nil]
      exact .inr ⟨b, e, rfl, by simpa using hb, trivial⟩
    | cons c rest =>
      have hsub := congrArg List.length hrest
      rw [List.length_drop, List.length_cons] at hsub
      simp only
      by_cases hmatch : fromStr <+: c :: rest
      · rw [if_pos (strncmpEq_iff.2 hmatch), if_neg (by omega), Int.toNat_natCast, List.take_length,
          show ((off : Int) + fromStr.length).toNat = off + fromStr.length by omega]
        obtain ⟨rest', hrest'⟩ := hmatch
        have hdrop : s.drop (off + fromStr.length) = rest' := by
          rw [← List.drop_drop, hrest, ← hrest', List.drop_left]
        have hsum := congrArg List.length hrest'
        rw [List.length_append, List.length_cons] at hsum
        have hpos := List.length_pos_iff.2 hne
        rw [← hrest', Split.replacePieces_occurrence hne]
        refine LoopPuts.cons hb (fun b' hb' e' => ?_) e
        have hloop := ih (off + fromStr.length) b' (bs ++ toStr) (by omega) (by omega) hb' e'
        rwa [hdrop] at hloop
      · rw [if_neg (fun h => hmatch (strncmpEq_iff.1 h)), Split.replacePieces_other hmatch]
        have hdrop : s.drop (off + 1) = rest := by
          rw [← List.drop_drop, hrest]
          rfl
        refine LoopPuts.cons hb (fun b' hb' e' => ?_) e
        have hloop := ih (off + 1) b' (bs ++ [c]) (by omega) (by omega) hb' e'
        rwa [hdrop] at hloop

end

/-- The replacement is right just when its puts fit the buffer. -/
theorem strreplaceMeets_iff {tl : Tolower} {subject fromStr toStr : CStr} (hne : fromStr.bytes ≠ [])
    (hf : fromStr.strlen < 2 ^ 31) (ht : toStr.strlen < 2 ^ 31) (e : ErrState) :
    StrreplaceMeets tl subject fromStr toStr e ↔
      PutsFit 0 64 ((Split.replacePieces fromStr.bytes toStr.bytes subject.bytes).map List.length) := by
  have hrun : strreplace tl subject fromStr toStr = replaceLoop bufPutExec id subject.bytes fromStr.bytes toStr.bytes
      fromStr.bytes.length toStr.bytes.length (subject.strlen + 1) 0 (bufInit 64 .text) := by
    unfold CStr.strlen at hf ht
    unfold strreplace replaceImpl CStr.strlen
    simp only [Bool.false_eq_true, if_false]
    rw [Int.bmod_eq_of_le (by omega) (by omega), Int.bmod_eq_of_le (by omega) (by omega)]
  have hinit : (bufInit 64 .text : Buf UInt8).Holds [] true := .init (by decide) .text
  have hputs := @replaceLoop_puts subject.bytes fromStr.bytes toStr.bytes hne hf (subject.strlen + 1) 0 (bufInit 64 .text) []
    (by unfold CStr.strlen; omega) (Nat.zero_le _) hinit e
  rw [← hrun, List.drop_zero] at hputs
  unfold StrreplaceMeets
  have hreplaced := Split.replaced_pieces (r := toStr.bytes) hne subject.bytes
  rcases hputs with ⟨hnone, hfit⟩ | ⟨b', e', hsome, hb', hfit⟩
  · refine iff_of_false ?_ hfit
    rintro ⟨b, e', t, hres, -⟩
    rw [hnone] at hres
    cases hres
  · refine iff_of_true ⟨b', e', _, hsome, fun t' => ⟨fun h => h.unique hreplaced, fun h => h ▸ hreplaced⟩, ?_⟩ hfit
    have hcopy := hb'.copy
    rwa [hb'.len_eq, List.nil_append] at hcopy

/-- The replacement is right just when its puts fit the buffer, as they do for every result below 2 ^ 29 characters. -/
theorem strreplace_meets_iff (tl : Tolower) (subject fromStr toStr : CStr) (hne : fromStr.bytes ≠ [])
    (hf : fromStr.strlen < 2 ^ 29) (ht : toStr.strlen < 2 ^ 29) (e : ErrState) :
    (StrreplaceMeets tl subject fromStr toStr e ↔
      PutsFit 0 64 ((Split.replacePieces fromStr.bytes toStr.bytes subject.bytes).map List.length)) ∧
    (∀ t, Split.Replaced fromStr.bytes toStr.bytes subject.bytes t → t.length < 2 ^ 29 →
      StrreplaceMeets tl subject fromStr toStr e) := by
  have hiff : StrreplaceMeets tl subject fromStr toStr e ↔ _ :=
    strreplaceMeets_iff hne (Nat.lt_trans hf (by decide)) (Nat.lt_trans ht (by decide)) e
  refine ⟨hiff, fun t h hlen => hiff.2 (putsFit_small (by decide) ?_)⟩
  rw [h.unique (Split.replaced_pieces hne subject.bytes), List.length_flatten] at hlen
  rwa [Nat.zero_add]

theorem replaced_aa : Split.Replaced (txt "aa") (txt "b") (txt "aaaxa") (txt "baxa") := by
  have hfirst : Split.search (txt "aa") (txt "aaaxa") = some 0 := by decide
  have hrest : Split.Replaced (txt "aa") (txt "b") (txt "axa") (txt "axa") := .last (by decide)
  exact .cut hfirst hrest

theorem strreplace_meets_iff_aa : StrreplaceMeets .ascii (.lit "aaaxa") (.lit "aa") (.lit "b") .zero :=
  (strreplace_meets_iff .ascii (.lit "aaaxa") (.lit "aa") (.lit "b") (by decide) (by decide) (by decide) .zero).2
    (txt "baxa") replaced_aa (by decide)

/-- A text of one character, repeated. -/
def repeated (n : Nat) (c : UInt8) (hc : c ≠ 0) : CStr := ⟨List.replicate n c, fun h => hc (List.eq_of_mem_replicate h).symm⟩

theorem replacePieces_repeated (r : List UInt8) (c : UInt8) (n : Nat) :
    Split.replacePieces [c] r (List.replicate n c) = List.replicate n r := by
  induction n with
  | zero => exact Split.replacePieces_nil
  | succ n ih =>
    have happend : List.replicate (n + 1) c = [c] ++ List.replicate n c := rfl
    rw [happend, Split.replacePieces_occurrence (List.cons_ne_nil c []), ih]
    rfl

theorem putsFit_replicate {pos size n k : Nat} (h : PutsFit pos size (List.replicate n k)) : n * k < 2 ^ 31 := by
  have hsum := putsFit_sum h
  rw [List.sum_replicate_nat] at hsum
  omega

/-- 65536 characters that are replaced by 65536 each. -/
theorem strreplace_overflows : ¬ StrreplaceMeets .ascii (repeated 65536 (ch 'a') (by decide)) (.lit "a")
    (repeated 65536 (ch 'b') (by decide)) .zero := by
  have hto : (repeated 65536 (ch 'b') (by decide)).strlen = 65536 := List.length_replicate
  rw [strreplaceMeets_iff (by decide) (by decide) (by rw [hto]; decide)]
  intro h
  have hpieces : Split.replacePieces (CStr.lit "a").bytes (repeated 65536 (ch 'b') (by decide)).bytes
      (repeated 65536 (ch 'a') (by decide)).bytes = List.replicate 65536 (List.replicate 65536 (ch 'b')) :=
    replacePieces_repeated _ _ _
  rw [hpieces, List.map_replicate, List.length_replicate] at h
  have hproduct := putsFit_replicate h
  omega

end Pcl

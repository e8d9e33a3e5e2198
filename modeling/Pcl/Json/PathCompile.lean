import Pcl.Json.Path
import Pcl.Json.NumberToken

/-!
# What the compiler of paths accepts

A node that was compiled leaves the error state as it is, and is compiled alike when more selectors follow
its text (`Took`). A quoted name that is empty is the exception: it takes all that follows as its name.
The text of an accepted path is split into its `Selectors`, and the paths of two texts, one behind
the other, are put together from theirs.
-/

namespace Pcl

variable {s t rest : List UInt8} {e e' : ErrState}

/-! ### Numbers -/

theorem dropWhile_append {p : UInt8 → Bool} (h : s.dropWhile p ≠ []) : (s ++ t).dropWhile p = s.dropWhile p ++ t := by
  rw [List.dropWhile_append, if_neg (by rwa [List.isEmpty_iff])]

theorem takeWhile_append {p : UInt8 → Bool} (h : s.dropWhile p ≠ []) : (s ++ t).takeWhile p = s.takeWhile p := by
  rw [List.takeWhile_append, if_neg]
  intro hlen
  have hsum := congrArg List.length (List.takeWhile_append_dropWhile (p := p) (l := s))
  rw [List.length_append] at hsum
  exact h (List.eq_nil_of_length_eq_zero (by omega))

theorem scanSign_append (hs : s ≠ []) : scanSign (s ++ t) = ((scanSign s).1, (scanSign s).2 ++ t) := by
  obtain ⟨c, s, rfl⟩ := List.exists_cons_of_ne_nil hs
  unfold scanSign
  simp only [List.cons_append]
  split
  · rfl
  · split <;> rfl

/-- What is read of a number is read again where more follows. -/
theorem scanNumeral_append {n : Int} (h : scanNumeral 10 s = some (n, rest)) (hr : rest ≠ []) :
    scanNumeral 10 (s ++ t) = some (n, rest ++ t) := by
  unfold scanNumeral at h ⊢
  simp only [skipPrefix_ten] at h ⊢
  split at h
  · cases h
  · rename_i hd
    injection h with h
    injection h with hn hrest
    rw [← hrest] at hr
    have hsign : (scanSign (s.dropWhile isspace)).2 ≠ [] := fun h0 => hr (by rw [h0]; rfl)
    have hspace : s.dropWhile isspace ≠ [] := fun h0 => hsign (by rw [h0]; rfl)
    rw [dropWhile_append hspace, scanSign_append hspace, takeWhile_append hr, dropWhile_append hr, if_neg hd, hn, hrest]

theorem headD_append (hs : s ≠ []) : (s ++ t).headD 0 = s.headD 0 := by
  obtain ⟨c, s, rfl⟩ := List.exists_cons_of_ne_nil hs
  rfl

theorem ne_nil_of_head {c : UInt8} (h : s.headD 0 = c) (hc : c ≠ 0) : s ≠ [] := by
  rintro rfl
  exact hc h.symm

/-- The text starts with a number that `pcl_strtol` stores. -/
def Numeral (s : List UInt8) (n : Int) (rest : List UInt8) : Prop :=
  s.headD 0 ≠ 0 ∧ scanNumeral 10 s = some (n, rest) ∧ llongMin ≤ n ∧ n ≤ llongMax

theorem Numeral.append {n : Int} (h : Numeral s n rest) (hr : rest ≠ []) : Numeral (s ++ t) n (rest ++ t) := by
  obtain ⟨h0, hn, hrange⟩ := h
  have hs : s ≠ [] := by
    rintro rfl
    exact h0 rfl
  exact ⟨by rwa [headD_append hs], scanNumeral_append hn hr, hrange⟩

theorem pclStrtol_numeral {n : Int} (h : Numeral s n rest) (e : ErrState) :
    pclStrtol s e = some ((0, some n, rest), e) := by
  obtain ⟨h0, hn, hmin, hmax⟩ := h
  have hrange : ¬ (n < llongMin ∨ n > llongMax) := by omega
  unfold pclStrtol
  simp only [if_neg h0, hn, if_neg hrange]
  rfl

theorem pclStrtol_else (h : ∀ n rest, ¬ Numeral s n rest) (e : ErrState) : ∃ rest l err os msg, err ≠ eOkay ∧
    pclStrtol s e = some ((if e.frozen then 0 else -1, none, rest), e.raised l err os msg) := by
  unfold pclStrtol
  by_cases h0 : s.headD 0 = 0
  · refine ⟨s, loc "strtol.c" "pcl_strtol" 48, eInval, 0, some (.lit "empty input string"), by decide, ?_⟩
    rw [if_pos h0, ErrM.bind_run, setErrMsg_run _ _ _ _ (by decide)]
    rfl
  · simp only [if_neg h0]
    cases hn : scanNumeral 10 s with
    | none =>
      refine ⟨s, loc "strtol.c" "pcl_strtol" 64, eInval, 0, some (.lit "no digits founds"), by decide, ?_⟩
      dsimp only
      rw [ErrM.bind_run, setErrMsg_run _ _ _ _ (by decide)]
      rfl
    | some p =>
      obtain ⟨n, rest⟩ := p
      have hrange : n < llongMin ∨ n > llongMax := by
        by_contra hin
        exact h n rest ⟨h0, hn, by omega, by omega⟩
      refine ⟨rest, loc "strtol.c" "pcl_strtol" 58, eRange, osErange,
        some (.lit (if n < llongMin then "underflow occurred" else "overflow occurred")), by decide, ?_⟩
      simp only [if_pos hrange]
      rw [ErrM.bind_run, errVset_run _ _ _ _ _ (by decide)]
      rfl

/-- `pcl_strtoi` succeeds on the number of the text, and cuts it down to an `int`. -/
theorem pclStrtoi_numeral {n : Int} (h : Numeral s n rest) (e : ErrState) :
    pclStrtoi s e = some ((0, some (toInt n), rest), e) := by
  unfold pclStrtoi
  rw [ErrM.bind_run, pclStrtol_numeral h]
  rfl

theorem pclStrtoi_else (h : ∀ n rest, ¬ Numeral s n rest) {x : Int × Option Int × List UInt8}
    (hx : pclStrtoi s e = some (x, e')) : x.1 < 0 := by
  obtain ⟨rest, l, err, os, msg, herr, hrun⟩ := pclStrtol_else h e
  unfold pclStrtoi at hx
  rw [ErrM.bind_run, hrun] at hx
  by_cases hf : e.frozen = true
  · rw [if_pos hf] at hx
    cases hx
  · have hraised : (e.raised l err os msg).err = err := raised_err _ _ _ _ _ (by simpa using hf)
    rw [if_neg hf] at hx
    simp only [Option.bind_some, ne_eq, Int.reduceNeg, Int.reduceEq, not_false_eq_true, ↓reduceIte, ErrM.bind_run,
      trc_run, raised_frozen, hf, Bool.false_eq_true, false_or, hraised, herr, ErrM.pure_run, Option.some.injEq,
      Prod.mk.injEq] at hx
    rw [← hx.1]
    exact (by decide : (-1 : Int) < 0)

/-- A successful `pcl_strtoi` leaves the error state as it is, and succeeds alike where more follows. -/
theorem pclStrtoi_ok {x : Int × Option Int × List UInt8} (h : pclStrtoi s e = some (x, e')) (hr : ¬ x.1 < 0) :
    e' = e ∧ x.2.2 <:+ s ∧ x.2.2.length < s.length ∧ ∃ n, x.2.1 = some n ∧ intMin ≤ n ∧
      (x.2.2 ≠ [] → ∀ t, pclStrtoi (s ++ t) e = some ((x.1, some n, x.2.2 ++ t), e)) := by
  by_cases hnum : ∃ n rest, Numeral s n rest
  · obtain ⟨n, rest, hn⟩ := hnum
    rw [pclStrtoi_numeral hn] at h
    injection h with h
    injection h with hx he
    subst hx he
    obtain ⟨hsuf, hlen⟩ := scanNumeral_shrinks hn.2.1
    exact ⟨rfl, hsuf, hlen, _, rfl, (toInt_range n).1, fun hne t => pclStrtoi_numeral (hn.append hne) e⟩
  · exact absurd (pclStrtoi_else (fun n rest hn => hnum ⟨n, rest, hn⟩) h) hr

/-! ### One node -/

@[simp] theorem compileErr_run {α : Type} (line : Int) (msg : String) (e : ErrState) :
    (compileErr line msg : ErrM (Option α)) e =
      some (none, e.raised (loc "json_compile.c" "pcl_json_compile" line) eSyntax 0 (some (.lit msg))) := by
  unfold compileErr
  rw [ErrM.bind_run, setErrMsg_run _ _ _ _ (by decide)]
  rfl

@[simp] theorem compileTrc_run {α : Type} (line : Int) (msg : String) (e : ErrState) :
    (compileTrc line msg : ErrM (Option α)) e =
      some (none, e.traced (loc "json_compile.c" "pcl_json_compile" line) (some (.lit msg))) := by
  unfold compileTrc
  rw [ErrM.bind_run, errVtrace_run]
  rfl

/-- A further selector starts here. -/
def Joint (t : List UInt8) : Prop := t.headD 0 = ch '.' ∨ t.headD 0 = ch '['

/-- The start of a slice is an `int`, behind a recursive descent stands its second dot. -/
def NodeOk : PathNode × List UInt8 → Prop
  | (.root, _) => False
  | (.recursiveDescent, rest) => rest.headD 0 = ch '.'
  | (.elementSlice start _ _, _) => intMin ≤ start
  | _ => True

/-- The compiler `f` took the node `x.1` from the text `p`, and would take it as well if a further selector
followed. -/
structure Took (f : List UInt8 → ErrM Compiled) (p : List UInt8) (e : ErrState) (x : PathNode × List UInt8)
    (e' : ErrState) : Prop where
  state : e' = e
  ne : p ≠ []
  suffix : x.2 <:+ p
  node : NodeOk x
  joint : ∀ t, Joint t → f (p ++ t) e = some (some (x.1, x.2 ++ t), e)

section
variable {p : List UInt8} {x : PathNode × List UInt8} {f g : List UInt8 → ErrM Compiled}

/-- A node that is taken from behind the first bytes of the text. -/
theorem Took.drop (n : Nat) (h : Took g (p.drop n) e x e') (hf : ∀ t, Joint t → f (p ++ t) = g (p.drop n ++ t)) :
    Took f p e x e' where
  state := h.state
  ne hp := h.ne (by rw [hp, List.drop_nil])
  suffix := h.suffix.trans (List.drop_suffix n p)
  node := h.node
  joint t ht := by rw [hf t ht]; exact h.joint t ht

theorem drop_append {n : Nat} (hn : n ≤ p.length) (t : List UInt8) : (p ++ t).drop n = p.drop n ++ t :=
  List.drop_append_of_le_length hn

theorem Took.done {node : PathNode} (n : Nat) (hp : p ≠ []) (hn : n ≤ p.length) (hx : NodeOk (node, p.drop n))
    (hf : ∀ t, Joint t → f (p ++ t) = pure (some (node, (p ++ t).drop n))) : Took f p e (node, p.drop n) e where
  state := rfl
  ne := hp
  suffix := List.drop_suffix n p
  node := hx
  joint t ht := by rw [hf t ht, drop_append hn]; rfl

theorem Took.readInt {F G : Int → List UInt8 → ErrM Compiled} {line : Int} {msg : String}
    (hF : ∀ i q, intMin ≤ i → F i q e = some (some x, e') → Took (G i) q e x e')
    (h : readInt line msg p F e = some (some x, e')) : Took (readInt line msg · G) p e x e' := by
  unfold Pcl.readInt at h
  rw [ErrM.bind_run] at h
  cases hy : pclStrtoi p e with
  | none =>
    rw [hy] at h
    cases h
  | some z =>
    obtain ⟨⟨r, i, rest⟩, e₁⟩ := z
    rw [hy, Option.bind_some] at h
    dsimp only at h
    by_cases hneg : r < 0
    · rw [if_pos hneg, compileTrc_run] at h
      cases h
    · rw [if_neg hneg] at h
      obtain ⟨rfl, hsuf, hlen, n, hi, hmin, happ⟩ := pclStrtoi_ok hy hneg
      cases hi
      have hT := hF _ _ hmin h
      refine ⟨hT.state, fun h0 => ?_, hT.suffix.trans hsuf, hT.node, fun t ht => ?_⟩
      · rw [h0] at hlen
        exact absurd hlen (Nat.not_lt_zero _)
      · unfold Pcl.readInt
        rw [ErrM.bind_run, happ hT.ne t, Option.bind_some]
        dsimp only
        rw [if_neg hneg]
        exact hT.joint t ht

theorem sliceClose_took {start stop step line : Int} (hs : intMin ≤ start)
    (h : sliceClose start stop step line p e = some (some x, e')) : Took (sliceClose start stop step line) p e x e' := by
  unfold sliceClose at h
  by_cases hc : p.headD 0 ≠ ch ']'
  · rw [if_pos hc, compileErr_run] at h
    cases h
  · rw [if_neg hc] at h
    cases h
    rw [not_not] at hc
    have hp := ne_nil_of_head hc (by decide)
    refine .done 1 hp (List.length_pos_iff.2 hp) hs fun t _ => ?_
    unfold sliceClose
    rw [headD_append hp, if_neg (not_not.2 hc)]

theorem sliceStep_took {start stop stepLine closeLine : Int} (hs : intMin ≤ start)
    (h : sliceStep start stop stepLine closeLine p e = some (some x, e')) :
    Took (sliceStep start stop stepLine closeLine) p e x e' := by
  by_cases hc : p.headD 0 = ch ':'
  · have hp := ne_nil_of_head hc (by decide)
    unfold sliceStep at h
    rw [if_pos hc] at h
    refine (Took.readInt (fun i q _ hq => sliceClose_took hs hq) h).drop 1 fun t _ => ?_
    unfold sliceStep
    rw [headD_append hp, if_pos hc, drop_append (List.length_pos_iff.2 hp)]
  · unfold sliceStep at h
    rw [if_neg hc] at h
    have hT := sliceClose_took hs h
    refine hT.drop 0 fun t _ => ?_
    unfold sliceStep
    rw [headD_append hT.ne, if_neg hc]
    rfl

theorem sliceEnd_took {start endLine stepLine closeLine : Int} {omitted : Bool} (hs : intMin ≤ start)
    (h : sliceEnd start omitted endLine stepLine closeLine p e = some (some x, e')) :
    Took (sliceEnd start omitted endLine stepLine closeLine) p e x e' := by
  cases omitted with
  | true => exact sliceStep_took hs h
  | false =>
    have hT := Took.readInt (F := fun stop q => sliceStep start stop stepLine closeLine q)
      (fun i q _ hq => sliceStep_took hs hq) h
    exact hT

/-- A set of indexes, with at least as much fuel. -/
theorem indexList_took {n m : Nat} {l : List Int} (hm : n ≤ m) (h : indexList n p l e = some (some x, e')) :
    Took (fun p => indexList m p l) p e x e' := by
  induction n generalizing m p l e' with
  | zero => cases h
  | succ n ih =>
    obtain ⟨m, rfl⟩ : ∃ k, m = k + 1 := ⟨m - 1, by omega⟩
    unfold indexList at h
    by_cases hc : p.headD 0 = ch ']'
    · rw [if_pos hc] at h
      cases h
      have hp := ne_nil_of_head hc (by decide)
      refine .done 1 hp (List.length_pos_iff.2 hp) trivial fun t _ => ?_
      simp only [indexList]
      rw [headD_append hp, if_pos hc]
    · rw [if_neg hc] at h
      have hT := Took.readInt (G := fun i p =>
        if p.headD 0 ≠ ch ',' ∧ p.headD 0 ≠ ch ']' then compileErr 212 "invalid subscript set expression"
        else indexList m p (l ++ [i])) (fun i q _ hq => ?_) h
      · have hp : p ≠ [] := fun h0 => hT.ne (by rw [h0]; rfl)
        refine hT.drop 1 fun t _ => ?_
        simp only [indexList]
        rw [headD_append hp, if_neg hc, drop_append (List.length_pos_iff.2 hp)]
      · by_cases hsep : q.headD 0 ≠ ch ',' ∧ q.headD 0 ≠ ch ']'
        · rw [if_pos hsep, compileErr_run] at hq
          cases hq
        · rw [if_neg hsep] at hq
          have hT := ih (m := m) (by omega) hq
          refine hT.drop 0 fun t _ => ?_
          rw [headD_append hT.ne, if_neg hsep]
          rfl

theorem compileIndex_took (h : compileIndex p e = some (some x, e')) : Took compileIndex p e x e' := by
  refine Took.readInt (fun i q hmin hq => ?_) h
  by_cases hcomma : q.headD 0 = ch ','
  · rw [if_pos hcomma] at hq
    have hT : Took (fun q => indexList (q.length + 1) q [i]) q e x e' := by
      have hT := indexList_took (le_refl _) hq
      refine ⟨hT.state, hT.ne, hT.suffix, hT.node, fun t ht => ?_⟩
      exact (indexList_took (m := (q ++ t).length + 1) (by rw [List.length_append]; omega) hq).joint t ht
    refine hT.drop 0 fun t _ => ?_
    rw [headD_append hT.ne, if_pos hcomma]
    rfl
  rw [if_neg hcomma] at hq
  by_cases hcolon : q.headD 0 = ch ':'
  · rw [if_pos hcolon] at hq
    have hp := ne_nil_of_head hcolon (by decide)
    have hT := sliceEnd_took hmin hq
    refine hT.drop 1 fun t _ => ?_
    rw [headD_append hp, if_neg hcomma, if_pos hcolon, drop_append (List.length_pos_iff.2 hp), headD_append hT.ne]
  rw [if_neg hcolon] at hq
  by_cases hclose : q.headD 0 = ch ']'
  · rw [if_pos hclose] at hq
    have hp := ne_nil_of_head hclose (by decide)
    cases hq
    refine .done 1 hp (List.length_pos_iff.2 hp) trivial fun t _ => ?_
    rw [headD_append hp, if_neg hcomma, if_neg hcolon, if_pos hclose]
  · rw [if_neg hclose, compileErr_run] at hq
    cases hq

/-! ### Names -/

theorem strstr_append {w : List UInt8} {n : Nat} (h : strstr w s = some n) :
    strstr w (s ++ t) = some n ∧ n + w.length ≤ s.length := by
  induction s generalizing n with
  | nil =>
    unfold strstr at h
    split at h
    · rename_i hw
      injection h with h
      subst h
      subst hw
      refine ⟨?_, le_refl _⟩
      cases t with
      | nil => rfl
      | cons c t => simp [strstr]
    · cases h
  | cons c s ih =>
    unfold strstr at h
    by_cases hw : w <+: c :: s
    · rw [if_pos hw] at h
      injection h with h
      subst h
      refine ⟨?_, by simpa using hw.length_le⟩
      have hw' : w <+: c :: (s ++ t) := hw.trans (List.prefix_append (c :: s) t)
      rw [List.cons_append, strstr, if_pos hw']
    · rw [if_neg hw] at h
      cases hn : strstr w s with
      | none =>
        rw [hn] at h
        cases h
      | some k =>
        rw [hn] at h
        injection h with h
        have h : k + 1 = n := h
        obtain ⟨happ, hlen⟩ := ih hn
        have hw' : ¬ w <+: c :: (s ++ t) := by
          intro hp
          refine hw (List.prefix_of_prefix_length_le hp (List.prefix_append (c :: s) t) ?_)
          simp only [List.length_cons]
          omega
        refine ⟨?_, ?_⟩
        · rw [List.cons_append, strstr, if_neg hw', happ, ← h]
          rfl
        · rw [List.length_cons]
          omega

theorem strndup_append {n : Nat} (h0 : n ≠ 0) (hn : n ≤ s.length) : strndup (s ++ t) n = strndup s n := by
  unfold strndup
  rw [if_neg h0, if_neg h0, List.take_append_of_le_length hn]

/-- A name is copied by its length, unless it is empty. -/
theorem strndup_name {k : CStr} (hk : k.bytes ≠ []) (t : List UInt8) : strndup (k.bytes ++ t) k.bytes.length = k := by
  have hlen : k.bytes.length ≠ 0 := fun h => hk (List.eq_nil_of_length_eq_zero h)
  unfold strndup
  rw [if_neg hlen, List.take_left]
  exact CStr.ext (ofBytes_of_nul_free k.nul_free)

theorem compileDot_took (h : compileDot p e = some (some x, e')) : Took compileDot p e x e' := by
  have hdot : (fun c : UInt8 => decide (c ≠ ch '.' ∧ c ≠ ch '[' ∧ c ≠ 0)) (ch '.') = false := by decide
  have hbracket : (fun c : UInt8 => decide (c ≠ ch '.' ∧ c ≠ ch '[' ∧ c ≠ 0)) (ch '[') = false := by decide
  unfold compileDot at h
  by_cases h₁ : p.headD 0 = ch '.'
  · rw [if_pos h₁] at h
    cases h
    have hp := ne_nil_of_head h₁ (by decide)
    refine .done 0 hp (Nat.zero_le _) h₁ fun t _ => ?_
    unfold compileDot
    rw [headD_append hp, if_pos h₁]
    rfl
  rw [if_neg h₁] at h
  by_cases h₂ : p.headD 0 = ch '*'
  · rw [if_pos h₂] at h
    cases h
    have hp := ne_nil_of_head h₂ (by decide)
    refine .done 1 hp (List.length_pos_iff.2 hp) trivial fun t _ => ?_
    unfold compileDot
    rw [headD_append hp, if_neg h₁, if_pos h₂]
  rw [if_neg h₂] at h
  by_cases h₃ : (p.takeWhile fun c => decide (c ≠ ch '.' ∧ c ≠ ch '[' ∧ c ≠ 0)).length = 0
  · rw [if_pos h₃, compileErr_run] at h
    cases h
  · rw [if_neg h₃] at h
    cases h
    have hle := (List.takeWhile_prefix (l := p) fun c => decide (c ≠ ch '.' ∧ c ≠ ch '[' ∧ c ≠ 0)).length_le
    have hp : p ≠ [] := by
      rintro rfl
      exact h₃ rfl
    refine ⟨rfl, hp, List.drop_suffix _ p, trivial, fun t ht => ?_⟩
    have htake : (p ++ t).takeWhile (fun c => decide (c ≠ ch '.' ∧ c ≠ ch '[' ∧ c ≠ 0)) =
        p.takeWhile fun c => decide (c ≠ ch '.' ∧ c ≠ ch '[' ∧ c ≠ 0) := by
      rcases ht with ht | ht
      · obtain ⟨c, t, rfl⟩ := List.exists_cons_of_ne_nil (ne_nil_of_head ht (by decide))
        have hc : c = ch '.' := ht
        rw [hc, takeWhile_stop hdot]
      · obtain ⟨c, t, rfl⟩ := List.exists_cons_of_ne_nil (ne_nil_of_head ht (by decide))
        have hc : c = ch '[' := ht
        rw [hc, takeWhile_stop hbracket]
    unfold compileDot
    rw [headD_append hp, if_neg h₁, if_neg h₂, htake, if_neg h₃, strndup_append h₃ hle, drop_append hle]
    rfl

theorem prefix_headD {w : List UInt8} (hw : w ≠ []) (h : w <+: p) : p.headD 0 = w.headD 0 := by
  obtain ⟨t, rfl⟩ := h
  exact headD_append hw

theorem not_prefix_append {w : List UInt8} (h : ¬ w <+: p) (hlen : w.length ≤ p.length) (t : List UInt8) :
    ¬ w <+: p ++ t := fun hp =>
  h (List.prefix_of_prefix_length_le hp (List.prefix_append p t) hlen)

/-- A star alone is no index. -/
theorem compileIndex_star : compileIndex [ch '*'] e ≠ some (some x, e') := by
  intro h
  unfold compileIndex readInt at h
  rw [ErrM.bind_run] at h
  have hnone : ∀ n rest, ¬ Numeral [ch '*'] n rest := by
    rintro n rest ⟨-, hn, -⟩
    cases hn
  cases hy : pclStrtoi [ch '*'] e with
  | none =>
    rw [hy] at h
    cases h
  | some z =>
    have hneg := pclStrtoi_else hnone hy
    rw [hy, Option.bind_some] at h
    dsimp only at h
    rw [if_pos hneg, compileTrc_run] at h
    cases h

theorem not_starts_star (h : p.headD 0 ≠ ch '*') : ¬ txt "*]" <+: p := fun hpre => h (prefix_headD (by decide) hpre)

theorem strstr_zero {w s : List UInt8} (h : strstr w s = some 0) : w <+: s := by
  rw [strstr_eq_search] at h
  obtain ⟨pre, post, rfl, hpre⟩ := Split.search_some h
  rw [List.eq_nil_of_length_eq_zero hpre]
  exact List.prefix_append w post

theorem compileBracket_quoted_took (hq : ¬ [quote, quote, ch ']'] <+: p) (hquote : p.headD 0 = quote)
    (h : compileBracket p e = some (some x, e')) : Took compileBracket p e x e' := by
  have hp := ne_nil_of_head hquote (by decide)
  have hstar : ¬ txt "*]" <+: p := not_starts_star (by rw [hquote]; decide)
  have hhead (t : List UInt8) : (p ++ t).headD 0 = quote := (headD_append hp).trans hquote
  have hstar' (t : List UInt8) : ¬ txt "*]" <+: p ++ t := not_starts_star (by rw [hhead]; decide)
  unfold compileBracket at h
  rw [if_neg hstar, if_pos hquote] at h
  by_cases hwild : [quote, ch '*', quote, ch ']'] <+: p
  · rw [if_pos hwild] at h
    cases h
    refine .done 4 hp hwild.length_le trivial fun t _ => ?_
    unfold compileBracket
    rw [if_neg (hstar' t), if_pos (hhead t), if_pos (hwild.trans (List.prefix_append p t))]
  · rw [if_neg hwild] at h
    cases hlen : strstr [quote, ch ']'] (p.drop 1) with
    | none =>
      simp only [hlen, compileErr_run] at h
      cases h
    | some n =>
      simp only [hlen] at h
      cases h
      have h1 : 1 ≤ p.length := List.length_pos_iff.2 hp
      have hle : n + 2 ≤ (p.drop 1).length := (strstr_append (t := []) hlen).2
      have h0 : n ≠ 0 := by
        rintro rfl
        obtain ⟨c, q, rfl⟩ := List.exists_cons_of_ne_nil hp
        have hc : c = quote := hquote
        exact hq (List.cons_prefix_cons.2 ⟨hc.symm, strstr_zero hlen⟩)
      have hdrop : (p.drop 1).length = p.length - 1 := List.length_drop
      refine ⟨rfl, hp, (List.drop_suffix _ _).trans (List.drop_suffix _ _), trivial, fun t _ => ?_⟩
      have hwild' : ¬ [quote, ch '*', quote, ch ']'] <+: p ++ t := not_prefix_append hwild (by simp; omega) t
      unfold compileBracket
      rw [if_neg (hstar' t), if_pos (hhead t), if_neg hwild', drop_append h1]
      simp only [(strstr_append (t := t) hlen).1]
      rw [strndup_append h0 (by omega), drop_append hle]
      rfl

/-- A bracket takes its node, unless it quotes an empty name. -/
theorem compileBracket_took (hq : ¬ [quote, quote, ch ']'] <+: p) (h : compileBracket p e = some (some x, e')) :
    Took compileBracket p e x e' := by
  by_cases hquote : p.headD 0 = quote
  · exact compileBracket_quoted_took hq hquote h
  unfold compileBracket at h
  by_cases hstar : txt "*]" <+: p
  · rw [if_pos hstar] at h
    cases h
    have hp := ne_nil_of_head (prefix_headD (by decide) hstar) (by decide)
    refine .done 2 hp hstar.length_le trivial fun t _ => ?_
    unfold compileBracket
    rw [if_pos (hstar.trans (List.prefix_append p t))]
  rw [if_neg hstar, if_neg hquote] at h
  by_cases hcolon : p.headD 0 = ch ':'
  · rw [if_pos hcolon] at h
    have hp := ne_nil_of_head hcolon (by decide)
    have hT := sliceEnd_took (by decide) h
    refine hT.drop 1 fun t _ => ?_
    have hhead : (p ++ t).headD 0 = ch ':' := (headD_append hp).trans hcolon
    unfold compileBracket
    rw [if_neg (not_starts_star (by rw [hhead]; decide)), if_neg (by rw [hhead]; decide), if_pos hhead,
      drop_append (List.length_pos_iff.2 hp), headD_append hT.ne]
  · rw [if_neg hcolon] at h
    have hT := compileIndex_took h
    refine hT.drop 0 fun t _ => ?_
    have hstar' : ¬ txt "*]" <+: p ++ t := by
      intro hpre
      by_cases hlen : (txt "*]").length ≤ p.length
      · exact not_prefix_append hstar hlen t hpre
      · obtain ⟨c, q, rfl⟩ := List.exists_cons_of_ne_nil hT.ne
        have hq : q = [] := List.eq_nil_of_length_eq_zero (by
          have h2 : (txt "*]").length = 2 := rfl
          rw [List.length_cons] at hlen
          omega)
        have hc : c = ch '*' := by
          have hhead := prefix_headD (by decide) hpre
          exact hhead
        rw [hq, hc] at h
        exact compileIndex_star h
    unfold compileBracket
    rw [if_neg hstar', headD_append hT.ne, if_neg hquote, if_neg hcolon]
    rfl

/-- A node is taken, unless its name is quoted and empty. -/
theorem compileNode_took (hq : ¬ [ch '[', quote, quote, ch ']'] <+: p) (h : compileNode p e = some (some x, e')) :
    Took compileNode p e x e' ∧ x.2.length < p.length := by
  unfold compileNode at h
  by_cases h₁ : p.headD 0 = ch '$'
  · rw [if_pos h₁, compileErr_run] at h
    cases h
  rw [if_neg h₁] at h
  have hstrict {c : UInt8} (hc : p.headD 0 = c) (h0 : c ≠ 0) (hsuf : x.2 <:+ p.drop 1) : x.2.length < p.length := by
    have hpos := List.length_pos_iff.2 (ne_nil_of_head hc h0)
    have hle := hsuf.length_le
    rw [List.length_drop] at hle
    omega
  by_cases h₂ : p.headD 0 = ch '.'
  · rw [if_pos h₂] at h
    have hp := ne_nil_of_head h₂ (by decide)
    have hT := compileDot_took h
    refine ⟨hT.drop 1 fun t _ => ?_, hstrict h₂ (by decide) hT.suffix⟩
    unfold compileNode
    rw [headD_append hp, if_neg h₁, if_pos h₂, drop_append (List.length_pos_iff.2 hp)]
  rw [if_neg h₂] at h
  by_cases h₃ : p.headD 0 = ch '['
  · rw [if_pos h₃] at h
    have hp := ne_nil_of_head h₃ (by decide)
    have hq' : ¬ [quote, quote, ch ']'] <+: p.drop 1 := by
      obtain ⟨c, p, rfl⟩ := List.exists_cons_of_ne_nil hp
      have hc : c = ch '[' := h₃
      rintro hpre
      exact hq (List.cons_prefix_cons.2 ⟨hc.symm, hpre⟩)
    have hT := compileBracket_took hq' h
    refine ⟨hT.drop 1 fun t _ => ?_, hstrict h₃ (by decide) hT.suffix⟩
    unfold compileNode
    rw [headD_append hp, if_neg h₁, if_neg h₂, if_pos h₃, drop_append (List.length_pos_iff.2 hp)]
  · rw [if_neg h₃, ErrM.bind_run, errVset_run _ _ _ _ _ (by decide)] at h
    cases h

/-- An empty quoted name takes all that follows as its name. -/
theorem compileNode_quotes (q : List UInt8) (e : ErrState) : compileNode ([ch '[', quote, quote, ch ']'] ++ q) e =
    some (some (.member (.ofBytes ([quote, ch ']'] ++ q)), q), e) := by
  have h₁ : ¬ txt "*]" <+: [quote, quote, ch ']'] ++ q := not_starts_star (by decide : quote ≠ ch '*')
  have h₂ : ¬ [quote, ch '*', quote, ch ']'] <+: [quote, quote, ch ']'] ++ q := fun h => by
    obtain ⟨-, h⟩ := List.cons_prefix_cons.1 h
    exact absurd (List.cons_prefix_cons.1 h).1 (by decide)
  have h₃ : strstr [quote, ch ']'] (quote :: ch ']' :: q) = some 0 := if_pos (List.prefix_append [quote, ch ']'] q)
  show compileBracket ([quote, quote, ch ']'] ++ q) e = _
  unfold compileBracket
  rw [if_neg h₁, if_pos (show ([quote, quote, ch ']'] ++ q).headD 0 = quote from rfl), if_neg h₂]
  simp only [List.cons_append, List.nil_append, List.drop_succ_cons, List.drop_zero, h₃]
  rfl

theorem compileNode_ok (h : compileNode p e = some (some x, e')) :
    e' = e ∧ x.2 <:+ p ∧ NodeOk x ∧ x.2.length < p.length := by
  by_cases hq : [ch '[', quote, quote, ch ']'] <+: p
  · obtain ⟨q, rfl⟩ := hq
    rw [compileNode_quotes] at h
    cases h
    refine ⟨rfl, List.suffix_append _ q, trivial, ?_⟩
    simp only [List.length_append, List.length_cons]
    omega
  · obtain ⟨hT, hlt⟩ := compileNode_took hq h
    exact ⟨hT.state, hT.suffix, hT.node, hlt⟩

end

/-! ### The whole path -/

/-- The text is a sequence of selectors, compiled to these nodes. -/
inductive Selectors (e : ErrState) : List UInt8 → List PathNode → Prop
  | nil : Selectors e [] []
  | cons {p rest : List UInt8} {node : PathNode} {nodes : List PathNode}
      (h : compileNode p e = some (some (node, rest), e)) (hs : Selectors e rest nodes) : Selectors e p (node :: nodes)

theorem headD_eq_zero {p : List UInt8} (h0 : 0 ∉ p) : p.headD 0 = 0 ↔ p = [] := by
  cases p with
  | nil => simp
  | cons c p =>
    have hc : c ≠ 0 := fun hc => h0 (hc ▸ List.mem_cons_self)
    simp [hc]

theorem compileLoop_selectors {n : Nat} {p : List UInt8} (h0 : 0 ∉ p) {root path : List PathNode}
    (h : compileLoop n p root e = some (some path, e')) : e' = e ∧ ∃ nodes, path = root.reverse ++ nodes ∧ Selectors e p nodes := by
  induction n generalizing p root e' with
  | zero => cases h
  | succ n ih =>
    unfold compileLoop at h
    by_cases hp : p.headD 0 = 0
    · rw [if_pos hp] at h
      cases h
      rw [headD_eq_zero h0] at hp
      subst hp
      exact ⟨rfl, [], by rw [List.append_nil], .nil⟩
    · rw [if_neg hp, ErrM.bind_run] at h
      cases hx : compileNode p e with
      | none =>
        rw [hx] at h
        cases h
      | some y =>
        obtain ⟨x, e₁⟩ := y
        rw [hx, Option.bind_some] at h
        cases x with
        | none => cases h
        | some x =>
          obtain ⟨node, rest⟩ := x
          obtain ⟨rfl, hsuf, -, -⟩ := compileNode_ok hx
          obtain ⟨he, nodes, hpath, hs⟩ := ih (fun hm => h0 (hsuf.subset hm)) h
          refine ⟨he, node :: nodes, ?_, .cons hx hs⟩
          rw [hpath, List.reverse_cons, List.append_assoc]
          rfl

theorem Selectors.loop {p : List UInt8} {nodes : List PathNode} (h : Selectors e p nodes) :
    ∀ {n}, p.length < n → ∀ root, compileLoop n p root e = some (some (root.reverse ++ nodes), e) := by
  induction h with
  | nil =>
    intro n hn root
    obtain ⟨n, rfl⟩ : ∃ m, n = m + 1 := ⟨n - 1, by omega⟩
    rw [List.append_nil]
    rfl
  | @cons p rest node nodes hx hs ih =>
    intro n hn root
    obtain ⟨n, rfl⟩ : ∃ m, n = m + 1 := ⟨n - 1, by omega⟩
    have hlt : rest.length < p.length := (compileNode_ok hx).2.2.2
    have hp : ¬ p.headD 0 = 0 := by
      intro hp
      unfold compileNode at hx
      rw [hp, if_neg (by decide), if_neg (by decide), if_neg (by decide), ErrM.bind_run,
        errVset_run _ _ _ _ _ (by decide)] at hx
      cases hx
    unfold compileLoop
    rw [if_neg hp, ErrM.bind_run, hx, Option.bind_some]
    show compileLoop n rest (node :: root) e = _
    rw [ih (by omega) (node :: root), List.reverse_cons, List.append_assoc]
    rfl

/-- A path whose selectors have this text. -/
def dollar (s : CStr) : CStr := ⟨ch '$' :: s.bytes, by
  rw [List.mem_cons, not_or]
  exact ⟨by decide, s.nul_free⟩⟩

/-- One text behind the other. -/
def CStr.append (s t : CStr) : CStr := ⟨s.bytes ++ t.bytes, by
  rw [List.mem_append, not_or]
  exact ⟨s.nul_free, t.nul_free⟩⟩

/-- `pcl_json_compile` accepts a dollar and selectors. -/
theorem jsonCompile_selectors {path : CStr} {nodes : List PathNode} (h : jsonCompile path e = some (some nodes, e')) :
    ∃ p sel, path.bytes.dropWhile isspace = ch '$' :: p ∧ Joint p ∧ nodes = .root :: sel ∧ Selectors e p sel := by
  unfold jsonCompile at h
  have h0 : 0 ∉ path.bytes.dropWhile isspace := fun hm => path.nul_free ((List.dropWhile_suffix _).subset hm)
  generalize path.bytes.dropWhile isspace = p at h h0
  by_cases hd : p.headD 0 ≠ ch '$' ∨ (p.drop 1).headD 0 ≠ ch '.' ∧ (p.drop 1).headD 0 ≠ ch '['
  · rw [if_pos hd, compileErr_run] at h
    cases h
  · rw [if_neg hd] at h
    rw [not_or, not_not] at hd
    obtain ⟨c, p, rfl⟩ := List.exists_cons_of_ne_nil (ne_nil_of_head hd.1 (by decide))
    obtain ⟨-, sel, hnodes, hs⟩ := compileLoop_selectors (fun hm => h0 (List.mem_cons_of_mem c hm)) h
    have hc : c = ch '$' := hd.1
    refine ⟨p, sel, by rw [hc], ?_, hnodes, hs⟩
    by_contra hj
    unfold Joint at hj
    exact hd.2 (not_or.1 hj)

theorem jsonCompile_dollar {s : CStr} {nodes : List PathNode} (hj : Joint s.bytes) (h : Selectors e s.bytes nodes) :
    jsonCompile (dollar s) e = some (some (.root :: nodes), e) := by
  have hdrop : (dollar s).bytes.dropWhile isspace = ch '$' :: s.bytes := List.dropWhile_cons_of_neg (by decide)
  have hd : ¬ ((ch '$' :: s.bytes).headD 0 ≠ ch '$' ∨ ((ch '$' :: s.bytes).drop 1).headD 0 ≠ ch '.' ∧
      ((ch '$' :: s.bytes).drop 1).headD 0 ≠ ch '[') := by
    rintro (h | ⟨h, h'⟩)
    · exact h rfl
    · rcases hj with hj | hj
      · exact h hj
      · exact h' hj
  unfold jsonCompile
  rw [hdrop, if_neg hd]
  refine h.loop ?_ [.root]
  show s.bytes.length < s.bytes.length + 1 + 1
  omega

/-- The text of an accepted path determines its nodes. -/
theorem Selectors.unique {p : List UInt8} {nodes nodes' : List PathNode} (h : Selectors e p nodes)
    (h' : Selectors e p nodes') : nodes = nodes' := by
  have hrun := h.loop (Nat.lt_succ_self _) []
  rw [h'.loop (Nat.lt_succ_self _) []] at hrun
  injection hrun with hrun
  injection hrun with hrun
  injection hrun with hrun
  exact hrun.symm

/-- The nodes are the same, or members under two names. -/
def Renamed (node node' : PathNode) : Prop := node = node' ∨ ∃ k k', node = .member k ∧ node' = .member k'

/-- Selectors go on with further ones; the names of empty quotes grow by their text. -/
theorem Selectors.append {p q : List UInt8} {nodes nodes' : List PathNode} (h : Selectors e p nodes) (hj : Joint q)
    (h' : Selectors e q nodes') : ∃ renamed, List.Forall₂ Renamed nodes renamed ∧ Selectors e (p ++ q) (renamed ++ nodes') := by
  induction h with
  | nil => exact ⟨[], .nil, h'⟩
  | @cons p rest node nodes hx hs ih =>
    obtain ⟨renamed, hren, hsel⟩ := ih
    by_cases hq : [ch '[', quote, quote, ch ']'] <+: p
    · obtain ⟨t, rfl⟩ := hq
      rw [compileNode_quotes] at hx
      cases hx
      refine ⟨.member (.ofBytes ([quote, ch ']'] ++ (rest ++ q))) :: renamed, .cons (.inr ⟨_, _, rfl, rfl⟩) hren, ?_⟩
      rw [List.append_assoc]
      exact .cons (compileNode_quotes (rest ++ q) e) hsel
    · exact ⟨node :: renamed, .cons (.inl rfl) hren, .cons ((compileNode_took hq hx).1.joint q hj) hsel⟩

/-- What is known of an accepted path: no recursive descent is the last node, and the starts of slices are
of type `int`. -/
structure PathOk (path : List PathNode) : Prop where
  last : path.getLast? ≠ some .recursiveDescent
  start : ∀ a b c, .elementSlice a b c ∈ path → intMin ≤ a

theorem PathOk.tail {node : PathNode} {path : List PathNode} (h : PathOk (node :: path)) : PathOk path where
  last hl := by
    refine h.last ?_
    rw [List.getLast?_cons, hl]
    rfl
  start a b c hm := h.start a b c (List.mem_cons_of_mem node hm)

theorem Selectors.ok {p : List UInt8} {nodes : List PathNode} (h : Selectors e p nodes) :
    PathOk nodes ∧ .root ∉ nodes ∧ (p ≠ [] → nodes ≠ []) := by
  induction h with
  | nil => exact ⟨⟨by simp, by simp⟩, List.not_mem_nil, fun h => absurd rfl h⟩
  | @cons p rest node nodes hx hs ih =>
    obtain ⟨hok, hroot, hne⟩ := ih
    obtain ⟨-, -, hnode, -⟩ := compileNode_ok hx
    refine ⟨⟨fun hl => ?_, fun a b c hm => ?_⟩, fun hm => ?_, fun _ => List.cons_ne_nil _ _⟩
    · cases nodes with
      | nil =>
        have hnode' : node = .recursiveDescent := by simpa using hl
        subst hnode'
        have hdot : rest.headD 0 = ch '.' := hnode
        exact hne (ne_nil_of_head hdot (by decide)) rfl
      | cons node' nodes =>
        rw [List.getLast?_cons_cons] at hl
        exact hok.last hl
    · rcases List.mem_cons.1 hm with rfl | hm
      · exact hnode
      · exact hok.start a b c hm
    · rcases List.mem_cons.1 hm with rfl | hm
      · exact hnode
      · exact hroot hm

end Pcl

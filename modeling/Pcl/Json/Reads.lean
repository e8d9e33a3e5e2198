import Pcl.Json.Decode

/-!
# What a parser reads

`Reads p i a r`: from the bytes `i` up to `s->end` the parser `p` reads `a` and leaves `r`, whatever
stands behind `s->end`. It may also fail on `i` (`Fails`), or fail or run over the end (`Misses`), and in each of these
cases the context for an error message stays in the text; or it has no result there (`Lost`). The rules below say so for
the parts the parsers are made of; a `StopRule` is what all ways to stop have in common.
-/

namespace Pcl

variable {α β R : Type}

/-- The context starts in the text, up to `s->end`. -/
structure JState.CtxIn (s : JState) : Prop where
  nonneg : 0 ≤ s.ctxLeft
  le_length : s.ctxLeft ≤ s.ctx.length

/-- The text up to `s->end` is `i`, `ext` stands behind it, and the context is in the text. -/
structure JState.At (s : JState) (i ext : List UInt8) : Prop where
  rest_eq : s.rest = i ++ ext
  left_eq : s.left = i.length
  ctx_in : s.CtxIn

/-- `p` reads `a` from `i` and leaves `r`. -/
def Reads (p : JM α) (i : List UInt8) (a : α) (r : List UInt8) : Prop :=
  ∀ ext s, s.At i ext → ∃ s', p s = some (.ok a s') ∧ s'.At r ext

/-- Where what stands behind `i` meets `E`, `p` fails on `i` in a state that meets `Q`. -/
def FailsWhen (E : List UInt8 → Prop) (Q : JState → Prop) (p : JM α) (i : List UInt8) : Prop :=
  ∀ ext s, s.At i ext → E ext → ∃ f s', p s = some (.fail f s') ∧ Q s'

/-- `p` fails on `i`. -/
abbrev Fails (p : JM α) (i : List UInt8) : Prop := FailsWhen (fun _ => True) JState.CtxIn p i

/-- `p` fails on `i` where nothing stands behind it. -/
abbrev FailsAlone (p : JM α) (i : List UInt8) : Prop := FailsWhen (· = []) JState.CtxIn p i

/-- `p` has no result on `i` in front of `ext`. -/
def LostBefore (ext : List UInt8) (p : JM α) (i : List UInt8) : Prop := ∀ s, s.At i ext → p s = none

/-- `p` has no result on `i`. -/
def Lost (p : JM α) (i : List UInt8) : Prop := ∀ ext s, s.At i ext → p s = none

/-- `p` fails on `i`, or runs over its end into something that stands there. -/
def Misses (p : JM α) (i : List UInt8) : Prop :=
  ∀ ext s, s.At i ext → (∃ f s', p s = some (.fail f s') ∧ s'.CtxIn) ∨
    ext ≠ [] ∧ ∃ a s', p s = some (.ok a s') ∧ s'.left < 0 ∧ s'.CtxIn

/-- `p` fails at the end and behind it. -/
def StopsAtEnd (p : JM α) : Prop :=
  ∀ s : JState, s.left ≤ 0 → ∃ f s', p s = some (.fail f s') ∧ s'.ctx = s.ctx ∧ s'.ctxLeft = s.ctxLeft

theorem ne_nil_of_headD {i : List UInt8} (hi : i.headD 0 ≠ 0) : i ≠ [] := by
  rintro rfl
  exact hi rfl

/-- A state at the start of a text. -/
def JState.start (i ext : List UInt8) : JState := ⟨i ++ ext, i.length, 1, i ++ ext, i.length⟩

theorem JState.start_at (i ext : List UInt8) : (JState.start i ext).At i ext := by
  refine ⟨rfl, rfl, ?_, ?_⟩ <;> simp [JState.start]

theorem JState.At.left_pos {s : JState} {i ext : List UInt8} (hs : s.At i ext) (hne : i ≠ []) : s.left > 0 := by
  have := List.length_pos_iff.2 hne
  rw [hs.left_eq]
  omega

namespace Reads
variable {p q : JM α} {f : α → JM β} {i r r' : List UInt8} {a : α} {b : β}

theorem pure (a : α) (i : List UInt8) : Reads (Pure.pure a) i a i :=
  fun _ s hs => ⟨s, rfl, hs⟩

theorem bind (hp : Reads p i a r) (hf : Reads (f a) r b r') : Reads (p >>= f) i b r' := by
  intro ext s hs
  obtain ⟨s₁, h₁, hs₁⟩ := hp ext s hs
  obtain ⟨s₂, h₂, hs₂⟩ := hf ext s₁ hs₁
  refine ⟨s₂, ?_, hs₂⟩
  rw [JM.bind_run, h₁, JM.andThen_ok, h₂]

theorem peek_cons (c : UInt8) (i : List UInt8) : Reads JM.peek (c :: i) c (c :: i) := by
  intro ext s hs
  refine ⟨s, ?_, hs⟩
  unfold JM.peek
  rw [hs.rest_eq]
  rfl

theorem peek (hne : i ≠ []) : Reads JM.peek i (i.headD 0) i := by
  obtain ⟨c, t, rfl⟩ := List.exists_cons_of_ne_nil hne
  exact peek_cons c t

theorem mark (i : List UInt8) : Reads JM.mark i () i := by
  intro ext s hs
  refine ⟨_, rfl, hs.rest_eq, hs.left_eq, ?_, ?_⟩
  · show 0 ≤ s.left
    rw [hs.left_eq]
    omega
  · show s.left ≤ s.rest.length
    rw [hs.left_eq, hs.rest_eq, List.length_append]
    omega

theorem skip_append (tok : List UInt8) {n : Nat} (hn : n = tok.length) : Reads (JM.skip n) (tok ++ r) () r := by
  intro ext s hs
  subst hn
  refine ⟨_, rfl, ?_, ?_, hs.ctx_in.nonneg, hs.ctx_in.le_length⟩
  · simp only [hs.rest_eq, List.append_assoc, List.drop_left]
  · simp only [hs.left_eq, List.length_append]
    omega

theorem skip_one (c : UInt8) (r : List UInt8) : Reads (JM.skip 1) (c :: r) () r := skip_append [c] rfl

/-- A rule for code that looks at the whole state. -/
theorem get {f : JState → JM β} (h : ∀ ext s, s.At i ext → Reads (f s) i b r) : Reads (JM.get >>= f) i b r :=
  fun ext s hs => h ext s hs ext s hs

theorem ite {c : Prop} [Decidable c] (h : c) (hp : Reads p i a r) : Reads (if c then p else q) i a r := by
  rwa [if_pos h]

theorem ite_not {c : Prop} [Decidable c] (h : ¬ c) (hq : Reads q i a r) : Reads (if c then p else q) i a r := by
  rwa [if_neg h]

theorem unique (h : Reads p i a r) {a' : α} (h' : Reads p i a' r') : a = a' ∧ r = r' := by
  obtain ⟨s, hs, hr⟩ := h [] _ (JState.start_at i [])
  obtain ⟨s', hs', hr'⟩ := h' [] _ (JState.start_at i [])
  rw [hs] at hs'
  cases hs'
  refine ⟨rfl, List.append_cancel_right (hr.rest_eq.symm.trans hr'.rest_eq)⟩

theorem not_failsAlone (h : Reads p i a r) : ¬ FailsAlone p i := by
  intro hf
  obtain ⟨s, hs, -⟩ := h [] _ (JState.start_at i [])
  obtain ⟨f, s', hs', -⟩ := hf [] _ (JState.start_at i []) rfl
  rw [hs] at hs'
  cases hs'

end Reads

/-- What holds of a parser that stops holds of those that start with it, or come to it. -/
structure StopRule (P : ∀ {α : Type}, JM α → List UInt8 → Prop) : Prop where
  bind_left : ∀ {α β : Type} {p : JM α} {f : α → JM β} {i : List UInt8}, P p i → P (p >>= f) i
  bind_right : ∀ {α β : Type} {p : JM α} {f : α → JM β} {i r : List UInt8} {a : α}, Reads p i a r → P (f a) r →
    P (p >>= f) i
  get : ∀ {β : Type} {f : JState → JM β} {i : List UInt8}, (∀ ext s, s.At i ext → P (f s) i) → P (JM.get >>= f) i

namespace StopRule
variable {P : ∀ {α : Type}, JM α → List UInt8 → Prop} {p q : JM α} {i : List UInt8}

theorem ite (_ : StopRule P) {c : Prop} [Decidable c] (h : c) (hp : P p i) : P (if c then p else q) i := by
  rwa [if_pos h]

theorem ite_not (_ : StopRule P) {c : Prop} [Decidable c] (h : ¬ c) (hq : P q i) : P (if c then p else q) i := by
  rwa [if_neg h]

end StopRule

namespace FailsWhen
variable {p q : JM α} {f : α → JM β} {i r : List UInt8} {a : α} {E : List UInt8 → Prop} {Q : JState → Prop}

theorem fault (e : Fault) (i : List UInt8) : Fails (JM.fault e : JM α) i :=
  fun _ s hs _ => ⟨e, s, rfl, hs.ctx_in⟩

theorem throw (m : List (List UInt8)) (i : List UInt8) : Fails (JM.throw m : JM α) i := fault _ i

theorem bind_left (hp : FailsWhen E Q p i) : FailsWhen E Q (p >>= f) i := by
  intro ext s hs he
  obtain ⟨e, s', h, hq⟩ := hp ext s hs he
  exact ⟨e, s', by rw [JM.bind_run, h, JM.andThen_fail], hq⟩

theorem bind_right (hp : Reads p i a r) (hf : FailsWhen E Q (f a) r) : FailsWhen E Q (p >>= f) i := by
  intro ext s hs he
  obtain ⟨s₁, h₁, hs₁⟩ := hp ext s hs
  obtain ⟨e, s₂, h₂, hq⟩ := hf ext s₁ hs₁ he
  exact ⟨e, s₂, by rw [JM.bind_run, h₁, JM.andThen_ok, h₂], hq⟩

theorem get {f : JState → JM β} (h : ∀ ext s, s.At i ext → FailsWhen E Q (f s) i) : FailsWhen E Q (JM.get >>= f) i :=
  fun ext s hs => h ext s hs ext s hs

theorem ite {c : Prop} [Decidable c] (h : c) (hp : FailsWhen E Q p i) : FailsWhen E Q (if c then p else q) i := by
  rwa [if_pos h]

theorem ite_not {c : Prop} [Decidable c] (h : ¬ c) (hq : FailsWhen E Q q i) :
    FailsWhen E Q (if c then p else q) i := by
  rwa [if_neg h]

theorem rule (E : List UInt8 → Prop) (Q : JState → Prop) : StopRule (FailsWhen E Q) := ⟨bind_left, bind_right, get⟩

theorem misses (hp : Fails p i) : Misses p i := fun ext s hs => .inl (hp ext s hs trivial)

theorem alone (hp : Fails p i) : FailsAlone p i := fun ext s hs _ => hp ext s hs trivial

end FailsWhen

theorem LostBefore.rule (ext : List UInt8) : StopRule (LostBefore ext) where
  bind_left hp s hs := by rw [JM.bind_run, hp s hs, JM.andThen_none]
  bind_right hp hf s hs := by
    obtain ⟨s₁, h₁, hs₁⟩ := hp ext s hs
    rw [JM.bind_run, h₁, JM.andThen_ok, hf s₁ hs₁]
  get h s hs := h ext s hs s hs

theorem LostBefore.not_reads {p : JM α} {ext i r : List UInt8} {a : α} (hp : LostBefore ext p i) : ¬ Reads p i a r := by
  intro h
  obtain ⟨s, hs, -⟩ := h ext _ (JState.start_at i ext)
  rw [hp _ (JState.start_at i ext)] at hs
  cases hs

theorem Lost.rule : StopRule Lost where
  bind_left hp ext := (LostBefore.rule ext).bind_left (hp ext)
  bind_right hp hf ext := (LostBefore.rule ext).bind_right hp (hf ext)
  get h ext := (LostBefore.rule ext).get fun ext' s hs => h ext' s hs ext

namespace StopsAtEnd
variable {p q : JM α} {f : α → JM β}

theorem fault (e : Fault) : StopsAtEnd (JM.fault e : JM α) := fun s _ => ⟨e, s, rfl, rfl, rfl⟩

theorem bind (hp : StopsAtEnd p) : StopsAtEnd (p >>= f) := by
  intro s hs
  obtain ⟨e, s', h, hctx⟩ := hp s hs
  exact ⟨e, s', by rw [JM.bind_run, h, JM.andThen_fail], hctx⟩

end StopsAtEnd

namespace Misses
variable {p q : JM α} {f : α → JM β} {i r : List UInt8} {a : α}

/-- What runs over the end fails when it goes on with a parser that stops there. -/
theorem bind_stops (hp : Misses p i) (hf : ∀ a, StopsAtEnd (f a)) : Fails (p >>= f) i := by
  intro ext s hs _
  rcases hp ext s hs with ⟨e, s', h, hctx⟩ | ⟨-, a, s', h, hleft, hctx⟩
  · exact ⟨e, s', by rw [JM.bind_run, h, JM.andThen_fail], hctx⟩
  · obtain ⟨e, s₂, h₂, hsame, hsame'⟩ := hf a s' (Int.le_of_lt hleft)
    refine ⟨e, s₂, by rw [JM.bind_run, h, JM.andThen_ok, h₂], ?_, ?_⟩
    · rw [hsame']
      exact hctx.nonneg
    · rw [hsame, hsame']
      exact hctx.le_length

theorem bind_right (hp : Reads p i a r) (hf : Misses (f a) r) : Misses (p >>= f) i := by
  intro ext s hs
  obtain ⟨s₁, h₁, hs₁⟩ := hp ext s hs
  rw [JM.bind_run, h₁, JM.andThen_ok]
  exact hf ext s₁ hs₁

theorem ite_not {c : Prop} [Decidable c] (h : ¬ c) (hq : Misses q i) : Misses (if c then p else q) i := by
  rwa [if_neg h]

theorem alone (hp : Misses p i) : FailsAlone p i := by
  rintro ext s hs rfl
  rcases hp [] s hs with h | ⟨hne, -⟩
  · exact h
  · exact absurd rfl hne

end Misses

/-! ### Parsers that leave the context alone -/

/-- `p` leaves the context as it is. -/
def KeepsCtx (p : JM α) : Prop := ∀ s res, p s = some res → res.state.ctx = s.ctx ∧ res.state.ctxLeft = s.ctxLeft

namespace KeepsCtx
variable {p q : JM α} {f : α → JM β}

theorem pure (a : α) : KeepsCtx (Pure.pure a : JM α) := by
  rintro s res ⟨rfl⟩
  exact ⟨rfl, rfl⟩

theorem fault (e : Fault) : KeepsCtx (JM.fault e : JM α) := by
  rintro s res ⟨rfl⟩
  exact ⟨rfl, rfl⟩

theorem throw (m : List (List UInt8)) : KeepsCtx (JM.throw m : JM α) := fault _

theorem undef : KeepsCtx (JM.undef : JM α) := by
  rintro s res ⟨⟩

theorem peek : KeepsCtx JM.peek := by
  rintro s res ⟨rfl⟩
  exact ⟨rfl, rfl⟩

theorem skip (n : Nat) : KeepsCtx (JM.skip n) := by
  rintro s res ⟨rfl⟩
  exact ⟨rfl, rfl⟩

theorem goto (rest : List UInt8) : KeepsCtx (JM.goto rest) := by
  rintro s res ⟨rfl⟩
  exact ⟨rfl, rfl⟩

theorem lift (x : ErrM α) : KeepsCtx (JM.lift x) := by
  intro s res h
  unfold JM.lift at h
  split at h
  · cases h
  · cases h
    exact ⟨rfl, rfl⟩

theorem bind (hp : KeepsCtx p) (hf : ∀ a, KeepsCtx (f a)) : KeepsCtx (p >>= f) := by
  intro s res h
  rw [JM.bind_run] at h
  cases hrun : p s with
  | none =>
    rw [hrun] at h
    cases h
  | some res₁ =>
    obtain ⟨h₁, h₂⟩ := hp s res₁ hrun
    rw [hrun] at h
    cases res₁ with
    | ok a s₁ =>
      obtain ⟨h₃, h₄⟩ := hf a s₁ res h
      exact ⟨h₃.trans h₁, h₄.trans h₂⟩
    | fail e s₁ =>
      cases h
      exact ⟨h₁, h₂⟩

theorem get {f : JState → JM β} (h : ∀ s, KeepsCtx (f s)) : KeepsCtx (JM.get >>= f) := fun s => h s s

theorem ite {c : Prop} [Decidable c] (hp : KeepsCtx p) (hq : KeepsCtx q) : KeepsCtx (if c then p else q) := by
  split
  · exact hp
  · exact hq

theorem ctx_in (hp : KeepsCtx p) {s : JState} {res : PRes α} (h : p s = some res) (hs : s.CtxIn) : res.state.CtxIn := by
  obtain ⟨h₁, h₂⟩ := hp s res h
  refine ⟨?_, ?_⟩
  · rw [h₂]
    exact hs.nonneg
  · rw [h₁, h₂]
    exact hs.le_length

theorem fails (hp : KeepsCtx p) {i : List UInt8} (h : ∀ ext s, s.At i ext → ∃ f s', p s = some (.fail f s')) :
    Fails p i := by
  intro ext s hs _
  obtain ⟨f, s', hf⟩ := h ext s hs
  exact ⟨f, s', hf, hp.ctx_in hf hs.ctx_in⟩

end KeepsCtx

/-! ### Whitespace -/

/-- All bytes are white space. -/
def Space (w : List UInt8) : Prop := ∀ b ∈ w, isspace b = true

theorem Space.nil : Space [] := fun b hb => by cases hb

theorem Space.append {w w' : List UInt8} (hw : Space w) (hw' : Space w') : Space (w ++ w') := by
  intro b hb
  rcases List.mem_append.1 hb with hb | hb
  · exact hw b hb
  · exact hw' b hb

theorem isspace_lf : isspace (ch '\n') = true := by decide

/-- The loop stops at the first byte that is no white space. -/
theorem skipwsLoop_found (i ext : List UInt8) (line : Int) (hd : i.dropWhile isspace ≠ []) :
    ∃ line', skipwsLoop (i ++ ext) i.length line =
      (true, i.dropWhile isspace ++ ext, ((i.dropWhile isspace).length : Int), line') := by
  induction hn : i.length using Nat.strong_induction_on generalizing i line with
  | _ n ih =>
    subst hn
    match i with
    | [] => exact absurd rfl hd
    | b :: rest =>
      rw [List.cons_append, skipwsLoop.eq_def]
      have hpos : ¬ ((b :: rest).length : Int) ≤ 0 := by simp
      simp only [if_neg hpos]
      by_cases hb : isspace b = true
      · have hlen : ((b :: rest).length : Int) - 1 = rest.length := by simp
        simp only [List.dropWhile_cons_of_pos hb] at hd ⊢
        simp only [hb, Bool.not_true, Bool.false_eq_true, ↓reduceIte, hlen]
        match rest with
        | [] => exact absurd rfl hd
        | b' :: rest' =>
          by_cases hcr : b = ch '\r'
          · by_cases hlf : b' = ch '\n'
            · have hlen2 : ((b :: b' :: rest').length : Int) - 2 = rest'.length := by simp; omega
              rw [hlf, List.dropWhile_cons_of_pos isspace_lf] at hd ⊢
              rw [hlf] at hlen2
              simp only [List.cons_append, hcr, ↓reduceIte]
              rw [← hcr, hlen2]
              exact ih rest'.length (by simp only [List.length_cons]; omega) rest' (line + 1) hd rfl
            · simp only [List.cons_append, hcr, hlf, ↓reduceIte]
              exact ih (b' :: rest').length (by simp) (b' :: rest') line hd rfl
          · simp only [hcr, ↓reduceIte]
            exact ih (b' :: rest').length (by simp) (b' :: rest') _ hd rfl
      · rw [Bool.not_eq_true] at hb
        have hdrop : (b :: rest).dropWhile isspace = b :: rest := by simp [hb]
        simp only [hb, Bool.not_false, ↓reduceIte, hdrop]
        exact ⟨line, rfl⟩

theorem skipwsLoop_end (rest : List UInt8) {left : Int} (line : Int) (hleft : left ≤ 0) :
    skipwsLoop rest left line = (false, rest, left, line) := by
  rw [skipwsLoop.eq_def]
  cases rest with
  | nil => simp only [show ¬ left > 0 by omega, decide_false]
  | cons b rest => simp only [hleft, ↓reduceIte]

/-- A carriage return at the end of the text and a line feed behind it. -/
def CrLf (i ext : List UInt8) : Prop := i.getLast? = some (ch '\r') ∧ ext.headD 0 = ch '\n'

theorem crLf_cons {b : UInt8} {rest : List UInt8} (ext : List UInt8) (hb : b = ch '\r' → rest ≠ []) :
    CrLf (b :: rest) ext ↔ CrLf rest ext := by
  unfold CrLf
  cases rest with
  | nil =>
    have hcr : b ≠ ch '\r' := fun h => hb h rfl
    simp [hcr]
  | cons c rest => rw [List.getLast?_cons_cons]

/-- On white space the loop runs to the end, or one byte further where a line feed follows a carriage
return. -/
theorem skipwsLoop_space (i ext : List UInt8) (line : Int) (hi : Space i) :
    ∃ rest left line', skipwsLoop (i ++ ext) i.length line = (false, rest, left, line') ∧
      (CrLf i ext ∧ left = -1 ∧ rest = ext.drop 1 ∨ ¬ CrLf i ext ∧ left = 0 ∧ rest = ext) := by
  induction hn : i.length using Nat.strong_induction_on generalizing i line with
  | _ n ih =>
    subst hn
    match i with
    | [] =>
      refine ⟨ext, 0, line, skipwsLoop_end _ _ (Int.le_refl 0), .inr ⟨?_, rfl, rfl⟩⟩
      rintro ⟨h, -⟩
      cases h
    | b :: rest =>
      have hb : isspace b = true := hi b List.mem_cons_self
      have hrest : Space rest := fun c hc => hi c (List.mem_cons_of_mem b hc)
      rw [List.cons_append, skipwsLoop.eq_def]
      have hpos : ¬ ((b :: rest).length : Int) ≤ 0 := by simp
      have hlen : ((b :: rest).length : Int) - 1 = rest.length := by simp
      simp only [if_neg hpos, hb, Bool.not_true, Bool.false_eq_true, ↓reduceIte, hlen]
      by_cases hcr : b = ch '\r'
      · simp only [hcr, ↓reduceIte]
        match rest with
        | [] =>
          -- the byte behind the carriage return is not in the text
          cases ext with
          | nil =>
            refine ⟨[], 0, line, skipwsLoop_end _ _ (Int.le_refl 0), .inr ⟨?_, rfl, rfl⟩⟩
            rintro ⟨-, h⟩
            exact absurd h (by decide)
          | cons c ext =>
            by_cases hlf : c = ch '\n'
            · simp only [List.nil_append, hlf, ↓reduceIte]
              exact ⟨_, _, _, skipwsLoop_end _ _ (by simp), .inl ⟨⟨rfl, rfl⟩, by simp, rfl⟩⟩
            · simp only [List.nil_append, hlf, ↓reduceIte]
              exact ⟨_, _, _, skipwsLoop_end _ _ (by simp), .inr ⟨fun h => hlf h.2, by simp, rfl⟩⟩
        | b' :: rest' =>
          by_cases hlf : b' = ch '\n'
          · have hlen2 : (([ch '\r', ch '\n'] ++ rest').length : Int) - 2 = rest'.length := by simp; omega
            have hrest' : Space rest' := fun c hc => hrest c (List.mem_cons_of_mem b' hc)
            obtain ⟨r, left, line', h, hend⟩ :=
              ih rest'.length (by simp only [List.length_cons]; omega) rest' (line + 1) hrest' rfl
            have hne : ch '\n' ≠ ch '\r' := by decide
            refine ⟨r, left, line', ?_, ?_⟩
            · simp only [List.cons_append, hlf, ↓reduceIte]
              rw [← h]
              exact congrArg (skipwsLoop (rest' ++ ext) · (line + 1)) hlen2
            · rwa [hlf, crLf_cons ext (fun _ => List.cons_ne_nil _ _), crLf_cons ext (fun h => absurd h hne)]
          · obtain ⟨r, left, line', h, hend⟩ := ih (b' :: rest').length (by simp) (b' :: rest') line hrest rfl
            refine ⟨r, left, line', ?_, ?_⟩
            · simp only [List.cons_append, hlf, ↓reduceIte]
              exact h
            · rwa [crLf_cons ext (fun _ => List.cons_ne_nil _ _)]
      · simp only [hcr, ↓reduceIte]
        rw [crLf_cons ext (fun h => absurd h hcr)]
        exact ih rest.length (by simp) rest _ hrest rfl

theorem dropWhile_space {w i : List UInt8} (hw : Space w) (hi : isspace (i.headD 0) = false) :
    (w ++ i).dropWhile isspace = i := by
  rw [List.dropWhile_append_of_pos hw]
  cases i with
  | nil => rfl
  | cons b i => exact List.dropWhile_cons_of_neg (by simpa using hi)

theorem skipws_found {s : JState} {w i ext : List UInt8} (hs : s.At (w ++ i) ext) (hw : Space w)
    (hi : isspace (i.headD 0) = false) (hne : i ≠ []) :
    ∃ s', ipclJsonSkipws s = some (.ok () s') ∧ s'.At i ext := by
  have hd := dropWhile_space hw hi
  obtain ⟨line', h⟩ := skipwsLoop_found (w ++ i) ext s.line (by rwa [hd])
  rw [hd] at h
  refine ⟨{ s with rest := i ++ ext, left := i.length, line := line' }, ?_, rfl, rfl, hs.ctx_in.nonneg,
    hs.ctx_in.le_length⟩
  unfold ipclJsonSkipws
  simp only [hs.rest_eq, hs.left_eq, h, ↓reduceIte]

theorem skipws_space {s : JState} {i ext : List UInt8} (hs : s.At i ext) (hi : Space i) :
    ∃ f s', ipclJsonSkipws s = some (.fail f s') ∧ s'.CtxIn ∧
      (CrLf i ext ∧ s'.left = -1 ∧ s'.rest = ext.drop 1 ∨ ¬ CrLf i ext ∧ s'.left = 0 ∧ s'.rest = ext) := by
  obtain ⟨rest, left, line', h, hend⟩ := skipwsLoop_space i ext s.line hi
  have hrun : ipclJsonSkipws s = JM.throw [txt "unexpected end of input"]
      { s with rest := rest, left := left, line := line' } := by
    unfold ipclJsonSkipws
    simp only [hs.rest_eq, hs.left_eq, h, Bool.false_eq_true, ↓reduceIte]
  exact ⟨_, _, hrun, ⟨hs.ctx_in.nonneg, hs.ctx_in.le_length⟩, hend⟩

theorem Reads.skipws {w i : List UInt8} (hw : Space w) (hi : isspace (i.headD 0) = false) (hne : i ≠ []) :
    Reads ipclJsonSkipws (w ++ i) () i := fun _ _ hs => skipws_found hs hw hi hne

theorem Reads.skipws_cons {w r : List UInt8} {c : UInt8} (hw : Space w) (hc : isspace c = false) :
    Reads ipclJsonSkipws (w ++ c :: r) () (c :: r) := .skipws hw hc (List.cons_ne_nil _ _)

theorem Reads.ignore_skipws {w i : List UInt8} (hw : Space w) (hi : isspace (i.headD 0) = false) (hne : i ≠ []) :
    Reads (JM.ignore ipclJsonSkipws) (w ++ i) () i := by
  intro ext s hs
  obtain ⟨s', h, hs'⟩ := skipws_found hs hw hi hne
  refine ⟨s', ?_, hs'⟩
  unfold JM.ignore
  rw [h]

theorem StopsAtEnd.skipws : StopsAtEnd ipclJsonSkipws := by
  intro s hs
  unfold ipclJsonSkipws
  simp only [skipwsLoop_end _ _ hs, Bool.false_eq_true, ↓reduceIte]
  exact ⟨_, _, rfl, rfl, rfl⟩

/-- White space is followed by a byte that is none, or there is no byte left. -/
theorem space_cases (i : List UInt8) :
    (∃ w j, i = w ++ j ∧ Space w ∧ j ≠ [] ∧ isspace (j.headD 0) = false) ∨ Space i := by
  by_cases hd : i.dropWhile isspace = []
  · exact .inr (List.dropWhile_eq_nil_iff.1 hd)
  · refine .inl ⟨i.takeWhile isspace, i.dropWhile isspace, List.takeWhile_append_dropWhile.symm,
      fun b hb => List.mem_takeWhile_imp hb, hd, ?_⟩
    obtain ⟨b, t, hbt⟩ := List.exists_cons_of_ne_nil hd
    have hh := List.head_dropWhile_not isspace hd
    simp only [hbt, List.head_cons] at hh
    rw [hbt]
    exact hh

theorem FailsWhen.skipws {i : List UInt8} (hi : Space i) : Fails ipclJsonSkipws i := by
  intro ext s hs _
  obtain ⟨f, s', h, hctx, -⟩ := skipws_space hs hi
  exact ⟨f, s', h, hctx⟩

end Pcl

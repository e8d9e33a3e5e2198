import Pcl.Buf.Run

/-!
# Puts that fit an `int`

A buffer that is appended to doubles its block from where a put did not fit. A `Fill` is its position with the size of
its block; puts fit (`Fill.Fits`) where none of them leaves `int`. `PutsFit` says so of puts of given lengths.
-/

namespace Pcl

/-- Where a buffer that is appended to stands. -/
structure Fill where
  pos : Nat
  size : Nat

/-- The room a put asks for, and the characters it writes. -/
structure Put where
  room : Nat
  chars : Nat

/-- A put of some characters, with room for a NUL. -/
def Put.block (k : Nat) : Put := ⟨k + 1, k⟩

/-- The number of characters that puts write. -/
def Put.total (ps : List Put) : Nat := (ps.map Put.chars).sum

namespace Fill
variable {f : Fill} {p : Put} {ps qs : List Put}

/-- The put does not leave `int`. -/
def Takes (f : Fill) (p : Put) : Prop := f.size < 2 ^ 31 ∧ f.pos + p.chars < 2 ^ 31 ∧ p.room < 2 ^ 31

instance (f : Fill) (p : Put) : Decidable (f.Takes p) := inferInstanceAs (Decidable (_ ∧ _))

/-- The block after a put. -/
def add (f : Fill) (p : Put) : Fill :=
  ⟨f.pos + p.chars, if f.size ≤ f.pos + p.room then 2 * (f.pos + p.room) else f.size⟩

def after (f : Fill) (ps : List Put) : Fill := ps.foldl add f

/-- None of the puts leaves `int`. -/
def Fits : Fill → List Put → Prop
  | _, [] => True
  | f, p :: ps => f.Takes p ∧ (f.add p).Fits ps

instance decidableFits : (f : Fill) → (ps : List Put) → Decidable (f.Fits ps)
  | _, [] => isTrue trivial
  | f, p :: ps =>
    have := decidableFits (f.add p) ps
    inferInstanceAs (Decidable (f.Takes p ∧ (f.add p).Fits ps))

theorem fits_cons : f.Fits (p :: ps) ↔ f.Takes p ∧ (f.add p).Fits ps := Iff.rfl

theorem fits_singleton : f.Fits [p] ↔ f.Takes p := iff_of_eq (and_true _)

theorem after_append : f.after (ps ++ qs) = (f.after ps).after qs := List.foldl_append

theorem fits_append : f.Fits (ps ++ qs) ↔ f.Fits ps ∧ (f.after ps).Fits qs := by
  induction ps generalizing f with
  | nil => exact (iff_of_eq (true_and _)).symm
  | cons p ps ih =>
    rw [List.cons_append, fits_cons, fits_cons, ih, and_assoc]
    rfl

/-- Puts that fit write less than 2 ^ 31 characters. -/
theorem Fits.total_lt (h : f.Fits ps) : ps = [] ∨ f.pos + Put.total ps < 2 ^ 31 := by
  induction ps generalizing f with
  | nil => exact .inl rfl
  | cons p ps ih =>
    obtain ⟨⟨-, hpos, -⟩, hps⟩ := h
    have hsum : Put.total (p :: ps) = p.chars + Put.total ps := List.sum_cons
    rw [hsum]
    rcases ih hps with rfl | hlt
    · exact .inr hpos
    · have hadd : (f.add p).pos = f.pos + p.chars := rfl
      exact .inr (by omega)

/-- Puts of less than 2 ^ 29 characters fit, where each asks for room for four more at most. -/
theorem fits_small (hroom : ∀ p ∈ ps, p.room ≤ p.chars + 4) : ∀ {f : Fill}, f.size ≤ max 256 (2 * (f.pos + 4)) →
    f.pos + Put.total ps < 2 ^ 29 → f.Fits ps := by
  induction ps with
  | nil => exact fun _ _ => trivial
  | cons p ps ih =>
    intro f hsize hsum
    obtain ⟨hp, hps⟩ := List.forall_mem_cons.1 hroom
    have hcons : Put.total (p :: ps) = p.chars + Put.total ps := List.sum_cons
    have hadd : (f.add p).pos = f.pos + p.chars := rfl
    refine ⟨⟨by omega, by omega, by omega⟩, ih hps ?_ (by omega)⟩
    show (if f.size ≤ f.pos + p.room then 2 * (f.pos + p.room) else f.size) ≤ _
    split <;> omega

end Fill

/-- The characters that are put into a buffer of the given size fit an `int`, and so do the sizes it grows to in between. -/
def PutsFit : Nat → Nat → List Nat → Prop
  | _, _, [] => True
  | pos, size, k :: ks =>
    if k = 0 then PutsFit pos size ks
    else size < 2 ^ 31 ∧ pos + k < 2 ^ 31 ∧ k + 1 < 2 ^ 31 ∧
      PutsFit (pos + k) (if size ≤ pos + k + 1 then 2 * (pos + k + 1) else size) ks

/-- An empty put writes nothing, the others ask for room for a NUL. -/
theorem putsFit_iff {ks : List Nat} : ∀ {pos size : Nat},
    PutsFit pos size ks ↔ Fill.Fits ⟨pos, size⟩ ((ks.filter (· ≠ 0)).map Put.block) := by
  induction ks with
  | nil => exact Iff.rfl
  | cons k ks ih =>
    intro pos size
    by_cases hk : k = 0
    · rw [PutsFit, if_pos hk, List.filter_cons_of_neg (by simpa using hk), ih]
    · rw [PutsFit, if_neg hk, List.filter_cons_of_pos (by simpa using hk), List.map_cons, Fill.fits_cons, ih]
      constructor
      · rintro ⟨hsize, hpos, hroom, hks⟩
        exact ⟨⟨hsize, hpos, hroom⟩, hks⟩
      · rintro ⟨⟨hsize, hpos, hroom⟩, hks⟩
        exact ⟨hsize, hpos, hroom, hks⟩

theorem total_blocks (ks : List Nat) : Put.total ((ks.filter (· ≠ 0)).map Put.block) = ks.sum := by
  induction ks with
  | nil => rfl
  | cons k ks ih =>
    by_cases hk : k = 0
    · rw [List.filter_cons_of_neg (by simpa using hk), ih, List.sum_cons, hk, Nat.zero_add]
    · rw [List.filter_cons_of_pos (by simpa using hk), List.sum_cons, ← ih]
      exact List.sum_cons

/-- Fewer than 2 ^ 29 characters fit. -/
theorem putsFit_small {ks : List Nat} {pos size : Nat} (hsize : size ≤ max 64 (2 * (pos + 1)))
    (hsum : pos + ks.sum < 2 ^ 29) : PutsFit pos size ks := by
  refine putsFit_iff.2 (Fill.fits_small ?_ ?_ ?_)
  · intro p hp
    obtain ⟨k, -, rfl⟩ := List.mem_map.1 hp
    exact Nat.add_le_add_left (by decide) k
  · show size ≤ max 256 (2 * (pos + 4))
    omega
  · rwa [total_blocks]

theorem putsFit_sum {ks : List Nat} {pos size : Nat} (h : PutsFit pos size ks) : pos + ks.sum < 2 ^ 31 ∨ ks.sum = 0 := by
  have htotal := total_blocks ks
  rcases (putsFit_iff.1 h).total_lt with hnil | hlt
  · rw [hnil] at htotal
    exact .inr htotal.symm
  · rw [htotal] at hlt
    exact .inl hlt

/-! ### The operations of a buffer -/

variable {b b' : Buf UInt8} {bs data : List UInt8} {t : Bool} {e : ErrState}

/-- The position of a buffer and the size of its block. -/
def Buf.fill (b : Buf UInt8) : Fill := ⟨b.pos, b.size⟩

theorem bufGrow_size {χ : Type} (b : Buf χ) (len : Nat) :
    (bufGrow b len).size = if b.size ≤ b.pos + len then 2 * (b.pos + len) else b.size := by
  unfold bufGrow
  by_cases hlen : b.size ≤ b.pos + len
  · have hge : (len : Int) ≥ (b.size : Int) - b.pos := by omega
    simp only [if_pos hlen, if_pos hge]
    omega
  · have hlt : ¬ (len : Int) ≥ (b.size : Int) - b.pos := by omega
    simp only [if_neg hlen, if_neg hlt]

theorem bufPut_size {r : Int} {e e' : ErrState} (hdata : data ≠ []) (h : bufPut b data e = some ((r, b'), e')) :
    b'.size = (bufGrow b (data.length + 1)).size := by
  have hlen : data.length ≠ 0 := fun h0 => hdata (List.eq_nil_of_length_eq_zero h0)
  unfold bufPut at h
  simp only [if_neg hlen] at h
  generalize ((storeAt (bufGrow b (data.length + 1)).data (bufGrow b (data.length + 1)).pos data).bind fun block =>
    storeAt block ((bufGrow b (data.length + 1)).pos + data.length) [0]) = block at h
  cases block with
  | none => cases h
  | some block =>
    cases h
    rfl

/-- The arithmetic of a put inside the block stays within `int`. -/
theorem putInts_inInt {k : Nat} (hpos : b.pos ≤ b.size) (hk : k ≠ 0) : (∀ x ∈ putInts b k, InInt x) ↔
    b.size < 2 ^ 31 ∧ b.pos + k < 2 ^ 31 ∧ k + 1 < 2 ^ 31 := by
  have hchr : BufChar.chrsize UInt8 = 1 := rfl
  unfold putInts growInts InInt intMin intMax
  rw [if_neg hk]
  simp only [hchr, List.forall_mem_append, List.forall_mem_cons]
  constructor
  · rintro ⟨⟨⟨-, hk, -⟩, ⟨hsize, -⟩, -⟩, -, -, hsum, -⟩
    omega
  · rintro ⟨hsize, hsum, hk⟩
    refine ⟨⟨⟨by omega, by omega, List.forall_mem_nil _⟩, ⟨by omega, by omega, List.forall_mem_nil _⟩, ?_⟩,
      by omega, by omega, by omega, by omega, List.forall_mem_nil _⟩
    split
    · rw [List.forall_mem_singleton]
      omega
    · exact List.forall_mem_nil _

theorem putInts_fit (h : b.Holds bs t) (hdata : data ≠ []) : (∀ x ∈ putInts b data.length, InInt x) ↔
    b.size < 2 ^ 31 ∧ bs.length + data.length < 2 ^ 31 ∧ data.length + 1 < 2 ^ 31 := by
  have hpos := h.pos_eq
  have hlt := h.lt_size
  rw [putInts_inInt (by omega) (Nat.ne_of_gt (List.length_pos_iff.2 hdata)), hpos]

theorem vputfInts_inInt (hmode : b.mode = .text) (hpos : b.pos ≤ b.size) : (∀ x ∈ vputfInts b (.ok data), InInt x) ↔
    b.size < 2 ^ 31 ∧ b.pos + data.length < 2 ^ 31 := by
  have hchr : BufChar.chrsize UInt8 = 1 := rfl
  have hchars : Buf.Repr.strChars .text data = data := rfl
  unfold vputfInts growInts InInt intMin intMax
  simp only [hmode, hchars, hchr, List.forall_mem_append, List.forall_mem_cons]
  constructor
  · rintro ⟨⟨-, ⟨hsize, -⟩, -⟩, hsum, -⟩
    omega
  · rintro ⟨hsize, hsum⟩
    refine ⟨⟨⟨by omega, by omega, List.forall_mem_nil _⟩, ⟨by omega, by omega, List.forall_mem_nil _⟩, ?_⟩,
      by omega, by omega, by omega, List.forall_mem_nil _⟩
    split
    · rw [List.forall_mem_singleton]
      omega
    · exact List.forall_mem_nil _

theorem bufPutf_size {r : Int} {e' : ErrState} (hb : b.Holds bs t) (hmode : b.mode = .text)
    (h : bufPutf b data e = some ((r, b'), e')) :
    b'.size = (bufGrow b data.length).size := by
  have hgrow : (bufGrow b data.length).mode = .text := (hb.grow data.length).2.2.trans hmode
  unfold bufPutf at h
  simp only [hmode, hgrow, reduceCtorEq, if_false] at h
  generalize ((storeAt (bufGrow b data.length).data (bufGrow b data.length).pos (data ++ [0])).bind fun block =>
    storeAt block ((bufGrow b data.length).pos + data.length) [0]) = block at h
  cases block with
  | none => cases h
  | some block =>
    cases h
    rfl

/-- `x` appends `s` to the buffer with `ps`, and has no defined result where these do not fit. -/
def Appends (x : ErrM (Buf UInt8)) (b : Buf UInt8) (bs : List UInt8) (ps : List Put) (s : List UInt8) (e : ErrState) : Prop :=
  (b.fill.Fits ps ∧ ∃ b', x e = some (b', e) ∧ b'.Holds (bs ++ s) true ∧ b'.mode = b.mode ∧ b'.fill = b.fill.after ps) ∨
    (¬ b.fill.Fits ps ∧ x e = none)

/-- The rule for one operation, by its arithmetic and what it does to the buffer. -/
theorem BufOp.appends {op : BufOp UInt8} {p : Put} (h : b.Holds bs t)
    (hints : (∀ x ∈ op.ints b, InInt x) ↔ b.fill.Takes p) (hp : p.chars = data.length) (hrun : ∃ b', op.run b e = some (b', e) ∧ b'.Holds (bs ++ data) true ∧ b'.mode = b.mode ∧
      b'.size = (bufGrow b p.room).size) : Appends (op.exec b) b bs [p] data e := by
  by_cases htakes : b.fill.Takes p
  · obtain ⟨b', hrun, hb', hmode, hsize⟩ := hrun
    refine .inl ⟨Fill.fits_singleton.2 htakes, b', ?_, hb', hmode, ?_⟩
    · rw [BufOp.exec, if_pos (hints.2 htakes), hrun]
    · have hpos := hb'.pos_eq
      rw [List.length_append, ← h.pos_eq, ← hp] at hpos
      rw [bufGrow_size] at hsize
      show Fill.mk b'.pos b'.size = _
      rw [hpos, hsize]
      rfl
  · refine .inr ⟨fun hfits => htakes (Fill.fits_singleton.1 hfits), ?_⟩
    rw [BufOp.exec, if_neg fun hall => htakes (hints.1 hall)]
    rfl

theorem put_takes {k : Nat} (h : b.Holds bs t) (hk : k ≠ 0) :
    (∀ x ∈ putInts b k, InInt x) ↔ b.fill.Takes (.block k) := by
  have hpos := h.pos_eq
  have hlt := h.lt_size
  exact putInts_inInt (by omega) hk

theorem bufPutchar_appends (h : b.Holds bs t) (c : UInt8) (e : ErrState) :
    Appends (BufOp.exec b (.putchar c)) b bs [.block 1] [c] e := by
  obtain ⟨b', hrun, hb', hmode⟩ := h.putchar c e
  have htakes : (∀ x ∈ (BufOp.putchar c).ints b, InInt x) ↔ b.fill.Takes (.block 1) := put_takes h Nat.one_ne_zero
  refine BufOp.appends h htakes rfl ⟨b', ?_, hb', hmode, bufPut_size (List.cons_ne_nil c []) hrun⟩
  rw [BufOp.run, ErrM.bind_run, hrun]
  rfl

theorem bufPutstr_appends (h : b.Holds bs t) (hmode : b.mode = .text) (hdata : data ≠ []) (e : ErrState) :
    Appends (BufOp.exec b (.putstr data)) b bs [.block data.length] data e := by
  obtain ⟨b', hrun, hb', hmode'⟩ := h.putstr hmode hdata e
  have hlen : data.length ≠ 0 := fun h0 => hdata (List.eq_nil_of_length_eq_zero h0)
  have hput : bufPutstr b data = bufPut b data := by
    unfold bufPutstr
    rw [hmode, if_neg (by decide)]
  refine BufOp.appends h ?_ rfl ⟨b', ?_, hb', hmode', bufPut_size hdata (hput ▸ hrun)⟩
  · have hchars : Buf.Repr.strChars b.mode data = data := by
      rw [hmode]
      rfl
    show (∀ x ∈ putstrInts b data, InInt x) ↔ _
    unfold putstrInts
    rw [hchars, List.singleton_append, List.forall_mem_cons, put_takes h hlen, and_iff_right_of_imp]
    rintro ⟨-, -, hroom⟩
    have hroom' : data.length + 1 < 2 ^ 31 := hroom
    unfold InInt intMin intMax
    omega
  · rw [BufOp.run, ErrM.bind_run, hrun]
    rfl

theorem bufPutf_appends (h : b.Holds bs t) (hmode : b.mode = .text) (data : List UInt8) (e : ErrState) :
    Appends (BufOp.exec b (.putf (.ok data))) b bs [⟨data.length, data.length⟩] data e := by
  obtain ⟨b', hrun, hb', hmode'⟩ := h.putf (s := data) hmode e
  refine BufOp.appends h ?_ rfl ⟨b', ?_, hb', hmode', bufPutf_size h hmode hrun⟩
  · have hpos := h.pos_eq
    have hlt := h.lt_size
    refine (vputfInts_inInt hmode (by omega)).trans ⟨fun hall => ⟨hall.1, hall.2, ?_⟩, fun hall => ⟨hall.1, hall.2.1⟩⟩
    show data.length < 2 ^ 31
    omega
  · rw [BufOp.run, bufVputf, ErrM.bind_run, hrun]
    rfl

end Pcl

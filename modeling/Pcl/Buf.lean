import Pcl.ErrState

/-!
# Character buffers

`src/buf`. The block behind `data` is a list of characters, `none` where nothing was written since it
was allocated; a store outside the block is undefined behaviour. The character type is a parameter, it
stands for `chrsize`.

`Holds b bs t`: the buffer holds the text `bs` and nothing else, and a NUL behind it if `t`.
-/

namespace Pcl

/-- `pcl_buf_mode`. -/
inductive BufMode where
  | binary
  | text
  | textW
deriving DecidableEq

/-- `tag_pcl_buf`. -/
structure Buf (χ : Type) where
  mode : BufMode
  pos : Nat
  len : Nat
  size : Nat
  data : List (Option χ)

variable {χ : Type}

/-- `memcpy` into a block at an offset. -/
def storeAt (block : List (Option χ)) (pos : Nat) (s : List χ) : Option (List (Option χ)) :=
  if pos + s.length ≤ block.length then
    some (block.take pos ++ s.map some ++ block.drop (pos + s.length))
  else none

theorem storeAt_append (pre old : List (Option χ)) (s : List χ) (hs : s.length ≤ old.length) :
    storeAt (pre ++ old) pre.length s = some (pre ++ s.map some ++ old.drop s.length) := by
  unfold storeAt
  rw [if_pos (by simpa using hs), List.take_left, List.drop_length_add_append]

variable [Zero χ]

/-- `pcl_buf_init` with one of the modes. -/
def bufInit (size : Nat) (mode : BufMode) : Buf χ where
  mode := mode
  pos := 0
  len := 0
  size := size
  data := if size = 0 then [] else some 0 :: List.replicate (size - 1) none

/-- `pcl_buf_grow`. -/
def bufGrow (b : Buf χ) (len : Nat) : Buf χ :=
  let avail : Int := b.size - b.pos
  if len ≥ avail then
    let size := ((b.size + (len - avail)) * 2).toNat
    { b with size := size, data := b.data ++ List.replicate (size - b.size) none }
  else b

/-- `pcl_buf_put`. -/
def bufPut (b : Buf χ) (data : List χ) : ErrM (Int × Buf χ) :=
  let len := data.length
  if len = 0 then do
    let r ← badArg (loc "buf_put.c" "pcl_buf_put" 39)
    return (r, b)
  else
    let b := bufGrow b (len + 1)
    -- always NUL terminate, just not added to len
    match (storeAt b.data b.pos data).bind fun block => storeAt block (b.pos + len) [0] with
    | none => ErrM.undef
    | some block => return (len, { b with data := block, pos := b.pos + len, len := max b.len (b.pos + len) })

/-- `pcl_buf_putchar`. -/
def bufPutchar (b : Buf χ) (c : χ) : ErrM (Int × Buf χ) := bufPut b [c]

/-- `pcl_buf_putstr`; a string in binary mode is written with its NUL. -/
def bufPutstr (b : Buf χ) (s : List χ) : ErrM (Int × Buf χ) :=
  bufPut b (if b.mode = .binary then s ++ [0] else s)

/-- `pcl_buf_vputf`; `s` is the formatted text. -/
def bufPutf (b : Buf χ) (s : List χ) : ErrM (Int × Buf χ) :=
  let len := s.length
  let b := bufGrow b (if b.mode = .binary then len + 1 else len)
  let n := if b.mode = .binary then len + 1 else len
  match (storeAt b.data b.pos (s ++ [0])).bind fun block => storeAt block (b.pos + n) [0] with
  | none => ErrM.undef
  | some block => pure (n, { b with data := block, pos := b.pos + n, len := max b.len (b.pos + n) })

/-- Characters that were all written are read. -/
theorem mapM_map_some {α : Type} (l : List α) : (l.map some).mapM id = some l := by
  induction l with
  | nil => rfl
  | cons a l ih =>
    rw [List.map_cons, List.mapM_cons, ih]
    rfl

/-- The buffer holds `bs`, its position is at the end, and what follows was never written but for the
NUL that is there if `terminated`. -/
structure Buf.Holds (b : Buf χ) (bs : List χ) (terminated : Bool) : Prop where
  pos_eq : b.pos = bs.length
  len_eq : b.len = bs.length
  size_eq : b.data.length = b.size
  lt_size : bs.length < b.size
  data_eq : ∃ k, b.data = bs.map some ++ ((if terminated then [some 0] else []) ++ List.replicate k none)

namespace Buf.Holds
variable {b : Buf χ} {bs s : List χ} {t : Bool}

theorem init {size : Nat} (hs : 0 < size) (mode : BufMode) : (bufInit size mode : Buf χ).Holds [] true := by
  have h0 : size ≠ 0 := by omega
  refine ⟨rfl, rfl, ?_, hs, size - 1, ?_⟩
  · simp only [bufInit, h0, ↓reduceIte, List.length_cons, List.length_replicate]
    omega
  · simp [bufInit, h0]

/-- Growing makes room and writes nothing. -/
theorem grow (h : b.Holds bs t) (len : Nat) :
    (bufGrow b len).Holds bs t ∧ bs.length + len < (bufGrow b len).size ∧ (bufGrow b len).mode = b.mode := by
  have hpos := h.pos_eq
  have hlt := h.lt_size
  obtain ⟨k, hk⟩ := h.data_eq
  by_cases hg : (len : Int) ≥ (b.size : Int) - b.pos
  · have hsize : b.size ≤ ((b.size + ((len : Int) - (b.size - b.pos))) * 2).toNat := by omega
    have hroom : bs.length + len < ((b.size + ((len : Int) - (b.size - b.pos))) * 2).toNat := by omega
    have heq : bufGrow b len = { b with
        size := ((b.size + ((len : Int) - (b.size - b.pos))) * 2).toNat
        data := b.data ++ List.replicate (((b.size + ((len : Int) - (b.size - b.pos))) * 2).toNat - b.size) none } := by
      unfold bufGrow
      rw [if_pos hg]
    rw [heq]
    refine ⟨⟨hpos, h.len_eq, ?_, (Nat.le_add_right _ _).trans_lt hroom,
      k + (((b.size + ((len : Int) - (b.size - b.pos))) * 2).toNat - b.size), ?_⟩, hroom, rfl⟩
    · rw [List.length_append, List.length_replicate, h.size_eq]
      exact Nat.add_sub_cancel' hsize
    · rw [hk, ← List.replicate_append_replicate, List.append_assoc, List.append_assoc]
  · have heq : bufGrow b len = b := by
      unfold bufGrow
      rw [if_neg hg]
    rw [heq]
    exact ⟨h, by omega, rfl⟩

/-- A store at the end of the text, that fits into the block. -/
theorem store (h : b.Holds bs t) (hs : s ≠ []) (hfit : bs.length + s.length ≤ b.size) :
    ∃ k, storeAt b.data b.pos s = some ((bs ++ s).map some ++ List.replicate k none) ∧
      bs.length + s.length + k = b.size := by
  obtain ⟨k, hk⟩ := h.data_eq
  have hlen := h.size_eq
  obtain ⟨c, s', rfl⟩ : ∃ c s', s = c :: s' := List.exists_cons_of_ne_nil hs
  rw [hk, List.length_append, List.length_map] at hlen
  have hpos : b.pos = (bs.map some).length := by rw [List.length_map, h.pos_eq]
  rw [hk, hpos, storeAt_append _ _ _ (by omega)]
  -- the terminator, if there is one, is the first character written over
  cases t with
  | true =>
    simp only [↓reduceIte, List.length_append, List.length_cons, List.length_nil, List.length_replicate] at hlen hfit
    refine ⟨k - s'.length, by simp, ?_⟩
    simp only [List.length_cons]
    omega
  | false =>
    simp only [Bool.false_eq_true, ↓reduceIte, List.nil_append, List.length_replicate, List.length_cons] at hlen hfit
    refine ⟨k - (s'.length + 1), by simp, ?_⟩
    simp only [List.length_cons]
    omega

theorem terminate {block : List (Option χ)} {size k : Nat} {x : Option χ}
    (hblock : block = bs.map some ++ x :: List.replicate k none) (hsize : bs.length + (k + 1) = size) (mode : BufMode) :
    ∃ block', storeAt block bs.length [0] = some block' ∧
      Buf.Holds ⟨mode, bs.length, bs.length, size, block'⟩ bs true := by
  have hst := storeAt_append (bs.map some) (x :: List.replicate k none) [(0 : χ)] (by simp)
  rw [List.length_map] at hst
  rw [hblock, hst]
  refine ⟨_, rfl, rfl, rfl, ?_, ?_, k, ?_⟩
  · simp
    omega
  · show bs.length < size
    omega
  · simp

theorem put (h : b.Holds bs t) (hs : s ≠ []) (e : ErrState) :
    ∃ b', bufPut b s e = some (((s.length : Int), b'), e) ∧ b'.Holds (bs ++ s) true ∧ b'.mode = b.mode := by
  obtain ⟨hg, hroom, hmode⟩ := h.grow (s.length + 1)
  obtain ⟨k, hst, hk⟩ := hg.store hs (by omega)
  obtain ⟨j, rfl⟩ : ∃ j, k = j + 1 := ⟨k - 1, by omega⟩
  have hsize : (bs ++ s).length + (j + 1) = (bufGrow b (s.length + 1)).size := by
    rw [List.length_append]
    exact hk
  obtain ⟨block', hst', hb'⟩ := terminate (rfl : (bs ++ s).map some ++ List.replicate (j + 1) none = _) hsize b.mode
  have hne : s.length ≠ 0 := fun h0 => hs (List.eq_nil_of_length_eq_zero h0)
  refine ⟨_, ?_, hb', rfl⟩
  unfold bufPut
  rw [if_neg hne]
  simp only [hst, Option.bind_some]
  rw [hg.pos_eq, ← List.length_append, hst', hg.len_eq, List.length_append, Nat.max_eq_right (Nat.le_add_right _ _), hmode]
  rfl

theorem putchar (h : b.Holds bs t) (c : χ) (e : ErrState) :
    ∃ b', bufPutchar b c e = some ((1, b'), e) ∧ b'.Holds (bs ++ [c]) true ∧ b'.mode = b.mode :=
  h.put (List.cons_ne_nil c []) e

theorem putstr (h : b.Holds bs t) (hmode : b.mode = .text) (hs : s ≠ []) (e : ErrState) :
    ∃ b', bufPutstr b s e = some (((s.length : Int), b'), e) ∧ b'.Holds (bs ++ s) true ∧ b'.mode = b.mode := by
  unfold bufPutstr
  rw [hmode, if_neg (by decide)]
  exact hmode ▸ h.put hs e

theorem putf (h : b.Holds bs t) (hmode : b.mode = .text) (e : ErrState) :
    ∃ b', bufPutf b s e = some (((s.length : Int), b'), e) ∧ b'.Holds (bs ++ s) true ∧ b'.mode = b.mode := by
  obtain ⟨hg, hroom, hgm⟩ := h.grow s.length
  have hgt : (bufGrow b s.length).mode = .text := hgm.trans hmode
  obtain ⟨k, hst, hk⟩ := hg.store (List.append_ne_nil_of_right_ne_nil s (List.cons_ne_nil (0 : χ) []))
    (by simp only [List.length_append, List.length_cons, List.length_nil]; omega)
  have hsize : (bs ++ s).length + (k + 1) = (bufGrow b s.length).size := by
    simp only [List.length_append, List.length_cons, List.length_nil] at hk ⊢
    omega
  -- `vsnprintf` has written a NUL already
  have hblock : (bs ++ (s ++ [0])).map some ++ List.replicate k none =
      (bs ++ s).map some ++ some 0 :: List.replicate k none := by simp
  obtain ⟨block', hst', hb'⟩ := terminate hblock hsize b.mode
  refine ⟨_, ?_, hb', rfl⟩
  unfold bufPutf
  simp only [hmode, hgt, reduceCtorEq, ↓reduceIte, hst, Option.bind_some]
  rw [hg.pos_eq, ← List.length_append, hst', hg.len_eq, List.length_append, Nat.max_eq_right (Nat.le_add_right _ _)]
  rfl

theorem text (h : b.Holds bs t) : (b.data.take b.len).mapM id = some bs := by
  obtain ⟨k, hk⟩ := h.data_eq
  have hlen : b.len = (bs.map some).length := by rw [List.length_map, h.len_eq]
  rw [hk, hlen, List.take_left, mapM_map_some]

theorem copy (h : b.Holds bs true) : (b.data.take (b.len + 1)).mapM id = some (bs ++ [0]) := by
  obtain ⟨k, hk⟩ := h.data_eq
  have hdata : b.data = (bs ++ [0]).map some ++ List.replicate k none := by simp [hk]
  have hlen : b.len + 1 = ((bs ++ [0]).map some).length := by simp [h.len_eq]
  rw [hdata, hlen, List.take_left, mapM_map_some]

end Buf.Holds
end Pcl

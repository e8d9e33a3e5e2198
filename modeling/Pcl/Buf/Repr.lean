import Pcl.Buf

/-!
# What a buffer holds

`Repr b text t`: the buffer's characters are `text`, the position is somewhere in it, and a NUL follows
if `t`. A write at the position replaces characters there, its own NUL among them, and goes on past the
end (`overwrite`). Each operation that writes has one lemma; `Buf.Repr.write` is the store behind them.
-/

namespace Pcl
variable {χ : Type}

theorem storeAt_storeAt (block : List (Option χ)) (pos : Nat) (s u : List χ) :
    ((storeAt block pos s).bind fun block => storeAt block (pos + s.length) u) = storeAt block pos (s ++ u) := by
  unfold storeAt
  by_cases h : pos + s.length ≤ block.length
  · have hlen : (block.take pos ++ s.map some ++ block.drop (pos + s.length)).length = block.length := by
      simp only [List.length_append, List.length_take, List.length_map, List.length_drop]
      omega
    have htake : (block.take pos ++ s.map some ++ block.drop (pos + s.length)).take (pos + s.length) =
        block.take pos ++ s.map some := by
      rw [List.take_left']
      simp only [List.length_append, List.length_take, List.length_map]
      omega
    have hdrop : (block.take pos ++ s.map some ++ block.drop (pos + s.length)).drop (pos + s.length + u.length) =
        block.drop (pos + (s ++ u).length) := by
      have hl : (block.take pos ++ s.map some).length = pos + s.length := by
        simp only [List.length_append, List.length_take, List.length_map]
        omega
      rw [← List.drop_drop, List.drop_left' hl, List.drop_drop, List.length_append, Nat.add_assoc]
    rw [if_pos h, Option.bind_some, hlen, htake, hdrop, List.length_append, ← Nat.add_assoc]
    simp only [List.map_append, List.append_assoc]
  · have h' : ¬ pos + (s ++ u).length ≤ block.length := by
      rw [List.length_append]
      omega
    rw [if_neg h, if_neg h', Option.bind_none]

theorem storeAt_again {block block' : List (Option χ)} {pos : Nat} {s u : List χ}
    (h : storeAt block pos (s ++ u) = some block') : storeAt block' (pos + s.length) u = some block' := by
  unfold storeAt at h
  split at h
  case isFalse => cases h
  case isTrue hle =>
    have hblock : block' = (block.take pos ++ s.map some) ++ (u.map some ++ block.drop (pos + (s ++ u).length)) := by
      rw [← Option.some.inj h]
      simp only [List.map_append, List.append_assoc]
    have hlen : (block.take pos ++ s.map some).length = pos + s.length := by
      rw [List.length_append] at hle
      simp only [List.length_append, List.length_take, List.length_map]
      omega
    rw [hblock, ← hlen, storeAt_append _ _ _ (by simp), List.append_assoc, List.drop_left' (by rw [List.length_map])]

theorem bufGrow_size_le (b : Buf χ) {n m : Nat} (hn : n ≤ m) : (bufGrow b n).size ≤ max b.size (2 * (b.pos + m)) := by
  by_cases hg : (n : Int) ≥ (b.size : Int) - b.pos
  · have heq : (bufGrow b n).size = ((b.size + ((n : Int) - (b.size - b.pos))) * 2).toNat := by
      unfold bufGrow
      rw [if_pos hg]
    omega
  · have heq : (bufGrow b n).size = b.size := by
      unfold bufGrow
      rw [if_neg hg]
    omega

variable [Zero χ]

/-- The characters after `s` was put at `pos`, with its NUL if the text goes on behind it. -/
def overwrite (text : List χ) (pos : Nat) (s : List χ) : List χ :=
  text.take pos ++ s ++ if pos + s.length < text.length then 0 :: text.drop (pos + s.length + 1) else []

theorem overwrite_length {text s : List χ} {pos : Nat} (h : pos ≤ text.length) :
    (overwrite text pos s).length = max text.length (pos + s.length) := by
  unfold overwrite
  split
  · simp only [List.length_append, List.length_take, List.length_cons, List.length_drop]
    omega
  · simp only [List.length_append, List.length_take, List.append_nil]
    omega

structure Buf.Repr (b : Buf χ) (text : List χ) (t : Bool) : Prop where
  pos_le : b.pos ≤ text.length
  len_eq : b.len = text.length
  size_eq : b.data.length = b.size
  data_eq : ∃ rest, b.data = text.map some ++ ((if t then [some 0] else []) ++ rest)

namespace Buf.Repr
variable {b : Buf χ} {text s : List χ} {t : Bool}

theorem init {size : Nat} (hs : 0 < size) (mode : BufMode) : (bufInit size mode : Buf χ).Repr [] true := by
  have h0 : size ≠ 0 := by omega
  refine ⟨Nat.le_refl _, rfl, ?_, List.replicate (size - 1) none, ?_⟩
  · simp only [bufInit, h0, ↓reduceIte, List.length_cons, List.length_replicate]
    omega
  · simp [bufInit, h0]

theorem lt_size (h : b.Repr text true) : text.length < b.size := by
  obtain ⟨rest, hdata⟩ := h.data_eq
  have hsize := h.size_eq
  rw [hdata] at hsize
  simp only [↓reduceIte, List.length_append, List.length_map, List.length_cons, List.length_nil] at hsize
  omega

theorem le_size (h : b.Repr text t) : text.length ≤ b.size := by
  obtain ⟨rest, hdata⟩ := h.data_eq
  rw [← h.size_eq, hdata, List.length_append, List.length_map]
  exact Nat.le_add_right _ _

theorem nul (h : b.Repr text true) : b.data[b.len]? = some (some 0) := by
  obtain ⟨rest, hdata⟩ := h.data_eq
  rw [hdata, h.len_eq, List.getElem?_append_right (by rw [List.length_map]), List.length_map, Nat.sub_self]
  rfl

theorem seek (h : b.Repr text t) {p : Nat} (hp : p ≤ text.length) : Repr { b with pos := p } text t :=
  ⟨hp, h.len_eq, h.size_eq, h.data_eq⟩

/-- Growing makes room and writes nothing. -/
theorem grow (h : b.Repr text t) {n : Nat} (h0 : 0 < b.size ∨ 0 < n) : (bufGrow b n).Repr text t ∧
    b.pos + n < (bufGrow b n).size ∧ (bufGrow b n).mode = b.mode ∧ (bufGrow b n).pos = b.pos := by
  have hpos := h.pos_le
  have hle := h.le_size
  obtain ⟨rest, hdata⟩ := h.data_eq
  by_cases hg : (n : Int) ≥ (b.size : Int) - b.pos
  · have hsize : ((b.size + ((n : Int) - (b.size - b.pos))) * 2).toNat = 2 * (b.pos + n) := by omega
    have heq : bufGrow b n = { b with
        size := 2 * (b.pos + n), data := b.data ++ List.replicate (2 * (b.pos + n) - b.size) none } := by
      unfold bufGrow
      rw [if_pos hg]
      simp only [hsize]
    rw [heq]
    refine ⟨⟨hpos, h.len_eq, ?_, rest ++ List.replicate (2 * (b.pos + n) - b.size) none, ?_⟩, ?_, rfl, rfl⟩
    · rw [List.length_append, List.length_replicate, h.size_eq]
      exact Nat.add_sub_cancel' (by omega)
    · rw [hdata, List.append_assoc, List.append_assoc]
    · show b.pos + n < 2 * (b.pos + n)
      omega
  · have heq : bufGrow b n = b := by
      unfold bufGrow
      rw [if_neg hg]
    rw [heq]
    exact ⟨h, by omega, rfl, rfl⟩

/-- A store at the position with a NUL behind it. -/
theorem write (h : b.Repr text t) (hfit : b.pos + s.length < b.size) (ht : t = true ∨ text.length ≤ b.pos + s.length) :
    ∃ block, storeAt b.data b.pos (s ++ [0]) = some block ∧
      Repr { b with data := block, pos := b.pos + s.length, len := max b.len (b.pos + s.length) }
        (overwrite text b.pos s) true := by
  have hpos := h.pos_le
  have hlen := overwrite_length (s := s) hpos
  obtain ⟨rest, hdata⟩ := h.data_eq
  have hroom : b.pos + (s ++ [0]).length ≤ b.data.length := by
    rw [h.size_eq, List.length_append]
    exact hfit
  refine ⟨_, if_pos hroom, ?_, ?_, ?_, ?_⟩
  · show b.pos + s.length ≤ _
    rw [hlen]
    exact Nat.le_max_right _ _
  · show max b.len (b.pos + s.length) = _
    rw [hlen, h.len_eq]
  · show (_ ++ _ ++ _ : List (Option χ)).length = b.size
    simp only [List.length_append, List.length_take, List.length_map, List.length_drop, ← h.size_eq] at hroom ⊢
    omega
  · have htake : b.data.take b.pos = (text.take b.pos).map some := by
      rw [hdata, List.take_append_of_le_length (by rw [List.length_map]; exact hpos), List.map_take]
    show ∃ rest', b.data.take b.pos ++ (s ++ [0]).map some ++ b.data.drop (b.pos + (s ++ [0]).length) = _
    rw [htake]
    by_cases hmid : b.pos + s.length < text.length
    · -- the old text goes on behind the new NUL, up to its own
      have htrue : t = true := ht.resolve_right (by omega)
      refine ⟨rest, ?_⟩
      have hdrop : b.data.drop (b.pos + (s ++ [0]).length) =
          (text.drop (b.pos + s.length + 1)).map some ++ (some 0 :: rest) := by
        have hle : b.pos + s.length + 1 ≤ (text.map some).length := by
          rw [List.length_map]
          exact hmid
        rw [hdata, htrue, List.length_append, ← Nat.add_assoc]
        show (text.map some ++ (some 0 :: rest)).drop (b.pos + s.length + 1) = _
        rw [List.drop_append_of_le_length hle, List.map_drop]
      rw [hdrop, overwrite, if_pos hmid]
      simp
    · refine ⟨b.data.drop (b.pos + (s ++ [0]).length), ?_⟩
      rw [overwrite, if_neg hmid]
      simp

/-- What a put leaves behind: the characters at the position, the position behind them. -/
structure Wrote (b b' : Buf χ) (text s : List χ) : Prop where
  repr : b'.Repr (overwrite text b.pos s) true
  mode_eq : b'.mode = b.mode
  pos_eq : b'.pos = b.pos + s.length
  size_le : b'.size ≤ max b.size (2 * (b.pos + s.length + 1))

theorem put (h : b.Repr text t) (hs : s ≠ []) (ht : t = true ∨ text.length ≤ b.pos + s.length) (e : ErrState) :
    ∃ b', bufPut b s e = some (((s.length : Int), b'), e) ∧ Wrote b b' text s := by
  obtain ⟨hg, hroom, hmode, hpos⟩ := h.grow (n := s.length + 1) (.inr (Nat.succ_pos _))
  rw [← hpos] at hroom ht
  obtain ⟨block, hst, hr⟩ := hg.write (s := s) (by omega) ht
  have hne : s.length ≠ 0 := fun h0 => hs (List.eq_nil_of_length_eq_zero h0)
  rw [← storeAt_storeAt] at hst
  rw [hpos] at hr
  refine ⟨{ bufGrow b (s.length + 1) with
    data := block, pos := (bufGrow b (s.length + 1)).pos + s.length,
    len := max (bufGrow b (s.length + 1)).len ((bufGrow b (s.length + 1)).pos + s.length) }, ?_, ?_, hmode, ?_,
    bufGrow_size_le b (Nat.le_refl _)⟩
  · unfold bufPut
    rw [if_neg hne]
    simp only [hst]
    rfl
  · rw [hpos]
    exact hr
  · rw [hpos]

theorem putchar (h : b.Repr text t) (c : χ) (ht : t = true ∨ text.length ≤ b.pos + 1) (e : ErrState) :
    ∃ b', bufPutchar b c e = some ((1, b'), e) ∧ Wrote b b' text [c] :=
  h.put (List.cons_ne_nil c []) ht e

/-- The characters a string is put as. -/
def strChars (mode : BufMode) (s : List χ) : List χ := if mode = .binary then s ++ [0] else s

theorem strChars_length (mode : BufMode) (s : List χ) :
    (strChars mode s).length = if mode = .binary then s.length + 1 else s.length := by
  unfold strChars
  split
  · rw [List.length_append]
    rfl
  · rfl

theorem putstr (h : b.Repr text t) (hs : strChars b.mode s ≠ [])
    (ht : t = true ∨ text.length ≤ b.pos + (strChars b.mode s).length) (e : ErrState) :
    ∃ b', bufPutstr b s e = some ((((strChars b.mode s).length : Int), b'), e) ∧ Wrote b b' text (strChars b.mode s) :=
  h.put hs ht e

theorem putf_room (h : b.Repr text t) (h0 : 0 < b.size ∨ 0 < (strChars b.mode s).length)
    (ht : t = true ∨ text.length ≤ b.pos + (strChars b.mode s).length) (e : ErrState) :
    ∃ b', bufPutf b s e = some ((((strChars b.mode s).length : Int), b'), e) ∧ Wrote b b' text (strChars b.mode s) := by
  obtain ⟨hg, hroom, hmode, hpos⟩ := h.grow (n := (strChars b.mode s).length) h0
  rw [← hpos] at hroom ht
  obtain ⟨block, hst, hr⟩ := hg.write hroom ht
  rw [hpos] at hr
  generalize hg' : bufGrow b (strChars b.mode s).length = g at *
  have hstores : ((storeAt g.data g.pos (s ++ [0])).bind fun data =>
      storeAt data (g.pos + (strChars b.mode s).length) [0]) = some block := by
    by_cases hbin : b.mode = .binary
    · have hchars : strChars b.mode s = s ++ [0] := if_pos hbin
      rw [hchars] at hst ⊢
      rw [storeAt_storeAt, hst]
    · -- the formatted text ends in a NUL already
      have hchars : strChars b.mode s = s := if_neg hbin
      rw [hchars] at hst ⊢
      rw [hst, Option.bind_some, storeAt_again hst]
  refine ⟨{ g with
    data := block, pos := g.pos + (strChars b.mode s).length,
    len := max g.len (g.pos + (strChars b.mode s).length) }, ?_, ?_, hmode, ?_, hg' ▸ bufGrow_size_le b (Nat.le_succ _)⟩
  · unfold bufPutf
    simp only [← strChars_length, hg', hmode, hstores]
    rfl
  · rw [hpos]
    exact hr
  · rw [hpos]

theorem putf (h : b.Repr text true) (e : ErrState) :
    ∃ b', bufPutf b s e = some ((((strChars b.mode s).length : Int), b'), e) ∧ Wrote b b' text (strChars b.mode s) :=
  h.putf_room (.inl ((Nat.zero_le _).trans_lt h.lt_size)) (.inl rfl) e

end Buf.Repr
end Pcl

import Pcl.Buf.Run
import Pcl.Io.FmtconvSpec
import Mathlib.Data.List.GetD

/-!
# Writing over what is there

Every put ends in a NUL, also in front of characters that stay. Where the position is inside the text that NUL
replaces the character behind the new ones, unless it is a NUL already. The two ways to put a string write it
alike, but an empty text is refused by the one and written, NUL and all, by the other.
-/

namespace Pcl
variable {χ : Type} [BufChar χ] {b : Buf χ} {text s : List χ} {e : ErrState}

theorem Buf.Repr.getElem?_data (h : b.Repr text true) {i : Nat} (hi : i ≤ text.length) :
    b.data[i]? = some (some (text.getD i 0)) := by
  obtain ⟨rest, hdata⟩ := h.data_eq
  rw [hdata]
  rcases Nat.lt_or_eq_of_le hi with hlt | rfl
  · rw [List.getElem?_append_left (by rwa [List.length_map]), List.getElem?_map, List.getElem?_eq_getElem hlt,
      List.getD_eq_getElem _ _ hlt]
    rfl
  · rw [List.getElem?_append_right (by rw [List.length_map]), List.length_map, Nat.sub_self,
      List.getD_eq_default _ _ (Nat.le_refl _)]
    rfl

/-- A text written over a part changes nothing else just when a NUL follows that part. -/
theorem Buf.Repr.overwrite_eq_iff (h : b.Repr text true) (hfit : b.pos + s.length ≤ text.length) :
    overwrite text b.pos s = text.take b.pos ++ s ++ text.drop (b.pos + s.length) ↔
      b.data[b.pos + s.length]? = some (some 0) := by
  unfold overwrite
  rw [h.getElem?_data hfit, Option.some_inj, Option.some_inj, List.append_cancel_left_eq]
  rcases Nat.lt_or_eq_of_le hfit with hlt | heq
  · rw [if_pos hlt, List.drop_eq_getElem_cons hlt, List.getD_eq_getElem _ _ hlt, List.cons.injEq]
    exact ⟨fun hc => hc.1.symm, fun hc => ⟨hc.symm, rfl⟩⟩
  · rw [if_neg (Nat.not_lt.2 (Nat.le_of_eq heq.symm)), List.drop_of_length_le (Nat.le_of_eq heq.symm),
      List.getD_eq_default _ _ (Nat.le_of_eq heq.symm)]
    exact iff_of_true rfl rfl

theorem Buf.Repr.take_data {t : Bool} (h : b.Repr text t) : b.data.take b.len = text.map some := by
  obtain ⟨rest, hdata⟩ := h.data_eq
  rw [hdata, h.len_eq]
  exact List.take_left' (List.length_map _)

/-! ### One put over a part of the text -/

/-- `pcl_buf_put` with its `int` arithmetic. -/
def bufPutExec (b : Buf χ) (data : List χ) : ErrM (Int × Buf χ) :=
  if ∀ x ∈ putInts b data.length, InInt x then bufPut b data else ErrM.undef

/-- The characters from the position on are replaced, and nothing else. -/
def Buf.Overwrites (b : Buf χ) (s : List χ) (e : ErrState) : Prop :=
  ∃ r b' e', bufPutExec b s e = some ((r, b'), e') ∧ b'.len = b.len ∧ b'.pos = b.pos + s.length ∧
    b'.data.take b'.len = b.data.take b.pos ++ s.map some ++ (b.data.take b.len).drop (b.pos + s.length)

/-- A put inside the text leaves the rest of it alone just when the character behind the new ones is a NUL, as it
is at the end of the text. -/
theorem put_overwrites_iff (h : b.Repr text true) (hs : s ≠ []) (hfit : b.pos + s.length ≤ b.len) (e : ErrState) :
    b.Overwrites s e ↔ (∀ x ∈ putInts b s.length, InInt x) ∧ b.data[b.pos + s.length]? = some (some 0) := by
  rw [h.len_eq] at hfit
  obtain ⟨b', hrun, hw⟩ := h.put hs (.inl rfl) e
  have hlen : b'.len = b.len := by
    rw [hw.repr.len_eq, overwrite_length h.pos_le, h.len_eq]
    exact Nat.max_eq_left hfit
  have htake : b.data.take b.pos = (text.take b.pos).map some := by
    have hle : b.pos ≤ b.len := h.len_eq ▸ h.pos_le
    rw [List.map_take, ← h.take_data, List.take_take, Nat.min_eq_left hle]
  have hiff : b'.data.take b'.len = b.data.take b.pos ++ s.map some ++ (b.data.take b.len).drop (b.pos + s.length) ↔
      overwrite text b.pos s = text.take b.pos ++ s ++ text.drop (b.pos + s.length) := by
    rw [hw.repr.take_data, h.take_data, htake, ← List.map_drop, ← List.map_append, ← List.map_append]
    exact (List.map_injective_iff.2 fun _ _ => Option.some.inj).eq_iff
  rw [← h.overwrite_eq_iff hfit, ← hiff]
  unfold Buf.Overwrites bufPutExec
  constructor
  · rintro ⟨r, b₁, e₁, hexec, -, -, hdata⟩
    split at hexec
    · rename_i hints
      cases hrun.symm.trans hexec
      exact ⟨hints, hdata⟩
    · cases hexec
  · rintro ⟨hints, hdata⟩
    exact ⟨_, b', e, by rw [if_pos hints, hrun], hlen, hw.pos_eq, hdata⟩

/-- "Hello" in a buffer of eight characters, with the position in front of the last one. -/
def hello (pos : Nat) : Buf UInt8 := ⟨.text, pos, 5, 8, (txt "Hello").map some ++ [some 0, none, none]⟩

theorem hello_repr {pos : Nat} (h : pos ≤ 5) : (hello pos).Repr (txt "Hello") true := ⟨h, rfl, rfl, [none, none], rfl⟩

/-- The last character is replaced. -/
theorem put_overwrites_iff_last : (hello 4).Overwrites (txt "a") .zero ↔
    (∀ x ∈ putInts (hello 4) 1, InInt x) ∧ (hello 4).data[4 + 1]? = some (some 0) :=
  put_overwrites_iff (hello_repr (by decide)) (by decide) (by decide) .zero

/-- The first character is replaced: the second one is a NUL then. -/
theorem put_overwrites_next : ¬ (hello 0).Overwrites (txt "J") .zero := by
  rintro ⟨r, b', e', hexec, -, -, hdata⟩
  have hrun : bufPutExec (hello 0) (txt "J") .zero =
      some ((1, ⟨.text, 1, 5, 8, (txt "J").map some ++ [some 0] ++ (txt "llo").map some ++ [some 0, none, none]⟩), .zero) := rfl
  cases hrun.symm.trans hexec
  exact absurd hdata (by decide)

/-! ### Putting a string, and formatting it -/

/-- Nothing is left in the buffer, not even its block. -/
def Buf.Cleared (b : Buf χ) : Prop := b.pos = 0 ∧ b.len = 0 ∧ b.size = 0 ∧ b.data = []

/-- What operations on a buffer lead to. -/
def Buf.Valid (b : Buf χ) : Prop := (∃ text, b.Repr text true) ∨ b.Cleared

theorem Buf.Cleared.repr (h : b.Cleared) : b.Repr [] false := by
  obtain ⟨hpos, hlen, hsize, hdata⟩ := h
  exact ⟨Nat.le_of_eq hpos, hlen, by rw [hdata, hsize]; rfl, [], hdata⟩

end Pcl

import Mathlib.Tactic.Common

/-!
# Padded base64

The encoding of bytes three at a time into four symbols of six bits, where a last group of one or two bytes is filled
with zero bits and marked with `=`. The decoder takes a `=` for six zero bits, so it gives the bytes back with the zeros
that filled the last group.
-/

namespace Pcl.Base64

/-- The symbols: `A` to `Z`, `a` to `z`, `0` to `9`, `+` and `/`. -/
def symbols : List UInt8 :=
  ((List.range 26).map (65 + ·) ++ (List.range 26).map (97 + ·) ++ (List.range 10).map (48 + ·) ++ [43, 47]).map
    UInt8.ofNat

/-- The padding, `=`. -/
def pad : UInt8 := 61

def symbol (n : Nat) : UInt8 := symbols.getD n 0

/-- The six bits of a symbol, none of them set in the padding. -/
def value (c : UInt8) : Nat := if c = pad then 0 else symbols.idxOf c

def encode : List UInt8 → List UInt8
  | a :: b :: c :: d =>
    symbol (a.toNat / 4) :: symbol (a.toNat % 4 * 16 + b.toNat / 16) :: symbol (b.toNat % 16 * 4 + c.toNat / 64) ::
      symbol (c.toNat % 64) :: encode d
  | [a, b] =>
    [symbol (a.toNat / 4), symbol (a.toNat % 4 * 16 + b.toNat / 16), symbol (b.toNat % 16 * 4), pad]
  | [a] => [symbol (a.toNat / 4), symbol (a.toNat % 4 * 16), pad, pad]
  | [] => []

/-- Every group of four is three bytes. -/
def decode : List UInt8 → List UInt8
  | w :: x :: y :: z :: t =>
    UInt8.ofNat (value w * 4 + value x / 16) :: UInt8.ofNat (value x % 16 * 16 + value y / 4) ::
      UInt8.ofNat (value y % 4 * 64 + value z) :: decode t
  | _ => []

theorem symbol_spec : ∀ n < 64, value (symbol n) = n ∧ symbol n ∈ symbols := by decide +kernel

theorem value_pad : value pad = 0 := rfl

theorem zero_not_mem_symbols : (0 : UInt8) ∉ symbols := by decide +kernel

theorem encode_length : ∀ d : List UInt8, (encode d).length = 4 * ((d.length + 2) / 3)
  | a :: b :: c :: d => by
    rw [encode, List.length_cons, List.length_cons, List.length_cons, List.length_cons, List.length_cons, List.length_cons,
      List.length_cons, encode_length d]
    omega
  | [_, _] => by simp [encode]
  | [_] => by simp [encode]
  | [] => rfl

/-- The text is one of symbols, but for at most two paddings at the end. -/
theorem encode_shape : ∀ d : List UInt8, ∃ s k, encode d = s ++ List.replicate k pad ∧ k ≤ 2 ∧ ∀ c ∈ s, c ∈ symbols
  | a :: b :: c :: d => by
    obtain ⟨s, k, heq, hk, hs⟩ := encode_shape d
    have ha : a.toNat < 256 := a.toNat_lt_size
    have hb : b.toNat < 256 := b.toNat_lt_size
    have hc : c.toNat < 256 := c.toNat_lt_size
    refine ⟨symbol (a.toNat / 4) :: symbol (a.toNat % 4 * 16 + b.toNat / 16) ::
      symbol (b.toNat % 16 * 4 + c.toNat / 64) :: symbol (c.toNat % 64) :: s, k, ?_, hk, ?_⟩
    · rw [encode, heq]
      rfl
    · simp only [List.forall_mem_cons]
      exact ⟨(symbol_spec _ (by omega)).2, (symbol_spec _ (by omega)).2, (symbol_spec _ (by omega)).2,
        (symbol_spec _ (by omega)).2, hs⟩
  | [a, b] => by
    have ha : a.toNat < 256 := a.toNat_lt_size
    have hb : b.toNat < 256 := b.toNat_lt_size
    refine ⟨[symbol (a.toNat / 4), symbol (a.toNat % 4 * 16 + b.toNat / 16), symbol (b.toNat % 16 * 4)], 1, rfl,
      by omega, ?_⟩
    simp only [List.forall_mem_cons]
    exact ⟨(symbol_spec _ (by omega)).2, (symbol_spec _ (by omega)).2, (symbol_spec _ (by omega)).2,
      List.forall_mem_nil _⟩
  | [a] => by
    have ha : a.toNat < 256 := a.toNat_lt_size
    refine ⟨[symbol (a.toNat / 4), symbol (a.toNat % 4 * 16)], 2, rfl, Nat.le_refl 2, ?_⟩
    simp only [List.forall_mem_cons]
    exact ⟨(symbol_spec _ (by omega)).2, (symbol_spec _ (by omega)).2, List.forall_mem_nil _⟩
  | [] => ⟨[], 0, rfl, Nat.zero_le 2, List.forall_mem_nil _⟩

theorem zero_not_mem_encode (d : List UInt8) : (0 : UInt8) ∉ encode d := by
  obtain ⟨s, k, heq, -, hs⟩ := encode_shape d
  intro h
  rw [heq] at h
  rcases List.mem_append.1 h with h | h
  · exact zero_not_mem_symbols (hs 0 h)
  · exact absurd (List.eq_of_mem_replicate h) (by decide)

theorem decode_length : ∀ t : List UInt8, (decode t).length = 3 * (t.length / 4)
  | w :: x :: y :: z :: t => by
    rw [decode, List.length_cons, List.length_cons, List.length_cons, List.length_cons, List.length_cons, List.length_cons,
      List.length_cons, decode_length t]
    omega
  | [_, _, _] => by simp [decode]
  | [_, _] => by simp [decode]
  | [_] => by simp [decode]
  | [] => rfl

/-- The decoder gives the bytes, filled with zeros to a multiple of three. -/
theorem decode_encode : ∀ d : List UInt8, decode (encode d) = d ++ List.replicate ((3 - d.length % 3) % 3) 0
  | a :: b :: c :: d => by
    have ha : a.toNat < 256 := a.toNat_lt_size
    have hb : b.toNat < 256 := b.toNat_lt_size
    have hc : c.toNat < 256 := c.toNat_lt_size
    have hlen : (a :: b :: c :: d).length % 3 = d.length % 3 := by
      simp only [List.length_cons]
      omega
    have h₁ : a.toNat / 4 * 4 + (a.toNat % 4 * 16 + b.toNat / 16) / 16 = a.toNat := by omega
    have h₂ : (a.toNat % 4 * 16 + b.toNat / 16) % 16 * 16 + (b.toNat % 16 * 4 + c.toNat / 64) / 4 = b.toNat := by omega
    have h₃ : (b.toNat % 16 * 4 + c.toNat / 64) % 4 * 64 + c.toNat % 64 = c.toNat := by omega
    rw [encode, decode, (symbol_spec (a.toNat / 4) (by omega)).1,
      (symbol_spec (a.toNat % 4 * 16 + b.toNat / 16) (by omega)).1,
      (symbol_spec (b.toNat % 16 * 4 + c.toNat / 64) (by omega)).1, (symbol_spec (c.toNat % 64) (by omega)).1,
      h₁, h₂, h₃, UInt8.ofNat_toNat, UInt8.ofNat_toNat, UInt8.ofNat_toNat, decode_encode d, hlen]
    rfl
  | [a, b] => by
    have ha : a.toNat < 256 := a.toNat_lt_size
    have hb : b.toNat < 256 := b.toNat_lt_size
    have h₁ : a.toNat / 4 * 4 + (a.toNat % 4 * 16 + b.toNat / 16) / 16 = a.toNat := by omega
    have h₂ : (a.toNat % 4 * 16 + b.toNat / 16) % 16 * 16 + b.toNat % 16 * 4 / 4 = b.toNat := by omega
    have h₃ : b.toNat % 16 * 4 % 4 * 64 + 0 = 0 := by omega
    rw [encode, decode, (symbol_spec (a.toNat / 4) (by omega)).1,
      (symbol_spec (a.toNat % 4 * 16 + b.toNat / 16) (by omega)).1, (symbol_spec (b.toNat % 16 * 4) (by omega)).1,
      value_pad, h₁, h₂, h₃, UInt8.ofNat_toNat, UInt8.ofNat_toNat]
    rfl
  | [a] => by
    have ha : a.toNat < 256 := a.toNat_lt_size
    have h₁ : a.toNat / 4 * 4 + a.toNat % 4 * 16 / 16 = a.toNat := by omega
    have h₂ : a.toNat % 4 * 16 % 16 * 16 + 0 / 4 = 0 := by omega
    rw [encode, decode, (symbol_spec (a.toNat / 4) (by omega)).1, (symbol_spec (a.toNat % 4 * 16) (by omega)).1,
      value_pad, h₁, h₂, UInt8.ofNat_toNat]
    rfl
  | [] => rfl

end Pcl.Base64

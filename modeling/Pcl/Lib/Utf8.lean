import Mathlib.Data.List.Basic
import Mathlib.Data.UInt
import Mathlib.Tactic.Common

/-!
# Well-formed UTF-8

The table of well-formed byte sequences, a constructor for each of its rows, and the texts that are
concatenations of such sequences. The encodings of the scalar values are well-formed, and no encoding is the
start of another.
-/

namespace Utf8

/-- A byte from `80` to `BF`. -/
def Cont (b : UInt8) : Prop := 0x80 ≤ b ∧ b ≤ 0xBF

instance (b : UInt8) : Decidable (Cont b) := by unfold Cont; infer_instance

/-- One well-formed byte sequence. -/
inductive Seq : List UInt8 → Prop
  | ascii {a : UInt8} (ha : a ≤ 0x7F) : Seq [a]
  | two {a b : UInt8} (ha : 0xC2 ≤ a ∧ a ≤ 0xDF) (hb : Cont b) : Seq [a, b]
  | e0 {b c : UInt8} (hb : 0xA0 ≤ b ∧ b ≤ 0xBF) (hc : Cont c) : Seq [0xE0, b, c]
  | e1ec {a b c : UInt8} (ha : 0xE1 ≤ a ∧ a ≤ 0xEC) (hb : Cont b) (hc : Cont c) : Seq [a, b, c]
  | ed {b c : UInt8} (hb : 0x80 ≤ b ∧ b ≤ 0x9F) (hc : Cont c) : Seq [0xED, b, c]
  | eeef {a b c : UInt8} (ha : 0xEE ≤ a ∧ a ≤ 0xEF) (hb : Cont b) (hc : Cont c) : Seq [a, b, c]
  | f0 {b c d : UInt8} (hb : 0x90 ≤ b ∧ b ≤ 0xBF) (hc : Cont c) (hd : Cont d) : Seq [0xF0, b, c, d]
  | f1f3 {a b c d : UInt8} (ha : 0xF1 ≤ a ∧ a ≤ 0xF3) (hb : Cont b) (hc : Cont c) (hd : Cont d) :
      Seq [a, b, c, d]
  | f4 {b c d : UInt8} (hb : 0x80 ≤ b ∧ b ≤ 0x8F) (hc : Cont c) (hd : Cont d) : Seq [0xF4, b, c, d]

/-- A concatenation of well-formed sequences. -/
inductive Text : List UInt8 → Prop
  | nil : Text []
  | cons {s l : List UInt8} (hs : Seq s) (hl : Text l) : Text (s ++ l)

/-! ### Code points -/

/-- The code points that no text may encode. -/
def Surrogate (n : Nat) : Prop := 0xD800 ≤ n ∧ n ≤ 0xDFFF

instance (n : Nat) : Decidable (Surrogate n) := by unfold Surrogate; infer_instance

/-- A Unicode scalar value. -/
def Scalar (n : Nat) : Prop := n ≤ 0x10FFFF ∧ ¬ Surrogate n

instance (n : Nat) : Decidable (Scalar n) := by unfold Scalar; infer_instance

/-- The bytes that encode the code point `n`. -/
def encode (n : Nat) : List UInt8 :=
  if n ≤ 0x7F then
    [.ofNat n]
  else if n ≤ 0x7FF then
    [.ofNat (0xC0 + n / 64), .ofNat (0x80 + n % 64)]
  else if n ≤ 0xFFFF then
    [.ofNat (0xE0 + n / 4096), .ofNat (0x80 + n / 64 % 64), .ofNat (0x80 + n % 64)]
  else
    [.ofNat (0xF0 + n / 262144), .ofNat (0x80 + n / 4096 % 64), .ofNat (0x80 + n / 64 % 64), .ofNat (0x80 + n % 64)]

theorem encode_ne_nil (n : Nat) : encode n ≠ [] := by
  unfold encode
  repeat' split
  all_goals exact List.cons_ne_nil _ _

theorem ofNat_inj {a b : Nat} (ha : a < 256) (hb : b < 256) : UInt8.ofNat a = UInt8.ofNat b ↔ a = b := by
  rw [← UInt8.toNat_inj, UInt8.toNat_ofNat', UInt8.toNat_ofNat']
  omega

theorem ofNat_le {a b : Nat} (ha : a < 256) (hb : b < 256) : UInt8.ofNat a ≤ UInt8.ofNat b ↔ a ≤ b := by
  rw [UInt8.le_iff_toNat_le, UInt8.toNat_ofNat', UInt8.toNat_ofNat']
  omega

/-- No encoding is the start of another one. -/
theorem encode_append_inj {n n' : Nat} (hn : n ≤ 0x10FFFF) (hn' : n' ≤ 0x10FFFF) {l l' : List UInt8}
    (h : encode n ++ l = encode n' ++ l') : n = n' ∧ l = l' := by
  unfold encode at h
  split at h <;> [skip; split at h <;> [skip; split at h]]
  all_goals split at h <;> [skip; split at h <;> [skip; split at h]]
  all_goals
    simp (disch := omega) only [List.cons_append, List.nil_append, List.cons.injEq, ofNat_inj] at h
    first
      | exact absurd h (by omega)
      | exact ⟨by omega, by simp only [h]⟩

theorem between (a c : Nat) {b : Nat} (hb : b < 256) (hab : a ≤ b) (hbc : b ≤ c) (hc : c < 256) :
    UInt8.ofNat a ≤ UInt8.ofNat b ∧ UInt8.ofNat b ≤ UInt8.ofNat c :=
  ⟨(ofNat_le (Nat.lt_of_le_of_lt hab hb) hb).2 hab, (ofNat_le hb hc).2 hbc⟩

theorem cont_encode (m : Nat) : Cont (UInt8.ofNat (0x80 + m % 64)) :=
  between 0x80 0xBF (by omega) (by omega) (by omega) (by decide)

/-- Only the first byte of an encoding is no continuation byte. -/
theorem encode_shape {n : Nat} (hn : n ≤ 0x10FFFF) : ∃ a l, encode n = a :: l ∧ ¬ Cont a ∧ ∀ b ∈ l, Cont b := by
  have hlead {k : Nat} (hk : k < 256) (h : k < 0x80 ∨ 0xBF < k) : ¬ Cont (UInt8.ofNat k) := by
    rintro ⟨hlo, hhi⟩
    have := (ofNat_le (a := 0x80) (by decide) hk).1 hlo
    have := (ofNat_le (b := 0xBF) hk (by decide)).1 hhi
    omega
  unfold encode
  split <;> [skip; split <;> [skip; split]]
  · exact ⟨_, _, rfl, hlead (by omega) (by omega), fun b hb => absurd hb List.not_mem_nil⟩
  all_goals
    refine ⟨_, _, rfl, hlead (by omega) (by omega), ?_⟩
    simp only [List.forall_mem_cons, cont_encode, true_and]
    exact fun b hb => absurd hb List.not_mem_nil

/-- The scalar values are the code points with a well-formed encoding. -/
theorem seq_encode_iff {n : Nat} (hn : n ≤ 0x10FFFF) : Seq (encode n) ↔ Scalar n := by
  constructor
  · intro h
    refine ⟨hn, ?_⟩
    rintro ⟨hlo, hhi⟩
    unfold encode at h
    rw [if_neg (by omega), if_neg (by omega), if_pos (by omega)] at h
    have hb : 0xED = UInt8.ofNat (0xE0 + n / 4096) := by
      rw [show n / 4096 = 13 by omega]
      rfl
    have hc : 0xA0 ≤ UInt8.ofNat (0x80 + n / 64 % 64) := (ofNat_le (a := 0xA0) (by decide) (by omega)).2 (by omega)
    rw [← hb] at h
    generalize UInt8.ofNat (0x80 + n / 64 % 64) = b, UInt8.ofNat (0x80 + n % 64) = c at h hc
    cases h with
    | e1ec ha _ _ => exact absurd ha.2 (by decide)
    | ed hb _ => exact absurd (UInt8.le_trans hc hb.2) (by decide)
    | eeef ha _ _ => exact absurd ha.1 (by decide)
  · rintro ⟨-, hs⟩
    unfold Surrogate at hs
    unfold encode
    split
    · exact .ascii ((ofNat_le (b := 0x7F) (by omega) (by decide)).2 (by omega))
    split
    · exact .two (between 0xC2 0xDF (by omega) (by omega) (by omega) (by decide)) (cont_encode n)
    split
    · rcases show n / 4096 = 0 ∨ n / 4096 = 13 ∨ (n / 4096 ≠ 0 ∧ n / 4096 < 13) ∨ n / 4096 > 13 by omega with h | h | h | h
      · rw [h]
        exact .e0 (between 0xA0 0xBF (by omega) (by omega) (by omega) (by decide)) (cont_encode n)
      · rw [h]
        exact .ed (between 0x80 0x9F (by omega) (by omega) (by omega) (by decide)) (cont_encode n)
      · exact .e1ec (between 0xE1 0xEC (by omega) (by omega) (by omega) (by decide)) (cont_encode (n / 64)) (cont_encode n)
      · exact .eeef (between 0xEE 0xEF (by omega) (by omega) (by omega) (by decide)) (cont_encode (n / 64)) (cont_encode n)
    · rcases show n / 262144 = 0 ∨ n / 262144 = 4 ∨ (n / 262144 ≠ 0 ∧ n / 262144 < 4) by omega with h | h | h
      · rw [h]
        exact .f0 (between 0x90 0xBF (by omega) (by omega) (by omega) (by decide)) (cont_encode (n / 64)) (cont_encode n)
      · rw [h]
        exact .f4 (between 0x80 0x8F (by omega) (by omega) (by omega) (by decide)) (cont_encode (n / 64)) (cont_encode n)
      · exact .f1f3 (between 0xF1 0xF3 (by omega) (by omega) (by omega) (by decide)) (cont_encode (n / 4096))
          (cont_encode (n / 64)) (cont_encode n)

/-! ### Decoding -/

/-- A byte of a range, as an offset from below it. -/
theorem exists_offset {a lo hi : UInt8} (h : lo ≤ a ∧ a ≤ hi) {k : Nat} (hk : k ≤ lo.toNat) :
    ∃ x, a = .ofNat (k + x) ∧ lo.toNat ≤ k + x ∧ k + x ≤ hi.toNat := by
  have hlo := UInt8.le_iff_toNat_le.1 h.1
  have hhi := UInt8.le_iff_toNat_le.1 h.2
  refine ⟨a.toNat - k, ?_, by omega, by omega⟩
  rw [Nat.add_sub_cancel' (by omega), UInt8.ofNat_toNat]

theorem encode_two {x y : Nat} (hx : 2 ≤ x ∧ x < 32) (hy : y < 64) :
    encode (x * 64 + y) = [.ofNat (0xC0 + x), .ofNat (0x80 + y)] := by
  unfold encode
  rw [if_neg (by omega), if_pos (by omega), show (x * 64 + y) / 64 = x by omega, show (x * 64 + y) % 64 = y by omega]

theorem encode_three {x y z : Nat} (hx : x < 16) (hy : y < 64) (hz : z < 64) (h : x ≠ 0 ∨ 32 ≤ y) :
    encode (x * 4096 + y * 64 + z) = [.ofNat (0xE0 + x), .ofNat (0x80 + y), .ofNat (0x80 + z)] := by
  unfold encode
  rw [if_neg (by omega), if_neg (by omega), if_pos (by omega), show (x * 4096 + y * 64 + z) / 4096 = x by omega,
    show (x * 4096 + y * 64 + z) / 64 % 64 = y by omega, show (x * 4096 + y * 64 + z) % 64 = z by omega]

theorem encode_four {x y z w : Nat} (hy : y < 64) (hz : z < 64) (hw : w < 64) (h : x ≠ 0 ∨ 16 ≤ y) :
    encode (x * 262144 + y * 4096 + z * 64 + w) =
      [.ofNat (0xF0 + x), .ofNat (0x80 + y), .ofNat (0x80 + z), .ofNat (0x80 + w)] := by
  unfold encode
  rw [if_neg (by omega), if_neg (by omega), if_neg (by omega),
    show (x * 262144 + y * 4096 + z * 64 + w) / 262144 = x by omega,
    show (x * 262144 + y * 4096 + z * 64 + w) / 4096 % 64 = y by omega,
    show (x * 262144 + y * 4096 + z * 64 + w) / 64 % 64 = z by omega,
    show (x * 262144 + y * 4096 + z * 64 + w) % 64 = w by omega]

/-- Every well-formed sequence encodes a scalar value. -/
theorem Seq.exists_encode {s : List UInt8} (h : Seq s) : ∃ n, Scalar n ∧ s = encode n := by
  suffices hn : ∃ n, n ≤ 0x10FFFF ∧ encode n = s by
    obtain ⟨n, hn, rfl⟩ := hn
    exact ⟨n, (seq_encode_iff hn).1 h, rfl⟩
  have hcont {b : UInt8} (hb : Cont b) : ∃ y, b = .ofNat (0x80 + y) ∧ y < 64 := by
    obtain ⟨y, rfl, -, (hy : 0x80 + y ≤ 0xBF)⟩ := exists_offset hb (k := 0x80) (by decide)
    exact ⟨y, rfl, by omega⟩
  cases h with
  | @ascii a ha =>
    have hle : a.toNat ≤ 0x7F := UInt8.le_iff_toNat_le.1 ha
    refine ⟨a.toNat, by omega, ?_⟩
    unfold encode
    rw [if_pos hle, UInt8.ofNat_toNat]
  | two ha hb =>
    obtain ⟨x, rfl, (hlo : 0xC2 ≤ 0xC0 + x), (hhi : 0xC0 + x ≤ 0xDF)⟩ := exists_offset ha (k := 0xC0) (by decide)
    obtain ⟨y, rfl, hy⟩ := hcont hb
    exact ⟨_, by omega, encode_two (by omega) hy⟩
  | e0 hb hc =>
    obtain ⟨y, rfl, (hlo : 0xA0 ≤ 0x80 + y), (hhi : 0x80 + y ≤ 0xBF)⟩ := exists_offset hb (k := 0x80) (by decide)
    obtain ⟨z, rfl, hz⟩ := hcont hc
    exact ⟨_, by omega, encode_three (x := 0) (by decide) (by omega) hz (.inr (by omega))⟩
  | e1ec ha hb hc =>
    obtain ⟨x, rfl, (hlo : 0xE1 ≤ 0xE0 + x), (hhi : 0xE0 + x ≤ 0xEC)⟩ := exists_offset ha (k := 0xE0) (by decide)
    obtain ⟨y, rfl, hy⟩ := hcont hb
    obtain ⟨z, rfl, hz⟩ := hcont hc
    exact ⟨_, by omega, encode_three (by omega) hy hz (.inl (by omega))⟩
  | ed hb hc =>
    obtain ⟨y, rfl, hlo, (hhi : 0x80 + y ≤ 0x9F)⟩ := exists_offset hb (k := 0x80) (by decide)
    obtain ⟨z, rfl, hz⟩ := hcont hc
    exact ⟨_, by omega, encode_three (x := 13) (by decide) (by omega) hz (.inl (by decide))⟩
  | eeef ha hb hc =>
    obtain ⟨x, rfl, (hlo : 0xEE ≤ 0xE0 + x), (hhi : 0xE0 + x ≤ 0xEF)⟩ := exists_offset ha (k := 0xE0) (by decide)
    obtain ⟨y, rfl, hy⟩ := hcont hb
    obtain ⟨z, rfl, hz⟩ := hcont hc
    exact ⟨_, by omega, encode_three (by omega) hy hz (.inl (by omega))⟩
  | f0 hb hc hd =>
    obtain ⟨y, rfl, (hlo : 0x90 ≤ 0x80 + y), (hhi : 0x80 + y ≤ 0xBF)⟩ := exists_offset hb (k := 0x80) (by decide)
    obtain ⟨z, rfl, hz⟩ := hcont hc
    obtain ⟨w, rfl, hw⟩ := hcont hd
    exact ⟨_, by omega, encode_four (x := 0) (by omega) hz hw (.inr (by omega))⟩
  | f1f3 ha hb hc hd =>
    obtain ⟨x, rfl, (hlo : 0xF1 ≤ 0xF0 + x), (hhi : 0xF0 + x ≤ 0xF3)⟩ := exists_offset ha (k := 0xF0) (by decide)
    obtain ⟨y, rfl, hy⟩ := hcont hb
    obtain ⟨z, rfl, hz⟩ := hcont hc
    obtain ⟨w, rfl, hw⟩ := hcont hd
    exact ⟨_, by omega, encode_four hy hz hw (.inl (by omega))⟩
  | f4 hb hc hd =>
    obtain ⟨y, rfl, hlo, (hhi : 0x80 + y ≤ 0x8F)⟩ := exists_offset hb (k := 0x80) (by decide)
    obtain ⟨z, rfl, hz⟩ := hcont hc
    obtain ⟨w, rfl, hw⟩ := hcont hd
    exact ⟨_, by omega, encode_four (x := 4) (by omega) hz hw (.inl (by decide))⟩

/-- A nonempty text starts with the encoding of a scalar value. -/
theorem Text.exists_encode {l : List UInt8} (h : Text l) (hne : l ≠ []) :
    ∃ n l', Scalar n ∧ l = encode n ++ l' ∧ Text l' := by
  cases h with
  | nil => exact absurd rfl hne
  | cons hs hl =>
    obtain ⟨n, hn, rfl⟩ := hs.exists_encode
    exact ⟨n, _, hn, rfl, hl⟩

/-- A text that starts with an encoding goes on with a text. -/
theorem text_encode_append {n : Nat} (hn : n ≤ 0x10FFFF) {l : List UInt8} :
    Text (encode n ++ l) ↔ Scalar n ∧ Text l := by
  constructor
  · intro h
    obtain ⟨m, l', hm, ht, hl⟩ := h.exists_encode fun hnil => encode_ne_nil n (List.append_eq_nil_iff.1 hnil).1
    obtain ⟨rfl, rfl⟩ := encode_append_inj hn hm.1 ht
    exact ⟨hm, hl⟩
  · rintro ⟨hs, hl⟩
    exact .cons ((seq_encode_iff hn).2 hs) hl

end Utf8

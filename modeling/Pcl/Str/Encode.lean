import Pcl.Str.Utf8

/-!
# Sequences of code points

`pcl_utf8_encode` writes the encoding of every code point up to `10FFFF`, the surrogates included. A
sequence is read back from its encoding, but `pcl_utf8_check` accepts the encoding only where no code
point is a surrogate or above `3FFFF`.
-/

namespace Pcl

open Utf8

/-- A byte of an encoding: `w` bits of the code behind a marker. -/
theorem byte_toNat (code : UInt32) {k w q : Nat} (hk : k < 32) (hw : w < 8) (hq : q < 2 ^ (8 - w)) :
    ((code >>> UInt32.ofNat k &&& UInt32.ofNat (2 ^ w - 1)) ||| UInt32.ofNat (2 ^ w * q)).toUInt8 =
      UInt8.ofNat (2 ^ w * q + code.toNat / 2 ^ k % 2 ^ w) := by
  have hle : 2 ^ w * (q + 1) ≤ 2 ^ 8 := by
    calc 2 ^ w * (q + 1) ≤ 2 ^ w * 2 ^ (8 - w) := Nat.mul_le_mul_left _ hq
      _ = 2 ^ 8 := by rw [← Nat.pow_add]; congr 1; omega
  have hw' : 2 ^ w ≤ 2 ^ 8 := Nat.pow_le_pow_right (by decide) (by omega)
  have hlt : code.toNat / 2 ^ k % 2 ^ w < 2 ^ w := Nat.mod_lt _ (Nat.two_pow_pos w)
  rw [Nat.mul_add] at hle
  have hbits : ((code >>> UInt32.ofNat k &&& UInt32.ofNat (2 ^ w - 1)) ||| UInt32.ofNat (2 ^ w * q)).toNat =
      2 ^ w * q + code.toNat / 2 ^ k % 2 ^ w := by
    rw [UInt32.toNat_or, UInt32.toNat_and, UInt32.toNat_shiftRight, UInt32.toNat_ofNat', UInt32.toNat_ofNat',
      UInt32.toNat_ofNat', Nat.mod_eq_of_lt (show k < 2 ^ 32 by omega), Nat.mod_eq_of_lt hk,
      Nat.mod_eq_of_lt (show 2 ^ w - 1 < 2 ^ 32 by omega), Nat.mod_eq_of_lt (show 2 ^ w * q < 2 ^ 32 by omega),
      Nat.and_two_pow_sub_one_eq_mod, Nat.shiftRight_eq_div_pow, Nat.or_comm, ← Nat.two_pow_add_eq_or_of_lt hlt]
  rw [← UInt8.toNat_inj, UInt32.toNat_toUInt8, hbits, UInt8.toNat_ofNat']

/-- What is accepted is encoded as by the standard. -/
theorem utf8Encode_eq (code : UInt32) : utf8Encode code =
    if code.toNat ≤ 0x10FFFF then .ok (encode code.toNat)
    else .error ⟨eInvcodept, 0, some (.lit ("invalid codepoint 0x" ++ String.ofList (hex8 code)))⟩ := by
  have htail (k : Nat) (hk : k < 32) := byte_toNat code (w := 6) (q := 2) hk (by decide) (by decide)
  have hlast := htail 0 (by decide)
  rw [Nat.pow_zero, Nat.div_one] at hlast
  unfold utf8Encode encode
  by_cases h₁ : code ≤ 0x7F
  · have hn : code.toNat ≤ 0x7F := UInt32.le_iff_toNat_le.1 h₁
    rw [if_pos h₁, if_pos (by omega), if_pos hn]
    rfl
  have hn₁ : ¬ code.toNat ≤ 0x7F := fun h => h₁ (UInt32.le_iff_toNat_le.2 h)
  rw [if_neg h₁, if_neg hn₁]
  by_cases h₂ : code ≤ 0x7FF
  · have hn : code.toNat ≤ 0x7FF := UInt32.le_iff_toNat_le.1 h₂
    have hlead := byte_toNat code (k := 6) (w := 5) (q := 6) (by decide) (by decide) (by decide)
    rw [Nat.mod_eq_of_lt (by omega)] at hlead
    rw [if_pos h₂, if_pos (by omega), if_pos hn]
    exact congrArg Except.ok (congrArg₂ List.cons hlead (congrArg₂ List.cons hlast rfl))
  have hn₂ : ¬ code.toNat ≤ 0x7FF := fun h => h₂ (UInt32.le_iff_toNat_le.2 h)
  rw [if_neg h₂, if_neg hn₂]
  by_cases h₃ : code ≤ 0xFFFF
  · have hn : code.toNat ≤ 0xFFFF := UInt32.le_iff_toNat_le.1 h₃
    have hlead := byte_toNat code (k := 12) (w := 4) (q := 14) (by decide) (by decide) (by decide)
    rw [Nat.mod_eq_of_lt (by omega)] at hlead
    rw [if_pos h₃, if_pos (by omega), if_pos hn]
    exact congrArg Except.ok (congrArg₂ List.cons hlead
      (congrArg₂ List.cons (htail 6 (by decide)) (congrArg₂ List.cons hlast rfl)))
  have hn₃ : ¬ code.toNat ≤ 0xFFFF := fun h => h₃ (UInt32.le_iff_toNat_le.2 h)
  rw [if_neg h₃, if_neg hn₃]
  by_cases h₄ : code ≤ 0x10FFFF
  · have hn : code.toNat ≤ 0x10FFFF := UInt32.le_iff_toNat_le.1 h₄
    have hlead := byte_toNat code (k := 18) (w := 3) (q := 30) (by decide) (by decide) (by decide)
    rw [Nat.mod_eq_of_lt (by omega)] at hlead
    rw [if_pos h₄, if_pos hn]
    exact congrArg Except.ok (congrArg₂ List.cons hlead (congrArg₂ List.cons (htail 12 (by decide))
      (congrArg₂ List.cons (htail 6 (by decide)) (congrArg₂ List.cons hlast rfl))))
  have hn₄ : ¬ code.toNat ≤ 0x10FFFF := fun h => h₄ (UInt32.le_iff_toNat_le.2 h)
  rw [if_neg h₄, if_neg hn₄]

theorem utf8Encode_ok_iff {code : UInt32} {s : List UInt8} :
    utf8Encode code = .ok s ↔ code.toNat ≤ 0x10FFFF ∧ encode code.toNat = s := by
  rw [utf8Encode_eq]
  split <;> simp_all

/-- The encoding of a sequence of code points. -/
def utf8EncodeAll : List UInt32 → Except Fault (List UInt8)
  | [] => .ok []
  | code :: codes =>
    match utf8Encode code, utf8EncodeAll codes with
    | .ok s, .ok l => .ok (s ++ l)
    | .error f, _ => .error f
    | .ok _, .error f => .error f

theorem utf8EncodeAll_cons {code : UInt32} {codes : List UInt32} {l : List UInt8}
    (h : utf8EncodeAll (code :: codes) = .ok l) :
    ∃ l', code.toNat ≤ 0x10FFFF ∧ utf8EncodeAll codes = .ok l' ∧ l = encode code.toNat ++ l' := by
  cases hs : utf8Encode code with
  | error f => simp only [utf8EncodeAll, hs, reduceCtorEq] at h
  | ok s =>
    cases hl : utf8EncodeAll codes with
    | error f => simp only [utf8EncodeAll, hs, hl, reduceCtorEq] at h
    | ok l' =>
      simp only [utf8EncodeAll, hs, hl, Except.ok.injEq] at h
      obtain ⟨hle, rfl⟩ := utf8Encode_ok_iff.1 hs
      exact ⟨l', hle, rfl, h.symm⟩

theorem utf8EncodeAll_injective {codes codes' : List UInt32} {l : List UInt8} (h : utf8EncodeAll codes = .ok l)
    (h' : utf8EncodeAll codes' = .ok l) : codes' = codes := by
  induction codes generalizing codes' l with
  | nil =>
    cases h
    cases codes' with
    | nil => rfl
    | cons code' codes' =>
      obtain ⟨l', -, -, hl⟩ := utf8EncodeAll_cons h'
      exact absurd (List.append_eq_nil_iff.1 hl.symm).1 (encode_ne_nil _)
  | cons code codes ih =>
    obtain ⟨l₁, hle, h₁, rfl⟩ := utf8EncodeAll_cons h
    cases codes' with
    | nil =>
      rw [utf8EncodeAll, Except.ok.injEq] at h'
      exact absurd (List.append_eq_nil_iff.1 h'.symm).1 (encode_ne_nil _)
    | cons code' codes' =>
      obtain ⟨l₂, hle', h₂, hl⟩ := utf8EncodeAll_cons h'
      obtain ⟨hcode, rfl⟩ := encode_append_inj hle hle' hl
      rw [UInt32.toNat_inj.1 hcode, ih h₁ h₂]

/-- A code point whose encoding the check passes over. -/
def Checkable (n : Nat) : Prop := Scalar n ∧ n < 0x40000

instance (n : Nat) : Decidable (Checkable n) := by unfold Checkable; infer_instance

theorem rejected_iff {a : Nat} (ha : a < 256) : Rejected (UInt8.ofNat a) ↔ 0xF1 ≤ a ∧ a ≤ 0xF4 := by
  have hlo := ofNat_le (a := 0xF1) (by decide) ha
  have hhi := ofNat_le (b := 0xF4) ha (by decide)
  exact and_congr hlo hhi

theorem rejected_encode_iff {n : Nat} (hn : n ≤ 0x10FFFF) : (∃ b ∈ encode n, Rejected b) ↔ 0x40000 ≤ n := by
  unfold encode
  split <;> [skip; split <;> [skip; split]]
  all_goals
    simp (disch := omega) only [List.mem_cons, List.not_mem_nil, or_false, exists_eq_or_imp, exists_eq_left,
      rejected_iff]
    omega

theorem utf8Ok_surrogate {b c : UInt8} {l : List UInt8} (hb : 0xA0 ≤ b) : ¬ Utf8Ok (0xED :: b :: c :: l) := by
  unfold Utf8Ok
  have hgt : b > 0x9F := by grind
  simp [utf8Scan, hgt]

/-- The check passes over the encoding of a scalar value below `40000` and stops at every other. -/
theorem utf8Ok_encode_append {n : Nat} (hn : n ≤ 0x10FFFF) (l : List UInt8) :
    Utf8Ok (encode n ++ l) ↔ Checkable n ∧ Utf8Ok l := by
  by_cases hs : Surrogate n
  · have hno : ¬ Utf8Ok (encode n ++ l) := by
      unfold Surrogate at hs
      unfold encode
      rw [if_neg (by omega), if_neg (by omega), if_pos (by omega), show n / 4096 = 13 by omega]
      exact utf8Ok_surrogate ((ofNat_le (a := 0xA0) (by decide) (by omega)).2 (by omega))
    exact ⟨fun h => absurd h hno, fun h => absurd hs h.1.1.2⟩
  by_cases hlt : n < 0x40000
  · have hseq := (seq_encode_iff hn).2 ⟨hn, hs⟩
    have hr : ∀ b ∈ encode n, ¬ Rejected b := by
      intro b hb hrej
      have := (rejected_encode_iff hn).1 ⟨b, hb, hrej⟩
      omega
    unfold Utf8Ok
    rw [utf8Scan_seq hseq hr]
    exact ⟨fun h => ⟨⟨⟨hn, hs⟩, hlt⟩, h⟩, And.right⟩
  · refine ⟨fun h => ?_, fun h => absurd h.1.2 hlt⟩
    obtain ⟨b, hb, hrej⟩ := (rejected_encode_iff hn).2 (by omega)
    exact absurd hrej ((utf8Ok_iff.1 h).2 b (List.mem_append_left l hb))

theorem utf8EncodeAll_ok_iff {codes : List UInt32} {l : List UInt8} (h : utf8EncodeAll codes = .ok l) :
    Utf8Ok l ↔ ∀ code ∈ codes, Checkable code.toNat := by
  induction codes generalizing l with
  | nil =>
    cases h
    exact ⟨fun _ code hc => absurd hc List.not_mem_nil, fun _ => rfl⟩
  | cons code codes ih =>
    obtain ⟨l', hle, h', rfl⟩ := utf8EncodeAll_cons h
    rw [utf8Ok_encode_append hle, ih h', List.forall_mem_cons]

/-- `pcl_utf8_check` accepts the encoding of a sequence exactly when it has no surrogates and no code point above
`3FFFF`, no other sequence has that encoding, and `pcl_utf8_encode` accepts a code point exactly when it is a scalar
value, unless it is a surrogate. -/
theorem utf8Encode_checks_iff {codes : List UInt32} {l : List UInt8} (hne : codes ≠ [])
    (h : utf8EncodeAll codes = .ok l) (code : UInt32) (e : ErrState) :
    ((∃ e', utf8Check l l.length e = some (0, e')) ∧ (∀ codes', utf8EncodeAll codes' = .ok l → codes' = codes) ∧
      ((∃ s, utf8Encode code = .ok s) ↔ Scalar code.toNat)) ↔
    (e.frozen = true ∨ ∀ code ∈ codes, Checkable code.toNat) ∧ ¬ Surrogate code.toNat := by
  have hlen : 1 ≤ l.length := by
    cases codes with
    | nil => exact absurd rfl hne
    | cons code codes =>
      obtain ⟨l', -, -, rfl⟩ := utf8EncodeAll_cons h
      rw [List.length_append]
      exact Nat.le_add_right_of_le (List.length_pos_iff.2 (encode_ne_nil _))
  have haccept : ((∃ s, utf8Encode code = .ok s) ↔ Scalar code.toNat) ↔ ¬ Surrogate code.toNat := by
    simp only [utf8Encode_ok_iff, exists_and_left, exists_eq', and_true]
    unfold Scalar
    constructor
    · intro hiff hs
      unfold Surrogate at hs
      exact (hiff.1 (by omega)).2 hs
    · exact fun hs => ⟨fun hle => ⟨hle, hs⟩, And.left⟩
  rw [utf8Check_run l hlen e, List.take_length, utf8EncodeAll_ok_iff h, haccept]
  exact ⟨fun hall => ⟨hall.1, hall.2.2⟩, fun hall => ⟨hall.1, fun _ h' => utf8EncodeAll_injective h h', hall.2⟩⟩

/-- U+10000 and U+E9. -/
theorem utf8Encode_checks_iff_two :
    ((∃ e', utf8Check [0xF0, 0x90, 0x80, 0x80, 0xC3, 0xA9] 6 ErrState.zero = some (0, e')) ∧
      (∀ codes', utf8EncodeAll codes' = .ok [0xF0, 0x90, 0x80, 0x80, 0xC3, 0xA9] → codes' = [0x10000, 0xE9]) ∧
      ((∃ s, utf8Encode 0xE9 = .ok s) ↔ Scalar (UInt32.toNat 0xE9))) ↔
    (ErrState.zero.frozen = true ∨ ∀ code ∈ [(0x10000 : UInt32), 0xE9], Checkable code.toNat) ∧
      ¬ Surrogate (UInt32.toNat 0xE9) :=
  @utf8Encode_checks_iff [0x10000, 0xE9] _ (List.cons_ne_nil _ _) rfl 0xE9 ErrState.zero

/-- U+D800 is encoded, and the check rejects its encoding; it rejects U+40000 too. -/
theorem utf8Encode_unchecked :
    utf8EncodeAll [0xD800] = .ok [0xED, 0xA0, 0x80] ∧ ¬ Scalar (UInt32.toNat 0xD800) ∧
      (¬ ∃ e', utf8Check [0xED, 0xA0, 0x80] 3 ErrState.zero = some (0, e')) ∧
    utf8EncodeAll [0x40000] = .ok [0xF1, 0x80, 0x80, 0x80] ∧
      ¬ ∃ e', utf8Check [0xF1, 0x80, 0x80, 0x80] 4 ErrState.zero = some (0, e') := by
  refine ⟨rfl, by decide, ?_, rfl, ?_⟩
  · rw [utf8Check_run _ (by decide)]
    decide
  · rw [utf8Check_run _ (by decide)]
    decide

end Pcl

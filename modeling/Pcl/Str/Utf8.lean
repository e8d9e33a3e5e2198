import Pcl.ErrState
import Pcl.Lib.Utf8

/-!
# `pcl_utf8_check` and `pcl_utf8_encode`

The check accepts the well-formed texts without a sequence that starts with `F1` to `F4`: where the
second byte of such a sequence is tested, the code compares the first byte with `BF` instead.
-/

namespace Pcl

/-- `%02hhx`. -/
def hex2 (b : UInt8) : List Char :=
  [Nat.digitChar (b.toNat / 16), Nat.digitChar (b.toNat % 16)]

/-- An error message that lists the bytes of a sequence. -/
def seqMsg (what : String) (bytes : List UInt8) : CStr :=
  let fields := List.zipWith (fun name b => name ++ "=" ++ String.ofList (hex2 b))
    ["first", "second", "third", "fourth"] bytes
  .lit (what ++ ": " ++ ", ".intercalate fields)

/-- The loop of `pcl_utf8_check` over the bytes from `s` to `end`: the line and the message of the
first error. -/
def utf8Scan : List UInt8 → Option (Int × CStr)
  | [] => none
  | c :: s =>
    if c ≤ 0x7F then
      utf8Scan s
    else if c ≥ 0xC2 ∧ c ≤ 0xDF then
      match s with
      | c2 :: s =>
        if c2 < 0x80 ∨ c2 > 0xBF then some (75, seqMsg "2-byte sequence has invalid 2nd byte" [c, c2])
        else utf8Scan s
      | _ => some (70, seqMsg "2-byte sequence missing byte" [c])
    else if c ≥ 0xE0 ∧ c ≤ 0xEF then
      match s with
      | c2 :: c3 :: s =>
        if c = 0xE0 ∧ (c2 < 0xA0 ∨ c2 > 0xBF) then
          some (90, seqMsg "3-byte sequence has invalid 2nd byte" [c, c2])
        else if c = 0xED ∧ (c2 < 0x80 ∨ c2 > 0x9F) then
          some (96, seqMsg "3-byte sequence has invalid 2nd byte" [c, c2])
        else if c ≠ 0xE0 ∧ c ≠ 0xED ∧ (c2 < 0x80 ∨ c2 > 0xBF) then
          some (101, seqMsg "3-byte sequence has invalid 2nd byte" [c, c2])
        else if c3 < 0x80 ∨ c3 > 0xBF then
          some (108, seqMsg "3-byte sequence has invalid 3rd byte" [c, c2, c3])
        else utf8Scan s
      | _ => some (83, seqMsg "3-byte sequence missing bytes" [c])
    else if c ≥ 0xF0 ∧ c ≤ 0xF4 then
      match s with
      | c2 :: c3 :: c4 :: s =>
        if c = 0xF0 ∧ (c2 < 0x90 ∨ c2 > 0xBF) then
          some (123, seqMsg "4-byte sequence has invalid 2nd byte" [c, c2])
        -- `c`, not `c2`, is compared with 0xBF
        else if c ≠ 0xF0 ∧ (c2 < 0x80 ∨ c > 0xBF) then
          some (128, seqMsg "4-byte sequence has invalid 2nd byte" [c, c2])
        else if c3 < 0x80 ∨ c3 > 0xBF then
          some (135, seqMsg "4-byte sequence has invalid 3rd byte" [c, c2, c3])
        else if c4 < 0x80 ∨ c4 > 0xBF then
          some (141, seqMsg "4-byte sequence has invalid 4th byte" [c, c2, c3, c4])
        else utf8Scan s
      | _ => some (116, seqMsg "4-byte sequence missing bytes" [c])
    else
      some (147, .lit ("invalid first byte: " ++ String.ofList (hex2 c) ++ "x"))

/-- `pcl_utf8_check`; `s` is the memory at the pointer, of at least `len` bytes or with a NUL. -/
def utf8Check (s : List UInt8) (len : Nat) : ErrM Int :=
  let len := if len = 0 then (CStr.ofBytes s).strlen else len
  match utf8Scan (s.take len) with
  | none => pure 0
  | some (line, msg) => errVset (loc "utf8_check.c" "pcl_utf8_check" line) eIlseq 0 (some msg)

/-- `%08x`. -/
def hex8 (n : UInt32) : List Char :=
  (List.range 8).map fun i => Nat.digitChar (n.toNat / 16 ^ (7 - i) % 16)

/-- `pcl_utf8_encode`: the bytes it writes. -/
def utf8Encode (code : UInt32) : Except Fault (List UInt8) :=
  if code ≤ 0x7F then
    .ok [code.toUInt8]
  else if code ≤ 0x07FF then
    .ok [((code >>> 6 &&& 0x1F) ||| 0xC0).toUInt8, ((code >>> 0 &&& 0x3F) ||| 0x80).toUInt8]
  else if code ≤ 0xFFFF then
    .ok [((code >>> 12 &&& 0x0F) ||| 0xE0).toUInt8, ((code >>> 6 &&& 0x3F) ||| 0x80).toUInt8,
      ((code >>> 0 &&& 0x3F) ||| 0x80).toUInt8]
  else if code ≤ 0x10FFFF then
    .ok [((code >>> 18 &&& 0x07) ||| 0xF0).toUInt8, ((code >>> 12 &&& 0x3F) ||| 0x80).toUInt8,
      ((code >>> 6 &&& 0x3F) ||| 0x80).toUInt8, ((code >>> 0 &&& 0x3F) ||| 0x80).toUInt8]
  else
    .error ⟨eInvcodept, 0, some (.lit ("invalid codepoint 0x" ++ String.ofList (hex8 code)))⟩

/-- The code accepts a text. -/
def Utf8Ok (l : List UInt8) : Prop := utf8Scan l = none

instance (l : List UInt8) : Decidable (Utf8Ok l) := by unfold Utf8Ok; infer_instance

/-- A byte that starts one of the 4-byte sequences the code rejects. -/
def Rejected (b : UInt8) : Prop := 0xF1 ≤ b ∧ b ≤ 0xF4

open Utf8

/-- The loop passes over a well-formed sequence, unless it starts with a rejected byte. -/
theorem utf8Scan_seq {s l : List UInt8} (hs : Seq s) (hr : ∀ b ∈ s, ¬ Rejected b) :
    utf8Scan (s ++ l) = utf8Scan l := by
  cases hs with
  | @ascii a ha =>
    rw [List.singleton_append, utf8Scan.eq_def (a :: l)]
    simp only [ha, ↓reduceIte]
  | two | e0 | e1ec | ed | eeef | f0 =>
    unfold Utf8.Cont at *
    simp only [List.cons_append, List.nil_append, utf8Scan]
    grind
  | @f1f3 a b c d ha hb hc hd =>
    have hrej : Rejected a := by
      unfold Rejected
      grind
    exact absurd hrej (hr a (by simp))
  | @f4 b c d hb hc hd =>
    have hrej : Rejected 0xF4 := ⟨by decide, by decide⟩
    exact absurd hrej (hr 0xF4 (by simp))

theorem text_append {s l : List UInt8} (hs : Seq s) (hr : ∀ b ∈ s, ¬ Rejected b)
    (hl : Text l ∧ ∀ b ∈ l, ¬ Rejected b) : Text (s ++ l) ∧ ∀ b ∈ s ++ l, ¬ Rejected b := by
  refine ⟨.cons hs hl.1, ?_⟩
  intro b hb
  rcases List.mem_append.1 hb with hb | hb
  · exact hr b hb
  · exact hl.2 b hb

/-- What the loop accepts is a well-formed text without rejected bytes. -/
theorem Utf8Ok.text {l : List UInt8} (h : Utf8Ok l) : Text l ∧ ∀ b ∈ l, ¬ Rejected b := by
  unfold Utf8Ok at h
  induction hn : l.length using Nat.strong_induction_on generalizing l with
  | _ n ih =>
    subst hn
    rcases l with _ | ⟨c, l⟩
    · exact ⟨.nil, by simp⟩
    unfold utf8Scan at h
    split at h
    · rename_i hc
      refine text_append (.ascii hc) ?_ (ih l.length (by simp) h rfl)
      unfold Rejected
      grind
    split at h
    · rename_i hc
      rcases l with _ | ⟨c2, s⟩
      · cases h
      have hb : Utf8.Cont c2 := by
        unfold Utf8.Cont
        grind
      refine text_append (.two hc hb) ?_ (ih s.length (by simp only [List.length_cons]; omega) (by grind) rfl)
      unfold Rejected Utf8.Cont at *
      grind
    split at h
    · rename_i hc
      rcases l with _ | ⟨c2, _ | ⟨c3, s⟩⟩
      · cases h
      · cases h
      have hc3 : Utf8.Cont c3 := by
        unfold Utf8.Cont
        grind
      have hseq : Seq [c, c2, c3] := by
        by_cases he0 : c = 0xE0
        · subst he0
          exact .e0 (by grind) hc3
        by_cases hed : c = 0xED
        · subst hed
          exact .ed (by grind) hc3
        have hc2 : Utf8.Cont c2 := by
          unfold Utf8.Cont
          grind
        by_cases hlt : c ≤ 0xEC
        · exact .e1ec (by grind) hc2 hc3
        · exact .eeef (by grind) hc2 hc3
      refine text_append hseq ?_ (ih s.length (by simp only [List.length_cons]; omega) (by grind) rfl)
      unfold Rejected Utf8.Cont at *
      grind
    split at h
    · rcases l with _ | ⟨c2, _ | ⟨c3, _ | ⟨c4, s⟩⟩⟩
      · cases h
      · cases h
      · cases h
      -- the test of `c` against `BF` leaves `F0` only
      have hc0 : c = 0xF0 := by grind
      subst hc0
      refine text_append (.f0 (by grind) (show Utf8.Cont c3 by unfold Utf8.Cont; grind)
        (show Utf8.Cont c4 by unfold Utf8.Cont; grind)) ?_
        (ih s.length (by simp only [List.length_cons]; omega) (by grind) rfl)
      unfold Rejected at *
      grind
    · cases h

/-- The code accepts exactly the well-formed texts without rejected bytes. -/
theorem utf8Ok_iff {l : List UInt8} : Utf8Ok l ↔ Text l ∧ ∀ b ∈ l, ¬ Rejected b := by
  constructor
  · exact Utf8Ok.text
  · rintro ⟨htext, hr⟩
    induction htext with
    | nil => rfl
    | @cons s l hs hl ih =>
      have hl' := ih fun b hb => hr b (List.mem_append_right s hb)
      unfold Utf8Ok at hl' ⊢
      rw [utf8Scan_seq hs fun b hb => hr b (List.mem_append_left l hb), hl']

theorem utf8Check_run (s : List UInt8) {len : Nat} (hlen : 1 ≤ len) (e : ErrState) :
    (∃ e', utf8Check s len e = some (0, e')) ↔ e.frozen = true ∨ Utf8Ok (s.take len) := by
  unfold utf8Check Utf8Ok
  simp only [show len ≠ 0 by omega, ↓reduceIte]
  cases hs : utf8Scan (s.take len) with
  | none => simp
  | some p =>
    simp only [errVset_run _ _ _ _ _ (show eIlseq ≠ eOkay by decide)]
    cases e.frozen <;> simp

/-- The check succeeds exactly on the well-formed texts, when it can report an error and the text is
not a well-formed one with a rejected byte. -/
theorem utf8Check_iff_text (s : List UInt8) {len : Nat} (hlen : 1 ≤ len) (e : ErrState) :
    ((∃ e', utf8Check s len e = some (0, e')) ↔ Text (s.take len)) ↔
      if e.frozen then Text (s.take len) else ¬ (Text (s.take len) ∧ ∃ b ∈ s.take len, Rejected b) := by
  rw [utf8Check_run s hlen e, utf8Ok_iff]
  by_cases hf : e.frozen
  · simp [hf]
  · simp only [hf, Bool.false_eq_true, false_or, ↓reduceIte]
    constructor
    · rintro h ⟨htext, b, hb, hr⟩
      exact (h.2 htext).2 b hb hr
    · intro h
      refine ⟨fun hok => hok.1, fun htext => ⟨htext, ?_⟩⟩
      intro b hb hr
      exact h ⟨htext, b, hb, hr⟩

theorem utf8Check_iff_text_euro : ((∃ e', utf8Check [0xE2, 0x82, 0xAC] 3 ErrState.zero = some (0, e')) ↔
      Text (List.take 3 [0xE2, 0x82, 0xAC])) ↔ ¬ (Text (List.take 3 [0xE2, 0x82, 0xAC]) ∧
      ∃ b ∈ List.take 3 [0xE2, 0x82, 0xAC], Rejected b) :=
  utf8Check_iff_text [0xE2, 0x82, 0xAC] (show 1 ≤ 3 by decide) ErrState.zero

/-- U+40000 is rejected. -/
theorem utf8Check_rejects : ¬ ((∃ e', utf8Check [0xF1, 0x80, 0x80, 0x80] 4 ErrState.zero = some (0, e')) ↔
    Text [0xF1, 0x80, 0x80, 0x80]) := by
  have htext : Text [0xF1, 0x80, 0x80, 0x80] :=
    .cons (.f1f3 (by decide) (by decide) (by decide) (by decide)) .nil
  rw [utf8Check_run _ (by decide)]
  intro h
  rcases h.2 htext with hf | hok
  · exact absurd hf (by decide)
  · exact absurd hok (by decide)

end Pcl

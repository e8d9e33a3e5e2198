import Pcl.Lib.Block
import Pcl.Str.Decode
import Pcl.Str.Search

/-!
# The hexadecimal round trip

`pcl_hex_encode` of `src/string/hex_encode.c` against `pcl_hex_decode`. Between the two loops stand the pairs of digits
of a byte string: `hexPairs` is what the encoder writes, `hexBytes` what the decoder stores. The decoder asks for two
characters before it takes the "0x" away, so the bare prefix is a string of no bytes to it.
-/

namespace Pcl

/-- `hex_table`. -/
def hexTable : List UInt8 := txt "0123456789abcdef"

/-- What the loop of `pcl_hex_encode` writes. -/
def hexPairs : List UInt8 → List UInt8
  | [] => []
  | dp :: data => hexTable.getD ((dp &&& 0xF0) >>> 4).toNat 0 :: hexTable.getD (dp &&& 0x0F).toNat 0 :: hexPairs data

/-- `pcl_hex_encode`; `buf` is the memory of `size` bytes. -/
def hexEncode (buf data : List UInt8) : ErrM (Int × List UInt8) :=
  if buf.length < (data.length * 2 + 1) % 2 ^ 64 then do
    let r ← setErr (loc "hex_encode.c" "pcl_hex_encode" 49) eBuf
    return (r, buf)
  else
    match Block.store buf 0 (hexPairs data ++ [0]) with
    | none => ErrM.undef
    | some buf => return (Int.bmod (data.length * 2) (2 ^ 32), buf)

/-- The string is a nonempty even number of hexadecimal digits in either case, with an optional "0x" before them. -/
def HexString (h : List UInt8) : Prop :=
  ∃ digits, (h = digits ∨ h = txt "0x" ++ digits) ∧ digits ≠ [] ∧ digits.length % 2 = 0 ∧ ∀ c ∈ digits, digitVal c < 16

/-- The bytes of pairs of hexadecimal digits. -/
def hexBytes : List UInt8 → List UInt8
  | h1 :: h2 :: hex => UInt8.ofNat (digitVal h1 * 16 + digitVal h2) :: hexBytes hex
  | _ => []

/-! ### Digits -/

/-- `chr2bin` knows the hexadecimal digits and their values. -/
theorem chr2bin_eq (c : UInt8) : chr2bin c = if digitVal c < 16 then some (UInt8.ofNat (digitVal c)) else none := by
  revert c
  exact byte_all (by decide +kernel)

theorem hexTable_spec : ∀ n < 16, digitVal (hexTable.getD n 0) = n ∧ hexTable.getD n 0 ≠ 0 := by decide

theorem hexTable_digitVal (c : UInt8) (h : digitVal c < 16) : hexTable.getD (digitVal c) 0 = Tolower.ascii.fn c := by
  revert h
  revert c
  exact byte_all (by decide +kernel)

theorem nibbles (b : UInt8) : ((b &&& 0xF0) >>> 4).toNat = b.toNat / 16 ∧ (b &&& 0x0F).toNat = b.toNat % 16 := by
  revert b
  exact byte_all (by decide +kernel)

theorem nibbles_or : ∀ m < 16, ∀ n < 16,
    UInt8.ofNat m <<< 4 ||| UInt8.ofNat n = UInt8.ofNat (m * 16 + n) := by
  decide

/-! ### The two loops -/

theorem hexPairs_length (d : List UInt8) : (hexPairs d).length = d.length * 2 := by
  induction d with
  | nil => rfl
  | cons b d ih =>
    rw [hexPairs, List.length_cons, List.length_cons, List.length_cons, ih]
    omega

theorem hexPairs_spec (d : List UInt8) : ∀ c ∈ hexPairs d, digitVal c < 16 ∧ c ≠ 0 := by
  induction d with
  | nil =>
    intro c hc
    cases hc
  | cons b d ih =>
    intro c hc
    have hbyte : b.toNat < 256 := b.toNat_lt_size
    have hhigh := hexTable_spec (b.toNat / 16) (by omega)
    have hlow := hexTable_spec (b.toNat % 16) (by omega)
    rw [hexPairs, (nibbles b).1, (nibbles b).2] at hc
    rcases List.mem_cons.1 hc with rfl | hc
    · exact ⟨by omega, hhigh.2⟩
    · rcases List.mem_cons.1 hc with rfl | hc
      · exact ⟨by omega, hlow.2⟩
      · exact ih c hc

theorem hexBytes_hexPairs (d : List UInt8) : hexBytes (hexPairs d) = d := by
  induction d with
  | nil => rfl
  | cons b d ih =>
    have hbyte : b.toNat < 256 := b.toNat_lt_size
    have hhigh := hexTable_spec (b.toNat / 16) (by omega)
    have hlow := hexTable_spec (b.toNat % 16) (by omega)
    have hb : b.toNat / 16 * 16 + b.toNat % 16 = b.toNat := by omega
    rw [hexPairs, hexBytes, (nibbles b).1, (nibbles b).2, hhigh.1, hlow.1, hb, UInt8.ofNat_toNat, ih]

theorem hexBytes_length : ∀ hex : List UInt8, (hexBytes hex).length = hex.length / 2
  | [] => rfl
  | [_] => by simp [hexBytes]
  | h1 :: h2 :: hex => by
    rw [hexBytes, List.length_cons, List.length_cons, List.length_cons, hexBytes_length hex]
    omega

/-- The encoder writes the digits in lower case. -/
theorem hexPairs_hexBytes : ∀ hex : List UInt8, hex.length % 2 = 0 → (∀ c ∈ hex, digitVal c < 16) →
    hexPairs (hexBytes hex) = hex.map Tolower.ascii.fn
  | [], _, _ => rfl
  | [c], heven, _ => by cases heven
  | h1 :: h2 :: hex, heven, hdigits => by
    have h₁ := hdigits h1 List.mem_cons_self
    have h₂ := hdigits h2 (List.mem_cons_of_mem _ List.mem_cons_self)
    have hrest := hexPairs_hexBytes hex (by simp only [List.length_cons] at heven; omega)
      fun c hc => hdigits c (List.mem_cons_of_mem _ (List.mem_cons_of_mem _ hc))
    have hbyte : (UInt8.ofNat (digitVal h1 * 16 + digitVal h2)).toNat = digitVal h1 * 16 + digitVal h2 := by
      rw [UInt8.toNat_ofNat']
      omega
    rw [hexBytes, hexPairs, (nibbles _).1, (nibbles _).2, hbyte, hrest,
      show (digitVal h1 * 16 + digitVal h2) / 16 = digitVal h1 by omega,
      show (digitVal h1 * 16 + digitVal h2) % 16 = digitVal h2 by omega,
      hexTable_digitVal h1 h₁, hexTable_digitVal h2 h₂]
    rfl

/-- The loop of `pcl_hex_decode` stores the bytes of the digits and nothing else. -/
theorem hexLoop_digits : ∀ (hex b : List UInt8) (i : Nat), hex.length % 2 = 0 → (∀ c ∈ hex, digitVal c < 16) →
    i + hex.length / 2 ≤ b.length →
      hexLoop b i hex = (true, b.take i ++ hexBytes hex ++ b.drop (i + hex.length / 2))
  | [], b, i, _, _, _ => by simp [hexLoop, hexBytes]
  | [c], _, _, heven, _, _ => by cases heven
  | h1 :: h2 :: hex, b, i, heven, hdigits, hfit => by
    have h₁ := hdigits h1 List.mem_cons_self
    have h₂ := hdigits h2 (List.mem_cons_of_mem _ List.mem_cons_self)
    have hlen : (h1 :: h2 :: hex).length / 2 = hex.length / 2 + 1 := by
      simp only [List.length_cons]
      omega
    rw [hlen] at hfit ⊢
    have hrest := hexLoop_digits hex (b.set i (UInt8.ofNat (digitVal h1 * 16 + digitVal h2))) (i + 1)
      (by simp only [List.length_cons] at heven; omega)
      (fun c hc => hdigits c (List.mem_cons_of_mem _ (List.mem_cons_of_mem _ hc)))
      (by rw [List.length_set]; omega)
    have htake : (b.set i (UInt8.ofNat (digitVal h1 * 16 + digitVal h2))).take (i + 1) =
        b.take i ++ [UInt8.ofNat (digitVal h1 * 16 + digitVal h2)] := by
      rw [List.take_add_one, List.take_set_of_le (Nat.le_refl i), List.getElem?_set_self (by omega)]
      rfl
    simp only [hexLoop, chr2bin_eq, if_pos h₁, if_pos h₂, nibbles_or _ h₁ _ h₂, hexBytes]
    rw [hrest, htake, List.drop_set_of_lt (by omega), List.append_assoc, List.append_assoc, List.append_assoc,
      show i + 1 + hex.length / 2 = i + (hex.length / 2 + 1) by omega]
    rfl

/-! ### The functions -/

theorem hexString_iff (h : CStr) : HexString h.bytes ↔
    hexDigits h ≠ [] ∧ (hexDigits h).length % 2 = 0 ∧ ∀ c ∈ hexDigits h, digitVal c < 16 := by
  constructor
  · rintro ⟨digits, heq | heq, hne, heven, hdigits⟩
    · -- an 'x' is no digit
      have hpre : ¬ txt "0x" <+: h.bytes := by
        rintro ⟨rest, hrest⟩
        have hx : ch 'x' ∈ digits := by
          rw [← heq, ← hrest]
          exact List.mem_append_left _ (by decide)
        exact absurd (hdigits _ hx) (by decide)
      rw [hexDigits, if_neg hpre, heq]
      exact ⟨hne, heven, hdigits⟩
    · have hdrop : h.bytes.drop 2 = digits := by
        rw [heq]
        rfl
      rw [hexDigits, if_pos ⟨digits, heq.symm⟩, hdrop]
      exact ⟨hne, heven, hdigits⟩
  · rintro ⟨hne, heven, hdigits⟩
    refine ⟨hexDigits h, ?_, hne, heven, hdigits⟩
    unfold hexDigits
    split
    case isTrue hpre =>
      obtain ⟨rest, hrest⟩ := hpre
      rw [← hrest]
      exact .inr rfl
    case isFalse => exact .inl rfl

/-- With room for the digits and the NUL, the encoder writes both and leaves the rest. -/
theorem hexEncode_ok {buf data : List UInt8} (hfit : data.length * 2 + 1 ≤ buf.length) (e : ErrState) :
    hexEncode buf data e = some ((Int.bmod (data.length * 2) (2 ^ 32),
      hexPairs data ++ 0 :: buf.drop (data.length * 2 + 1)), e) := by
  have hwrap : (data.length * 2 + 1) % 2 ^ 64 ≤ data.length * 2 + 1 := Nat.mod_le _ _
  have hlen : (hexPairs data ++ [0]).length = data.length * 2 + 1 := by
    rw [List.length_append, hexPairs_length]
    rfl
  have hstore : Block.store buf 0 (hexPairs data ++ [0]) =
      some (hexPairs data ++ 0 :: buf.drop (data.length * 2 + 1)) := by
    rw [Block.store_front _ _ (by omega), hlen, List.append_assoc]
    rfl
  unfold hexEncode
  rw [if_neg (by omega), hstore]
  rfl

/-- What the encoder left in the buffer is the text of the bytes. -/
theorem hexEncode_text (data rest : List UInt8) : (CStr.ofBytes (hexPairs data ++ 0 :: rest)).bytes = hexPairs data :=
  ofBytes_append_nul (fun h => (hexPairs_spec data 0 h).2 rfl) rest

/-- The decoder stores the bytes of a hexadecimal string and returns how many these are, as an `int`. -/
theorem hexDecode_digits {h : CStr} {buf : List UInt8} (hhex : HexString h.bytes)
    (hfit : max 2 ((hexDigits h).length / 2) ≤ buf.length) (e : ErrState) :
    hexDecode (some buf) (some h) e = some ((Int.bmod ((hexDigits h).length / 2 : Nat) (2 ^ 32),
      some (hexBytes (hexDigits h) ++ (buf.set 0 0).drop ((hexDigits h).length / 2))), e) := by
  obtain ⟨hne, heven, hdigits⟩ := (hexString_iff h).1 hhex
  have hpos := List.length_pos_iff.2 hne
  have hlen : h.strlen = (hexDigits h).length ∨ h.strlen = (hexDigits h).length + 2 := by
    unfold hexDigits CStr.strlen
    split
    case isTrue hpre =>
      obtain ⟨rest, hrest⟩ := hpre
      rw [← hrest]
      exact .inr rfl
    case isFalse => exact .inl rfl
  have hloop := hexLoop_digits (hexDigits h) (buf.set 0 0) 0 heven hdigits
    (by rw [List.length_set]; omega)
  unfold hexDecode
  simp only [hloop, List.length_set]
  rw [if_neg (by omega), if_neg (by omega), if_neg (by omega), List.take_zero, List.nil_append, Nat.zero_add]
  rfl

/-- It takes the bare prefix for a string of no bytes. -/
theorem hexDecode_bare {h : CStr} {buf : List UInt8} (hpre : h.bytes = txt "0x") (hfit : 2 ≤ buf.length)
    (e : ErrState) : hexDecode (some buf) (some h) e = some ((0, some (buf.set 0 0)), e) := by
  have hdigits : hexDigits h = [] := by
    unfold hexDigits
    rw [hpre]
    rfl
  have hlen : h.strlen = 2 := by
    unfold CStr.strlen
    rw [hpre]
    rfl
  unfold hexDecode
  simp only [hdigits, hlen, hexLoop, List.length_nil]
  rw [if_neg (by omega), if_neg (by omega), if_neg (by omega)]
  rfl

/-- Any other string is refused. -/
theorem hexDecode_refuses {h : CStr} {buf : List UInt8} (hhex : ¬ HexString h.bytes) (hpre : h.bytes ≠ txt "0x")
    (hfit : max 2 ((hexDigits h).length / 2) ≤ buf.length) (e : ErrState) :
    ∃ out l err, err ≠ eOkay ∧ hexDecode (some buf) (some h) e =
      some ((if e.frozen then 0 else -1, some out), e.raised l err 0 none) := by
  unfold hexDecode
  simp only [List.length_set]
  rw [if_neg (by omega)]
  by_cases hbad : h.strlen < 2 ∨ h.strlen % 2 ≠ 0
  · rw [if_pos hbad]
    refine ⟨buf.set 0 0, loc "hex_decode.c" "pcl_hex_decode" 66, eInval, by decide, ?_⟩
    simp only [ErrM.bind_run, badArg_run, Option.bind_some, ErrM.pure_run]
  · rw [if_neg hbad, if_neg (by omega)]
    have heven : (hexDigits h).length % 2 = 0 := hexDigits_even (by omega) (by omega)
    have hne : hexDigits h ≠ [] := by
      unfold hexDigits
      split
      case isTrue hp =>
        obtain ⟨rest, hrest⟩ := hp
        intro hnil
        rw [← hrest] at hnil
        refine hpre ?_
        rw [← hrest, show rest = [] from hnil, List.append_nil]
      case isFalse =>
        intro hnil
        unfold CStr.strlen at hbad
        rw [hnil] at hbad
        exact hbad (.inl (by decide))
    have hnot : ∃ c ∈ hexDigits h, chr2bin c = none := by
      by_contra hall
      refine hhex ((hexString_iff h).2 ⟨hne, heven, fun c hc => ?_⟩)
      by_contra hc16
      refine hall ⟨c, hc, ?_⟩
      rw [chr2bin_eq, if_neg hc16]
    have hloop := (hexLoop_iff (hexDigits h) (buf.set 0 0) 0 heven).2 hnot
    generalize hexLoop (buf.set 0 0) 0 (hexDigits h) = p at hloop ⊢
    obtain ⟨ok, out⟩ := p
    cases hloop
    refine ⟨out, loc "hex_decode.c" "pcl_hex_decode" 81, eFormat, by decide, ?_⟩
    simp only [ErrM.bind_run, setErr_run _ _ _ (show eFormat ≠ eOkay by decide), Option.bind_some, ErrM.pure_run]

/-! ### Both together -/

/-- The text that the encoder leaves of `d` is decoded to `d`. -/
def HexRoundTrip (d ebuf dbuf : List UInt8) : Prop :=
  ∀ e, ∃ n text r out, hexEncode ebuf d e = some ((n, text), e) ∧
    hexDecode (some dbuf) (some (.ofBytes text)) e = some ((r, some out), e) ∧ r = d.length ∧ out.take d.length = d

/-- A hexadecimal string is accepted, and its bytes are encoded to its digits in lower case; any other is refused with
an error. -/
def HexDecodes (h : CStr) (dbuf : List UInt8) : Prop :=
  ∀ e, ∃ r out e', hexDecode (some dbuf) (some h) e = some ((r, some out), e') ∧
    (HexString h.bytes → e' = e ∧ r = ((hexDigits h).length / 2 : Nat) ∧
      ∀ ebuf : List UInt8, r.toNat * 2 + 1 ≤ ebuf.length → ∃ n text, hexEncode ebuf (out.take r.toNat) e = some ((n, text), e) ∧
        (CStr.ofBytes text).bytes = (hexDigits h).map Tolower.ascii.fn) ∧
    (¬ HexString h.bytes → ∃ l err, err ≠ eOkay ∧ r = (if e.frozen then 0 else -1) ∧ e' = e.raised l err 0 none)

theorem not_hexString_bare : ¬ HexString (txt "0x") := by
  rintro ⟨digits, heq | heq, hne, -, hdigits⟩
  · have hx : ch 'x' ∈ digits := by
      rw [← heq]
      decide
    exact absurd (hdigits _ hx) (by decide)
  · exact hne (List.append_right_eq_self.1 heq.symm)

theorem hexRoundTrip_iff {d ebuf dbuf : List UInt8} (hd : d ≠ []) (he : d.length * 2 + 1 ≤ ebuf.length)
    (hdec : max 2 d.length ≤ dbuf.length) : HexRoundTrip d ebuf dbuf ↔ d.length < 2 ^ 31 := by
  have htext := hexEncode_text d (ebuf.drop (d.length * 2 + 1))
  have hpos := List.length_pos_iff.2 hd
  have hhex : HexString (hexPairs d) := by
    refine ⟨hexPairs d, .inl rfl, ?_, ?_, fun c hc => (hexPairs_spec d c hc).1⟩
    · rw [← List.length_pos_iff, hexPairs_length]
      omega
    · rw [hexPairs_length]
      omega
  generalize htxt : CStr.ofBytes (hexPairs d ++ 0 :: ebuf.drop (d.length * 2 + 1)) = text at htext
  have hdigits : hexDigits text = hexPairs d := by
    unfold hexDigits
    rw [htext, if_neg]
    rintro ⟨rest, hrest⟩
    have hx : ch 'x' ∈ hexPairs d := by
      rw [← hrest]
      exact List.mem_append_left _ (by decide)
    exact absurd (hexPairs_spec d _ hx).1 (by decide)
  have hhalf : (hexDigits text).length / 2 = d.length := by
    rw [hdigits, hexPairs_length]
    omega
  have hdecode : ∀ e, hexDecode (some dbuf) (some text) e =
      some ((Int.bmod d.length (2 ^ 32), some (d ++ (dbuf.set 0 0).drop d.length)), e) := by
    intro e
    have hrun := hexDecode_digits (htext.symm ▸ hhex : HexString text.bytes) (by rw [hhalf]; exact hdec) e
    rw [hhalf, hdigits, hexBytes_hexPairs] at hrun
    exact hrun
  constructor
  · intro h
    obtain ⟨n, text', r, out, henc, hdec', hr, -⟩ := h .zero
    rw [hexEncode_ok he] at henc
    simp only [Option.some.injEq, Prod.mk.injEq] at henc
    rw [← henc.1.2, htxt, hdecode] at hdec'
    simp only [Option.some.injEq, Prod.mk.injEq] at hdec'
    rw [← hdec'.1.1, Int.bmod_def] at hr
    split at hr <;> omega
  · intro hlt e
    refine ⟨_, _, _, d ++ (dbuf.set 0 0).drop d.length, hexEncode_ok he e, ?_, rfl, List.take_left⟩
    rw [htxt, hdecode, Int.bmod_eq_of_le (by omega) (by omega)]

theorem hexDecodes_iff {h : CStr} {dbuf : List UInt8} (hdec : max 2 ((hexDigits h).length / 2) ≤ dbuf.length) :
    HexDecodes h dbuf ↔ h.bytes ≠ txt "0x" ∧ (HexString h.bytes → (hexDigits h).length < 2 ^ 32) := by
  by_cases hpre : h.bytes = txt "0x"
  · refine iff_of_false (fun hok => ?_) fun hne => hne.1 hpre
    obtain ⟨r, out, e', hrun, -, hrefuse⟩ := hok .zero
    obtain ⟨l, err, -, hr, -⟩ := hrefuse (hpre ▸ not_hexString_bare)
    rw [hexDecode_bare hpre (by omega)] at hrun
    cases hrun
    cases hr
  · by_cases hhex : HexString h.bytes
    · obtain ⟨hne, heven, hdigits⟩ := (hexString_iff h).1 hhex
      have hrun := hexDecode_digits hhex hdec
      constructor
      · intro hok
        refine ⟨hpre, fun _ => ?_⟩
        obtain ⟨r, out, e', hrun', haccept, -⟩ := hok .zero
        rw [hrun] at hrun'
        simp only [Option.some.injEq, Prod.mk.injEq] at hrun'
        have hr := (haccept hhex).2.1
        rw [← hrun'.1.1, Int.bmod_def] at hr
        split at hr <;> omega
      · rintro ⟨-, hlt⟩ e
        have hlt := hlt hhex
        refine ⟨_, _, _, hrun e, fun _ => ⟨rfl, Int.bmod_eq_of_le (by omega) (by omega), fun ebuf hebuf => ?_⟩,
          fun hnot => absurd hhex hnot⟩
        rw [Int.bmod_eq_of_le (by omega) (by omega), Int.toNat_natCast] at hebuf ⊢
        have hbytes : (hexBytes (hexDigits h) ++ (dbuf.set 0 0).drop ((hexDigits h).length / 2)).take
            ((hexDigits h).length / 2) = hexBytes (hexDigits h) := by
          rw [← hexBytes_length]
          exact List.take_left
        rw [hbytes]
        refine ⟨_, _, hexEncode_ok (by rw [hexBytes_length]; exact hebuf) e, ?_⟩
        rw [hexEncode_text, hexPairs_hexBytes _ heven hdigits]
    · refine iff_of_true (fun e => ?_) ⟨hpre, fun hhex' => absurd hhex' hhex⟩
      obtain ⟨out, l, err, herr, hrun⟩ := hexDecode_refuses hhex hpre hdec e
      exact ⟨_, _, _, hrun, fun hhex' => absurd hhex' hhex, fun _ => ⟨l, err, herr, rfl, rfl⟩⟩

/-- The round trip needs the number of bytes to be an `int`, the bare prefix is accepted for an empty string. -/
theorem hex_roundTrips_iff (d ebuf dbuf : List UInt8) (h : CStr) (hbuf : List UInt8) (hd : d ≠ [])
    (he : d.length * 2 + 1 ≤ ebuf.length) (hdec : max 2 d.length ≤ dbuf.length)
    (hh : max 2 ((hexDigits h).length / 2) ≤ hbuf.length) :
    (HexRoundTrip d ebuf dbuf ↔ d.length < 2 ^ 31) ∧
      (HexDecodes h hbuf ↔ h.bytes ≠ txt "0x" ∧ (HexString h.bytes → (hexDigits h).length < 2 ^ 32)) :=
  ⟨hexRoundTrip_iff hd he hdec, hexDecodes_iff hh⟩

theorem hex_roundTrips_iff_upper :
    HexRoundTrip [0x4d, 0xff] (List.replicate 5 0) [1, 1] ∧ HexDecodes (.lit "0x4D") [1, 1] := by
  have h := hex_roundTrips_iff [0x4d, 0xff] (List.replicate 5 0) [1, 1] (.lit "0x4D") [1, 1]
    (by decide) (by decide) (by decide) (by decide)
  exact ⟨h.1.2 (by decide), h.2.2 ⟨by decide, fun _ => by decide⟩⟩

/-- The bare prefix denotes no byte and is no error. -/
theorem hexDecode_accepts_bare : ¬ HexDecodes (.lit "0x") [0, 0] := by
  rw [hexDecodes_iff (by decide)]
  exact fun h => h.1 (by decide)

end Pcl

import Pcl.Lib.Base64
import Pcl.Lib.Block
import Pcl.Str.Hex

/-!
# The base64 round trip

`pcl_base64_encode` of `src/string/base64_encode.c` and `pcl_base64_decode` of `src/string/base64_decode.c`. The block
functions of OpenSSL under them are parameters: they take an `int` length, write to the buffer and return a number of
bytes. `EVP_DecodeBlock` counts the bytes of a padded group in full, and `pcl_base64_decode` returns its count.
-/

namespace Pcl

/-- `EVP_EncodeBlock` and `EVP_DecodeBlock`: what they write for the bytes they are given, and what they return. -/
structure Evp where
  encodeBlock : List UInt8 → List UInt8 × Int
  decodeBlock : List UInt8 → List UInt8 × Int

/-- What is known of them: the one writes padded base64 and a NUL and returns the length of the text as far as an `int`
can hold it, the other takes symbols with at most two paddings behind them and returns three bytes a group. -/
structure Evp.Standard (evp : Evp) : Prop where
  writes : ∀ d, (evp.encodeBlock d).1 = Base64.encode d ++ [0]
  returns : ∀ d, (Base64.encode d).length < 2 ^ 31 → (evp.encodeBlock d).2 = (Base64.encode d).length
  decodes : ∀ s k, (∀ c ∈ s, c ∈ Base64.symbols) → k ≤ 2 → (s.length + k) % 4 = 0 →
    evp.decodeBlock (s ++ List.replicate k Base64.pad) =
      (Base64.decode (s ++ List.replicate k Base64.pad), ((3 * ((s.length + k) / 4) : Nat) : Int))

/-- `pcl_base64_encode`; `buf` is the memory of `size` bytes. -/
def base64Encode (evp : Evp) (buf data : Option (List UInt8)) : ErrM (Int × Option (List UInt8)) :=
  match buf, data with
  | some buf, some data =>
    let b64Len := 4 * ((data.length + 2) % 2 ^ 64 / 3)
    if buf.length < (b64Len + 1) % 2 ^ 64 then do
      let r ← setErr (loc "base64_encode.c" "pcl_base64_encode" 45) eBuf
      return (r, some buf)
    else
      let len := Int.bmod data.length (2 ^ 32)
      -- nothing is known of a negative length
      if len < 0 then ErrM.undef
      else
        let res := evp.encodeBlock (data.take len.toNat)
        match Block.store buf 0 res.1 with
        | none => ErrM.undef
        | some buf => return (res.2, some buf)
  | _, _ => do
    let r ← badArg (loc "base64_encode.c" "pcl_base64_encode" 40)
    return (r, buf)

/-- `pcl_base64_decode`. -/
def base64Decode (evp : Evp) (buf : Option (List UInt8)) (b64 : Option CStr) : ErrM (Int × Option (List UInt8)) :=
  match buf, b64 with
  | some buf, some b64 =>
    let len := Int.bmod b64.strlen (2 ^ 32)
    -- the sum overflows
    if len = intMax then ErrM.undef
    else if Int.bmod buf.length (2 ^ 32) < len + 1 then do
      let r ← setErr (loc "base64_decode.c" "pcl_base64_decode" 45) eBuf
      return (r, some buf)
    else if len < 0 then ErrM.undef
    else
      let res := evp.decodeBlock (b64.bytes.take len.toNat)
      match Block.store buf 0 res.1 with
      | none => ErrM.undef
      | some buf => return (res.2, some buf)
  | _, _ => do
    let r ← badArg (loc "base64_decode.c" "pcl_base64_decode" 40)
    return (r, buf)

/-- The text that the encoder leaves of `d` is decoded to the bytes of `d` and their number. -/
def Base64RoundTrip (evp : Evp) (d ebuf dbuf : List UInt8) : Prop :=
  ∀ e, ∃ n text out, base64Encode evp (some ebuf) (some d) e = some ((n, some text), e) ∧
    base64Decode evp (some dbuf) (some (.ofBytes text)) e = some (((d.length : Int), some out), e) ∧ out.take d.length = d

/-- The reference encoding and decoding. -/
def Evp.reference : Evp where
  encodeBlock d := (Base64.encode d ++ [0], (Base64.encode d).length)
  decodeBlock t := (Base64.decode t, ((3 * (t.length / 4) : Nat) : Int))

theorem Evp.reference_standard : Evp.reference.Standard where
  writes _ := rfl
  returns _ _ := rfl
  decodes s k _ _ _ := by
    simp only [Evp.reference, List.length_append, List.length_replicate]

/-! ### The functions on standard text -/

section
variable {evp : Evp} {d ebuf dbuf : List UInt8}

/-- A buffer that is large enough passes the check. -/
theorem base64_room (he : 4 * ((d.length + 2) / 3) + 1 ≤ ebuf.length) :
    ¬ ebuf.length < (4 * ((d.length + 2) % 2 ^ 64 / 3) + 1) % 2 ^ 64 := by
  have hwrap : (d.length + 2) % 2 ^ 64 ≤ d.length + 2 := Nat.mod_le _ _
  have hwrap' : (4 * ((d.length + 2) % 2 ^ 64 / 3) + 1) % 2 ^ 64 ≤ 4 * ((d.length + 2) % 2 ^ 64 / 3) + 1 := Nat.mod_le _ _
  omega

/-- In a buffer that is large enough, the encoder writes the text of as many bytes as an `int` counts. -/
theorem base64Encode_run (hevp : evp.Standard) (he : 4 * ((d.length + 2) / 3) + 1 ≤ ebuf.length)
    (hlen : 0 ≤ Int.bmod d.length (2 ^ 32)) (e : ErrState) :
    ∃ n rest, base64Encode evp (some ebuf) (some d) e =
      some ((n, some (Base64.encode (d.take (Int.bmod d.length (2 ^ 32)).toNat) ++ 0 :: rest)), e) := by
  unfold base64Encode
  simp only [if_neg (base64_room he)]
  generalize Int.bmod d.length (2 ^ 32) = len at hlen ⊢
  have htake : (d.take len.toNat).length ≤ d.length := List.length_take_le' _ _
  have hout : (Base64.encode (d.take len.toNat) ++ [0]).length ≤ ebuf.length := by
    rw [List.length_append, Base64.encode_length, List.length_singleton]
    omega
  rw [if_neg (by omega), hevp.writes, Block.store_front _ _ hout, List.append_assoc, List.singleton_append]
  simp only [ErrM.pure_run]
  exact ⟨_, _, rfl⟩

/-- Nothing is known of a length that an `int` takes for a negative one. -/
theorem base64Encode_negative (he : 4 * ((d.length + 2) / 3) + 1 ≤ ebuf.length) (hlen : Int.bmod d.length (2 ^ 32) < 0)
    (e : ErrState) : base64Encode evp (some ebuf) (some d) e = none := by
  unfold base64Encode
  simp only [if_neg (base64_room he)]
  rw [if_pos hlen]
  rfl

theorem base64Encode_text (d rest : List UInt8) :
    (CStr.ofBytes (Base64.encode d ++ 0 :: rest)).bytes = Base64.encode d :=
  ofBytes_append_nul (Base64.zero_not_mem_encode d) rest

/-- A text whose length and buffer are `int`s is decoded to its bytes with the zeros of the padding; all are counted. -/
theorem base64Decode_run (hevp : evp.Standard) {b64 : CStr} (htext : b64.bytes = Base64.encode d)
    (hlen : (Base64.encode d).length < 2 ^ 31) (hbuf : (Base64.encode d).length + 1 ≤ Int.bmod dbuf.length (2 ^ 32))
    (e : ErrState) : ∃ rest, base64Decode evp (some dbuf) (some b64) e =
      some ((((3 * ((d.length + 2) / 3) : Nat) : Int), some (d ++ rest)), e) := by
  obtain ⟨s, k, hshape, hk, hs⟩ := Base64.encode_shape d
  have hgroups : s.length + k = 4 * ((d.length + 2) / 3) := by
    rw [← Base64.encode_length, hshape, List.length_append, List.length_replicate]
  have hrun := hevp.decodes s k hs hk (by omega)
  rw [← hshape, hgroups, show 4 * ((d.length + 2) / 3) / 4 = (d.length + 2) / 3 by omega] at hrun
  have hstrlen : b64.strlen = (Base64.encode d).length := by
    unfold CStr.strlen
    rw [htext]
  have hint : Int.bmod b64.strlen (2 ^ 32) = (Base64.encode d).length := by
    rw [hstrlen]
    exact Int.bmod_eq_of_le (by omega) (by omega)
  have hsize := bmod_le_self dbuf.length
  have hout : (Base64.decode (Base64.encode d)).length ≤ dbuf.length := by
    rw [Base64.decode_length]
    omega
  have hmax : ((Base64.encode d).length : Int) ≠ intMax := by
    rw [Base64.encode_length]
    unfold intMax
    omega
  unfold base64Decode
  simp only [hint]
  rw [if_neg hmax, if_neg (by omega), if_neg (by omega), htext, Int.toNat_natCast, List.take_length, hrun]
  simp only [Block.store_front _ _ hout]
  rw [Base64.decode_encode, List.append_assoc]
  exact ⟨_, rfl⟩

/-- A text is decoded to a number of bytes only where its length and its buffer are `int`s. -/
theorem base64Decode_fits {b64 : CStr} {t : List UInt8} (htext : b64.bytes = t) (hlen : t.length < 2 ^ 32)
    {e e' : ErrState} {r : Int} {out : Option (List UInt8)} (hf : e.frozen = false) (hr : 0 ≤ r)
    (hrun : base64Decode evp (some dbuf) (some b64) e = some ((r, out), e')) :
    t.length < 2 ^ 31 ∧ t.length + 1 ≤ Int.bmod dbuf.length (2 ^ 32) := by
  have hint : Int.bmod b64.strlen (2 ^ 32) = if t.length < 2 ^ 31 then (t.length : Int) else t.length - 2 ^ 32 := by
    unfold CStr.strlen
    rw [htext, Int.bmod_def]
    split <;> split <;> omega
  unfold base64Decode at hrun
  simp only [hint] at hrun
  generalize Int.bmod dbuf.length (2 ^ 32) = size at hrun ⊢
  by_cases hlen' : t.length < 2 ^ 31
  · simp only [if_pos hlen'] at hrun
    by_cases hmax : (t.length : Int) = intMax
    · rw [if_pos hmax] at hrun
      cases hrun
    · rw [if_neg hmax] at hrun
      by_cases hsize : size < t.length + 1
      · rw [if_pos hsize] at hrun
        simp only [ErrM.bind_run, setErr_run _ _ _ (show eBuf ≠ eOkay by decide), Option.bind_some, ErrM.pure_run, hf] at hrun
        cases hrun
        exact absurd hr (by decide)
      · exact ⟨hlen', by omega⟩
  · simp only [if_neg hlen'] at hrun
    by_cases hmax : (t.length : Int) - 2 ^ 32 = intMax
    · rw [if_pos hmax] at hrun
      cases hrun
    · rw [if_neg hmax] at hrun
      by_cases hsize : size < t.length - 2 ^ 32 + 1
      · rw [if_pos hsize] at hrun
        simp only [ErrM.bind_run, setErr_run _ _ _ (show eBuf ≠ eOkay by decide), Option.bind_some, ErrM.pure_run, hf] at hrun
        cases hrun
        exact absurd hr (by decide)
      · rw [if_neg hsize, if_pos (by omega)] at hrun
        cases hrun

end

/-- The round trip is right just for whole groups of three bytes, when the size of the buffer is an `int`. -/
theorem base64_roundTrips_iff (evp : Evp) (hevp : evp.Standard) (d ebuf dbuf : List UInt8)
    (he : 4 * ((d.length + 2) / 3) + 1 ≤ ebuf.length) :
    Base64RoundTrip evp d ebuf dbuf ↔ d.length % 3 = 0 ∧ 4 * (d.length / 3) + 1 ≤ Int.bmod dbuf.length (2 ^ 32) := by
  have hsize := bmod_le_self dbuf.length
  have hmax : Int.bmod dbuf.length (2 ^ 32) < 2 ^ 31 := Int.bmod_lt (by decide)
  constructor
  · intro h
    obtain ⟨n, text, out, henc, hdec, -⟩ := h .zero
    by_cases hneg : Int.bmod d.length (2 ^ 32) < 0
    · rw [base64Encode_negative he hneg] at henc
      cases henc
    · obtain ⟨n', rest, hrun⟩ := base64Encode_run hevp he (by omega) .zero
      rw [hrun] at henc
      simp only [Option.some.injEq, Prod.mk.injEq] at henc
      have htext : (CStr.ofBytes text).bytes = Base64.encode (d.take (Int.bmod d.length (2 ^ 32)).toNat) := by
        rw [← henc.1.2]
        exact base64Encode_text _ rest
      have hle := bmod_le_self d.length
      have hlt : Int.bmod d.length (2 ^ 32) < 2 ^ 31 := Int.bmod_lt (by decide)
      have htake : (d.take (Int.bmod d.length (2 ^ 32)).toNat).length = (Int.bmod d.length (2 ^ 32)).toNat :=
        List.length_take_of_le (by omega)
      have hlen := Base64.encode_length (d.take (Int.bmod d.length (2 ^ 32)).toNat)
      rw [htake] at hlen
      obtain ⟨hshort, hbuf⟩ := base64Decode_fits htext (by omega) rfl (by omega) hdec
      obtain ⟨rest', hrun'⟩ := base64Decode_run hevp htext hshort hbuf .zero
      rw [hrun'] at hdec
      simp only [Option.some.injEq, Prod.mk.injEq] at hdec
      have hcount := hdec.1.1
      rw [htake] at hcount
      rw [hlen] at hbuf
      -- at most two bytes are missing, so the length was not cut
      have hsame : Int.bmod d.length (2 ^ 32) = d.length := by
        have hmod := Int.bmod_def d.length (2 ^ 32)
        split at hmod <;> omega
      omega
  · rintro ⟨hthree, hfit⟩ e
    have hsame : Int.bmod d.length (2 ^ 32) = d.length := Int.bmod_eq_of_le (by omega) (by omega)
    have hlen := Base64.encode_length d
    obtain ⟨n, rest, hrun⟩ := base64Encode_run hevp he (by omega) e
    rw [hsame, Int.toNat_natCast, List.take_length] at hrun
    obtain ⟨rest', hrun'⟩ := base64Decode_run hevp (base64Encode_text d rest) (by omega) (by omega : _ ≤ Int.bmod dbuf.length (2 ^ 32)) e
    refine ⟨n, _, d ++ rest', hrun, ?_, List.take_left⟩
    rw [hrun', show 3 * ((d.length + 2) / 3) = d.length by omega]

theorem base64_roundTrips_iff_man :
    Base64RoundTrip .reference [0x4d, 0x61, 0x6e] (List.replicate 5 0) (List.replicate 5 0) :=
  (base64_roundTrips_iff .reference Evp.reference_standard [0x4d, 0x61, 0x6e] (List.replicate 5 0) (List.replicate 5 0)
    (by decide)).2 ⟨by decide, by decide⟩

/-- One byte comes back as three. -/
theorem base64_counts_padding : Evp.reference.Standard ∧
    ¬ Base64RoundTrip .reference [0x4d] (List.replicate 5 0) (List.replicate 5 0) := by
  refine ⟨Evp.reference_standard, fun h => ?_⟩
  obtain ⟨n, text, out, henc, hdec, -⟩ := h .zero
  have hrun : base64Encode .reference (some (List.replicate 5 0)) (some [0x4d]) .zero =
      some ((4, some (txt "TQ==" ++ [0])), .zero) := by decide +kernel
  rw [hrun] at henc
  simp only [Option.some.injEq, Prod.mk.injEq] at henc
  have hrun' : base64Decode .reference (some (List.replicate 5 0)) (some (.ofBytes (txt "TQ==" ++ [0]))) .zero =
      some ((3, some [0x4d, 0, 0, 0, 0]), .zero) := by decide +kernel
  rw [← henc.1.2, hrun'] at hdec
  simp only [Option.some.injEq, Prod.mk.injEq] at hdec
  exact absurd hdec.1.1 (by decide)

end Pcl

import Pcl.Lib.Block
import Pcl.ErrState
import Pcl.Str.Search

/-!
# Slices and bounded copies

`pcl_strslice`, whose range check is a sum of 64 bits, and `pcl_strncpy`, `pcl_strncat` and `pcl_strtrunc`, which write
to a destination of a given size. A string in memory ends with its NUL; what is read or written outside a block is
undefined.
-/

namespace Pcl

/-! ### Slices -/

/-- `pcl_strslice`. -/
def strslice (s : Option CStr) (pos len : UInt64) : ErrM (Option CStr) :=
  match s with
  | none => setErrNull (loc "strslice.c" "pcl_strslice" 38) eInval
  | some s =>
    if (pos + len).toNat > s.strlen then setErrNull (loc "strslice.c" "pcl_strslice" 41) eIndex
    else
      match strndupAt (s.bytes ++ [0]) pos.toNat len.toNat with
      | none => ErrM.undef
      | some (d, _) => return some (.ofBytes d)

/-- The characters from `pos` on when they are there, an error otherwise. -/
def StrsliceMeets (s : CStr) (pos len : UInt64) : Prop :=
  ∀ e, ∃ r e', strslice (some s) pos len e = some (r, e') ∧
    (pos.toNat + len.toNat ≤ s.strlen →
      (∃ d : CStr, r = some d ∧ d.bytes = (s.bytes.drop pos.toNat).take len.toNat) ∧ e' = e) ∧
    (s.strlen < pos.toNat + len.toNat → r = none ∧ ∃ l err, err ≠ eOkay ∧ e' = e.raised l err 0 none)

section
variable {s : CStr} {pos len : UInt64}

theorem strslice_refuses (h : s.strlen < (pos + len).toNat) (e : ErrState) :
    strslice (some s) pos len e = some (none, e.raised (loc "strslice.c" "pcl_strslice" 41) eIndex 0 none) := by
  unfold strslice
  simp only [if_pos h]
  exact setErrNull_run _ _ _ (by decide)

/-- A length of zero copies the rest. -/
theorem strslice_zero (h : pos.toNat ≤ s.strlen) (e : ErrState) :
    ∃ d : CStr, strslice (some s) pos 0 e = some (some d, e) ∧ d.bytes = s.bytes.drop pos.toNat := by
  have hrest : (0 : UInt8) ∉ s.bytes.drop pos.toNat := fun h0 => s.nul_free (List.mem_of_mem_drop h0)
  have hdrop : (s.bytes ++ [0]).drop pos.toNat = s.bytes.drop pos.toNat ++ [0] := List.drop_append_of_le_length h
  have htext : (s.bytes.drop pos.toNat ++ [0]).takeWhile (· != 0) = s.bytes.drop pos.toNat :=
    ofBytes_append_nul hrest []
  have hread : strndupAt (s.bytes ++ [0]) pos.toNat 0 =
      some (s.bytes.drop pos.toNat, pos.toNat + (s.bytes.drop pos.toNat).length + 1) := by
    unfold CStr.strlen at h
    unfold strndupAt
    rw [if_pos rfl]
    simp only [hdrop, htext]
    rw [if_pos]
    rw [List.length_drop, List.length_append, List.length_singleton]
    omega
  have hsum : ¬ (pos + 0).toNat > s.strlen := by
    rw [UInt64.add_zero]
    omega
  refine ⟨.ofBytes (s.bytes.drop pos.toNat), ?_, ofBytes_of_nul_free hrest⟩
  unfold strslice
  simp only [if_neg hsum]
  rw [show (0 : UInt64).toNat = 0 from rfl, hread]
  rfl

/-- Any other length copies that many characters. -/
theorem strslice_copies (hlen : len ≠ 0) (h : pos.toNat + len.toNat ≤ s.strlen) (hsum : (pos + len).toNat ≤ s.strlen)
    (e : ErrState) : ∃ d : CStr, strslice (some s) pos len e = some (some d, e) ∧
      d.bytes = (s.bytes.drop pos.toNat).take len.toNat := by
  have hne : ¬ len.toNat = 0 := fun h0 => hlen (UInt64.toNat_inj.1 h0)
  have hread : strndupAt (s.bytes ++ [0]) pos.toNat len.toNat =
      some ((s.bytes.drop pos.toNat).take len.toNat, pos.toNat + len.toNat) := by
    unfold CStr.strlen at h
    unfold strndupAt
    rw [if_neg hne, if_pos (by rw [List.length_append]; omega),
      List.drop_append_of_le_length (by omega), List.take_append_of_le_length (by rw [List.length_drop]; omega)]
  refine ⟨.ofBytes ((s.bytes.drop pos.toNat).take len.toNat), ?_, ofBytes_of_nul_free fun h0 =>
    s.nul_free (List.mem_of_mem_drop (List.mem_of_mem_take h0))⟩
  unfold strslice
  simp only [if_neg (Nat.not_lt.2 hsum)]
  rw [hread]
  rfl

end

/-- A slice is right just when it does not ask for nothing in front of the end and the sum that is checked is at most the
length only if the true one is. -/
theorem strslice_meets_iff (s : CStr) (pos len : UInt64) : StrsliceMeets s pos len ↔
    (len = 0 → s.strlen ≤ pos.toNat) ∧ ((pos + len).toNat ≤ s.strlen → pos.toNat + len.toNat ≤ s.strlen) := by
  constructor
  · intro h
    obtain ⟨r, e', hrun, hok, hbad⟩ := h .zero
    refine ⟨fun hlen => ?_, fun hsum => ?_⟩
    · subst hlen
      by_contra hpos
      obtain ⟨d, hrun', hd⟩ := strslice_zero (Nat.le_of_lt (Nat.not_le.1 hpos)) .zero
      obtain ⟨⟨d', hr, hd'⟩, -⟩ := hok (by rw [show (0 : UInt64).toNat = 0 from rfl]; omega)
      rw [hrun'] at hrun
      cases hrun
      cases hr
      have hlong := congrArg List.length (hd.symm.trans hd')
      unfold CStr.strlen at hpos
      rw [List.length_drop, List.length_take, show (0 : UInt64).toNat = 0 from rfl] at hlong
      omega
    · by_contra hbig
      -- the check is passed, so nothing is refused
      unfold strslice at hrun
      simp only [if_neg (Nat.not_lt.2 hsum)] at hrun
      cases hread : strndupAt (s.bytes ++ [0]) pos.toNat len.toNat with
      | none =>
        rw [hread] at hrun
        cases hrun
      | some p =>
        rw [hread] at hrun
        cases hrun
        cases (hbad (by omega)).1
  · rintro ⟨hzero, hwrap⟩ e
    by_cases hsum : (pos + len).toNat ≤ s.strlen
    · have htrue := hwrap hsum
      by_cases hlen : len = 0
      · subst hlen
        rw [UInt64.add_zero] at hsum
        obtain ⟨d, hrun, hd⟩ := strslice_zero hsum e
        refine ⟨_, _, hrun, fun _ => ⟨⟨d, rfl, ?_⟩, rfl⟩, fun hbig => by omega⟩
        rw [hd, List.drop_eq_nil_of_le (hzero rfl), List.take_nil]
      · obtain ⟨d, hrun, hd⟩ := strslice_copies hlen htrue hsum e
        exact ⟨_, _, hrun, fun _ => ⟨⟨d, rfl, hd⟩, rfl⟩, fun hbig => by omega⟩
    · have hle : (pos + len).toNat ≤ pos.toNat + len.toNat := by
        rw [UInt64.toNat_add]
        exact Nat.mod_le _ _
      refine ⟨_, _, strslice_refuses (by omega) e, fun hfit => by omega, fun _ => ⟨rfl, _, eIndex, by decide, rfl⟩⟩

/-- A slice of no characters is the whole string. -/
theorem strslice_empty : ¬ StrsliceMeets (.lit "abc") 0 0 := by
  intro h
  obtain ⟨r, e', hrun, hok, -⟩ := h .zero
  obtain ⟨⟨d, hr, hd⟩, -⟩ := hok (by decide)
  have hrun' : strslice (some (.lit "abc")) 0 0 .zero = some (some (.lit "abc"), .zero) := by decide
  rw [hrun'] at hrun
  cases hrun
  cases hr
  exact absurd hd (by decide)

/-! ### Copies -/

/-- `n` characters of `src` and a NUL behind them, stored at `off`. -/
def copyText (dest : List UInt8) (off : Nat) (src : CStr) (n : Nat) : Option (List UInt8) :=
  (Block.load (src.bytes ++ [0]) 0 n).bind fun s => (Block.store dest off s).bind fun dest => Block.store dest (off + n) [0]

/-- `pcl_strncpy`; `dest` is the memory of `size` bytes, the answer is whether it is returned. -/
def strncpy (dest : Option (List UInt8)) (src : Option CStr) (len : UInt64) : ErrM (Bool × Option (List UInt8)) :=
  match dest with
  | none | some [] => do
    let _ ← setErr (loc "strncpy.c" "pcl_strncpy" 38) eBuf
    return (false, dest)
  | some (_ :: rest) =>
    let dest := 0 :: rest
    match src with
    | none => return (false, some dest)
    | some src =>
      let len := if len = 0 then src.strlen else len.toNat
      if len = 0 then return (true, some dest)
      else if len ≥ dest.length then do
        let _ ← setErr (loc "strncpy.c" "pcl_strncpy" 48) eBuf
        return (false, some dest)
      else
        match copyText dest 0 src len with
        | none => ErrM.undef
        | some dest => return (true, some dest)

/-- `pcl_strncat`. -/
def strncat (dest : Option (List UInt8)) (src : Option CStr) (len : UInt64) : ErrM (Bool × Option (List UInt8)) :=
  match dest with
  | none | some [] => return (false, dest)
  | some dest =>
    match src with
    | none => return (true, some dest)
    | some src =>
      let len := if len = 0 then src.strlen else len.toNat
      if len = 0 then return (true, some dest)
      -- `strlen` of what has no NUL
      else if 0 ∉ dest then ErrM.undef
      else
        let destLen := (CStr.ofBytes dest).strlen
        let avail := Int.bmod dest.length (2 ^ 64) - Int.bmod destLen (2 ^ 64)
        -- the difference of two `int64_t` overflows
        if avail < -2 ^ 63 then ErrM.undef
        else if avail ≤ 0 then return (true, some dest)
        else if len ≥ avail.toNat then return (false, some dest)
        else
          match copyText dest destLen src len with
          | none => ErrM.undef
          | some dest => return (true, some dest)

/-- `pcl_strtrunc`; the lengths are unsigned. -/
def strtrunc (dest : List UInt8) (src : CStr) : Option (List UInt8) :=
  let srcLen := if dest.length ≤ src.strlen then (dest.length + (2 ^ 64 - 1)) % 2 ^ 64 else src.strlen
  (Block.load (src.bytes ++ [0]) 0 ((srcLen + 1) % 2 ^ 64)).bind (Block.store dest 0)

/-- A destination: an object of at least one byte, whose size a `ptrdiff_t` can hold. -/
structure Dest where
  mem : List UInt8
  ne_nil : mem ≠ []
  fits : mem.length < 2 ^ 63

/-- What a copy leaves in a destination when it wants `text` there: a terminated string, and `text` if it succeeds, as it
does when there is room. -/
structure Leaves (dest out text : List UInt8) (ok : Bool) : Prop where
  length_eq : out.length = dest.length
  terminated : 0 ∈ out
  succeeds : ok = true ↔ text.length < dest.length
  copied : ok = true → (CStr.ofBytes out).bytes = text

/-- The characters of `src` that a count asks for. -/
def counted (src : CStr) (len : UInt64) : List UInt8 := if len = 0 then src.bytes else src.bytes.take len.toNat

/-- The destination holds the counted characters. -/
def StrncpyMeets (dest : List UInt8) (src : CStr) (len : UInt64) : Prop :=
  ∀ e, ∃ ok out e', strncpy (some dest) (some src) len e = some ((ok, some out), e') ∧ Leaves dest out (counted src len) ok

/-- The destination holds its text with the counted characters behind it. -/
def StrncatMeets (dest : List UInt8) (src : CStr) (len : UInt64) : Prop :=
  ∀ e, ∃ ok out e', strncat (some dest) (some src) len e = some ((ok, some out), e') ∧
    Leaves dest out ((CStr.ofBytes dest).bytes ++ counted src len) ok ∧ (ok = false → out = dest)

/-- The destination holds as much of the string as fits. -/
def StrtruncMeets (dest : List UInt8) (src : CStr) : Prop :=
  ∃ out, strtrunc dest src = some out ∧ out.length = dest.length ∧ 0 ∈ out ∧
    (CStr.ofBytes out).bytes = src.bytes.take (dest.length - 1)

section
variable {dest : List UInt8} {src : CStr} {len : UInt64} {n off : Nat}

theorem copyText_run (hn : n ≤ src.strlen) (hfit : off + n < dest.length) :
    copyText dest off src n = some (dest.take off ++ (src.bytes.take n ++ 0 :: dest.drop (off + n + 1))) := by
  unfold CStr.strlen at hn
  have htake : (src.bytes.take n).length = n := List.length_take_of_le hn
  have hoff : (dest.take off).length = off := List.length_take_of_le (by omega)
  have hload : Block.load (src.bytes ++ [0]) 0 n = some (src.bytes.take n) := by
    rw [Block.load_front _ (by rw [List.length_append]; omega), List.take_append_of_le_length hn]
  have hstore : Block.store dest off (src.bytes.take n) = some (dest.take off ++ (src.bytes.take n ++ dest.drop (off + n))) := by
    unfold Block.store
    rw [htake, if_pos (by omega), List.append_assoc]
  have hpre : (dest.take off ++ src.bytes.take n).length = off + n := by
    rw [List.length_append, hoff, htake]
  have hnul := Block.store_append_drop (dest.take off ++ src.bytes.take n) [0] (dest.drop (off + n))
    (by rw [List.length_drop, List.length_singleton]; omega)
  rw [hpre, List.append_assoc, List.append_assoc, List.singleton_append, List.length_singleton, List.drop_drop] at hnul
  unfold copyText
  rw [hload, Option.bind_some, hstore, Option.bind_some, hnul]

theorem counted_length (hlen : len.toNat ≤ src.strlen) :
    (counted src len).length = if len = 0 then src.strlen else len.toNat := by
  unfold counted
  split
  · rfl
  · exact List.length_take_of_le hlen

theorem take_counted : src.bytes.take (if len = 0 then src.strlen else len.toNat) = counted src len := by
  unfold counted
  split
  · exact List.take_length
  · rfl

theorem zero_not_mem_counted : (0 : UInt8) ∉ counted src len := by
  unfold counted
  split
  · exact src.nul_free
  · exact fun h => src.nul_free (List.mem_of_mem_take h)

theorem terminated_split {l : List UInt8} (h : (0 : UInt8) ∈ l) : ∃ rest, l = (CStr.ofBytes l).bytes ++ 0 :: rest := by
  induction l with
  | nil => cases h
  | cons b l ih =>
    by_cases hb : b = 0
    · subst hb
      exact ⟨l, rfl⟩
    · obtain ⟨rest, hrest⟩ := ih ((List.mem_cons.1 h).resolve_left (Ne.symm hb))
      have hcons : (CStr.ofBytes (b :: l)).bytes = b :: (CStr.ofBytes l).bytes := by
        unfold CStr.ofBytes
        simp [hb]
      refine ⟨rest, ?_⟩
      rw [hcons, List.cons_append, ← hrest]

theorem counted_le (hlen : len.toNat ≤ src.strlen) : (if len = 0 then src.strlen else len.toNat) ≤ src.strlen := by
  split
  · exact Nat.le_refl _
  · exact hlen

theorem strncpy_meets (hne : dest ≠ []) (hlen : len.toNat ≤ src.strlen) : StrncpyMeets dest src len := by
  intro e
  have hcount := counted_length hlen
  have htake : src.bytes.take (if len = 0 then src.strlen else len.toNat) = counted src len := take_counted
  have hle := counted_le hlen
  cases dest with
  | nil => exact absurd rfl hne
  | cons b rest =>
    unfold strncpy
    simp only
    generalize (if len = 0 then src.strlen else len.toNat) = n at hcount htake hle ⊢
    by_cases hn : n = 0
    · rw [if_pos hn]
      have hnil := List.eq_nil_of_length_eq_zero (hcount.trans hn)
      refine ⟨true, 0 :: rest, e, rfl, ⟨rfl, List.mem_cons_self, iff_of_true rfl ?_, fun _ => ?_⟩⟩
      · rw [hnil]
        exact Nat.succ_pos _
      · rw [hnil]
        rfl
    · rw [if_neg hn]
      by_cases hbig : n ≥ (0 :: rest).length
      · rw [if_pos hbig]
        simp only [ErrM.bind_run, setErr_run _ _ _ (show eBuf ≠ eOkay by decide), Option.bind_some, ErrM.pure_run]
        refine ⟨false, 0 :: rest, _, rfl, ⟨rfl, List.mem_cons_self, iff_of_false Bool.false_ne_true ?_, fun h => ?_⟩⟩
        · rw [hcount]
          exact Nat.not_lt.2 hbig
        · cases h
      · have hfit : 0 + n < (0 :: rest).length := by omega
        rw [if_neg hbig, copyText_run hle hfit, htake, List.take_zero, List.nil_append]
        refine ⟨true, _, e, rfl, ⟨?_, by simp, iff_of_true rfl ?_, fun _ => ?_⟩⟩
        · rw [List.length_append, hcount, List.length_cons, List.length_drop]
          simp only [List.length_cons] at hfit ⊢
          omega
        · rw [hcount]
          simp only [List.length_cons] at hfit ⊢
          omega
        · exact ofBytes_append_nul zero_not_mem_counted _

/-- A whole string that fits is copied, and no error is set. -/
theorem strncpy_copies (hfit : src.strlen < dest.length) (e : ErrState) :
    ∃ out, strncpy (some dest) (some src) 0 e = some ((true, some out), e) ∧ (CStr.ofBytes out).bytes = src.bytes := by
  cases dest with
  | nil => exact absurd hfit (Nat.not_lt_zero _)
  | cons b rest =>
    unfold strncpy
    simp only [if_true]
    by_cases hn : src.strlen = 0
    · rw [if_pos hn]
      exact ⟨0 :: rest, rfl, (List.eq_nil_of_length_eq_zero hn).symm⟩
    · have hroom : 0 + src.strlen < ((0 : UInt8) :: rest).length := by
        rw [Nat.zero_add]
        exact hfit
      have hbig : ¬ src.strlen ≥ ((0 : UInt8) :: rest).length := Nat.not_le.2 hfit
      rw [if_neg hn, if_neg hbig, copyText_run (Nat.le_refl _) hroom, List.take_zero, List.nil_append]
      have htake : src.bytes.take src.strlen = src.bytes := List.take_length
      exact ⟨_, rfl, by rw [htake]; exact ofBytes_append_nul src.nul_free _⟩

theorem strncat_meets (hfits : dest.length < 2 ^ 63) (hterm : 0 ∈ dest) (hlen : len.toNat ≤ src.strlen) :
    StrncatMeets dest src len := by
  intro e
  have hcount := counted_length hlen
  have htake : src.bytes.take (if len = 0 then src.strlen else len.toNat) = counted src len := take_counted
  have hle := counted_le hlen
  obtain ⟨rest, hrest⟩ := terminated_split hterm
  have hdest := congrArg List.length hrest
  rw [List.length_append, List.length_cons] at hdest
  have hsize : Int.bmod dest.length (2 ^ 64) = dest.length := Int.bmod_eq_of_le (by omega) (by omega)
  have htext : Int.bmod (CStr.ofBytes dest).strlen (2 ^ 64) = (CStr.ofBytes dest).bytes.length :=
    Int.bmod_eq_of_le (by unfold CStr.strlen; omega) (by unfold CStr.strlen; omega)
  have hrun : strncat (some dest) (some src) len = let n := if len = 0 then src.strlen else len.toNat
      if n = 0 then return (true, some dest)
      else if n ≥ dest.length - (CStr.ofBytes dest).bytes.length then return (false, some dest)
      else
        match copyText dest (CStr.ofBytes dest).bytes.length src n with
        | none => ErrM.undef
        | some dest => return (true, some dest) := by
    have havail : ((dest.length : Int) - (CStr.ofBytes dest).bytes.length).toNat =
        dest.length - (CStr.ofBytes dest).bytes.length := by omega
    have hlow : ¬ (dest.length : Int) - (CStr.ofBytes dest).bytes.length < -2 ^ 63 := by omega
    have hpos : ¬ (dest.length : Int) - (CStr.ofBytes dest).bytes.length ≤ 0 := by omega
    cases dest with
    | nil => cases hterm
    | cons b l =>
      unfold strncat
      simp only [hsize, htext, hterm, not_true_eq_false, if_false, if_neg hlow, if_neg hpos, havail]
      rfl
  rw [hrun]
  simp only
  generalize (if len = 0 then src.strlen else len.toNat) = n at hcount htake hle ⊢
  by_cases hn : n = 0
  · rw [if_pos hn]
    have hnil := List.eq_nil_of_length_eq_zero (hcount.trans hn)
    refine ⟨true, dest, e, rfl, ⟨rfl, hterm, iff_of_true rfl ?_, fun _ => ?_⟩, fun h => by cases h⟩
    · rw [List.length_append, hcount]
      omega
    · rw [hnil, List.append_nil]
  · rw [if_neg hn]
    by_cases hbig : n ≥ dest.length - (CStr.ofBytes dest).bytes.length
    · rw [if_pos hbig]
      refine ⟨false, dest, e, rfl, ⟨rfl, hterm, iff_of_false Bool.false_ne_true ?_, fun h => by cases h⟩, fun _ => rfl⟩
      rw [List.length_append, hcount]
      omega
    · have hpre : dest.take (CStr.ofBytes dest).bytes.length = (CStr.ofBytes dest).bytes := by
        have htake' := congrArg (List.take (CStr.ofBytes dest).bytes.length) hrest
        rwa [List.take_left] at htake'
      rw [if_neg hbig, copyText_run hle (by omega), htake, hpre, ← List.append_assoc]
      have hfree : (0 : UInt8) ∉ (CStr.ofBytes dest).bytes ++ counted src len := by
        rw [List.mem_append]
        rintro (h | h)
        · exact (CStr.ofBytes dest).nul_free h
        · exact zero_not_mem_counted h
      refine ⟨true, _, e, rfl, ⟨?_, by simp, iff_of_true rfl ?_, fun _ => ofBytes_append_nul hfree _⟩, fun h => by cases h⟩
      · rw [List.length_append, List.length_append, hcount, List.length_cons, List.length_drop]
        omega
      · rw [List.length_append, hcount]
        omega

theorem strtrunc_fits (hfits : dest.length < 2 ^ 63) (h : src.strlen < dest.length) :
    strtrunc dest src = some (src.bytes ++ 0 :: dest.drop (src.strlen + 1)) := by
  unfold CStr.strlen at h
  have hall : (src.strlen + 1) % 2 ^ 64 = (src.bytes ++ [0]).length := by
    unfold CStr.strlen
    rw [List.length_append, List.length_singleton]
    omega
  have hload : Block.load (src.bytes ++ [0]) 0 (src.bytes ++ [0]).length = some (src.bytes ++ [0]) := by
    rw [Block.load_front _ (Nat.le_refl _), List.take_length]
  have hstore := Block.store_front (src.bytes ++ [0]) dest (by rw [List.length_append, List.length_singleton]; omega)
  rw [List.append_assoc, List.length_append, List.length_singleton] at hstore
  have hcut : ¬ dest.length ≤ src.strlen := by
    unfold CStr.strlen
    omega
  unfold strtrunc
  simp only [if_neg hcut, hall, hload, Option.bind_some]
  exact hstore

/-- A string that does not fit fills the destination to its last byte. -/
theorem strtrunc_fills (hne : dest ≠ []) (hfits : dest.length < 2 ^ 63) (h : dest.length ≤ src.strlen) :
    strtrunc dest src = some (src.bytes.take dest.length) := by
  have hpos := List.length_pos_iff.2 hne
  have hcut := h
  unfold CStr.strlen at h
  have hall : ((dest.length + (2 ^ 64 - 1)) % 2 ^ 64 + 1) % 2 ^ 64 = dest.length := by omega
  have hload : Block.load (src.bytes ++ [0]) 0 dest.length = some (src.bytes.take dest.length) := by
    rw [Block.load_front _ (by rw [List.length_append]; omega), List.take_append_of_le_length h]
  have hlen : (src.bytes.take dest.length).length = dest.length := List.length_take_of_le h
  have hstore : Block.store dest 0 (src.bytes.take dest.length) = some (src.bytes.take dest.length) := by
    rw [Block.store_front _ _ (by omega), hlen, List.drop_length, List.append_nil]
  unfold strtrunc
  simp only [if_pos hcut, hall, hload, Option.bind_some, hstore]

theorem strtrunc_meets_iff (hne : dest ≠ []) (hfits : dest.length < 2 ^ 63) :
    StrtruncMeets dest src ↔ src.strlen < dest.length := by
  constructor
  · rintro ⟨out, hrun, -, hterm, -⟩
    by_contra hlong
    rw [strtrunc_fills hne hfits (by omega)] at hrun
    cases hrun
    exact src.nul_free (List.mem_of_mem_take hterm)
  · intro h
    refine ⟨_, strtrunc_fits hfits h, ?_, by simp, ?_⟩
    · unfold CStr.strlen at h ⊢
      rw [List.length_append, List.length_cons, List.length_drop]
      omega
    · unfold CStr.strlen at h
      rw [ofBytes_append_nul src.nul_free, List.take_of_length_le (by omega)]

end

/-- The copy and the concatenation are right for every destination, the truncating copy where nothing is cut off. -/
theorem boundedCopies_meet_iff (dest : Dest) (src : CStr) (len : UInt64) (hlen : len.toNat ≤ src.strlen) :
    StrncpyMeets dest.mem src len ∧ (0 ∈ dest.mem → StrncatMeets dest.mem src len) ∧
      (StrtruncMeets dest.mem src ↔ src.strlen < dest.mem.length) :=
  ⟨strncpy_meets dest.ne_nil hlen, fun hterm => strncat_meets dest.fits hterm hlen,
    strtrunc_meets_iff dest.ne_nil dest.fits⟩

theorem boundedCopies_meet_iff_fits : StrncpyMeets [0, 1, 1] (.lit "ab") 1 ∧ StrncatMeets [0, 1, 1] (.lit "ab") 1 ∧
    StrtruncMeets [0, 1, 1] (.lit "ab") := by
  have h := boundedCopies_meet_iff ⟨[0, 1, 1], by simp, by decide⟩ (.lit "ab") 1 (by decide)
  exact ⟨h.1, h.2.1 (by decide), h.2.2.2 (by decide)⟩

/-- A string as long as the destination leaves no NUL in it. -/
theorem strtrunc_unterminated : ¬ StrtruncMeets [1, 1] (.lit "ab") := by
  rintro ⟨out, hrun, -, hterm, -⟩
  have hrun' : strtrunc [1, 1] (.lit "ab") = some (txt "ab") := by decide
  rw [hrun'] at hrun
  cases hrun
  exact absurd hterm (by decide)

end Pcl

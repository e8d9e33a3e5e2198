import Pcl.ErrState

/-!
# Signed numerals

`strtoll` and `strtol` of the C library in bases 10 and 16 (both are 64 bits wide), and the functions
of `src/strint` over them. `strtoi.c` does not include `limits.h`, so both sides of its `#if` are zero and the branch that
cuts the `long` down to an `int` is the one that is built.
-/

namespace Pcl

/-- The value of a digit or a letter. -/
def digitVal (b : UInt8) : Nat :=
  if isdigit b then b.toNat - (ch '0').toNat
  else if ch 'a' ≤ b ∧ b ≤ ch 'z' then b.toNat - (ch 'a').toNat + 10
  else if ch 'A' ≤ b ∧ b ≤ ch 'Z' then b.toNat - (ch 'A').toNat + 10
  else 36

/-- What holds of the 256 numbers holds of every byte. -/
theorem byte_all {P : UInt8 → Prop} (h : ∀ n : Nat, n < 256 → P (UInt8.ofNat n)) (b : UInt8) : P b := by
  have hb := h b.toNat b.toNat_lt_size
  rwa [UInt8.ofNat_toNat] at hb

/-- The number that digits denote. -/
def numeral (base : Nat) (digits : List UInt8) : Nat := digits.foldl (fun n b => n * base + digitVal b) 0

/-- The optional sign of a numeral: whether it is a minus, and what follows. -/
def scanSign : List UInt8 → Bool × List UInt8
  | b :: s => if b = ch '-' then (true, s) else if b = ch '+' then (false, s) else (false, b :: s)
  | [] => (false, [])

/-- The optional `0x` of base 16, which a digit has to follow. -/
def skipPrefix (base : Nat) : List UInt8 → List UInt8
  | z :: x :: d :: s =>
    if base = 16 ∧ z = ch '0' ∧ (x = ch 'x' ∨ x = ch 'X') ∧ digitVal d < 16 then d :: s else z :: x :: d :: s
  | s => s

/-- What `strtoll` reads: the number and the rest of the text, nothing where there is no digit. -/
def scanNumeral (base : Nat) (s : List UInt8) : Option (Int × List UInt8) :=
  let (neg, s) := scanSign (s.dropWhile isspace)
  let s := skipPrefix base s
  let digits := s.takeWhile fun b => digitVal b < base
  if digits.isEmpty then none
  else
    let n : Int := numeral base digits
    some (if neg then -n else n, s.dropWhile fun b => digitVal b < base)

def llongMin : Int := -2 ^ 63
def llongMax : Int := 2 ^ 63 - 1
def intMin : Int := -2 ^ 31
def intMax : Int := 2 ^ 31 - 1

/-- The operating system's `ERANGE`. -/
def osErange : UInt32 := 34

/-- `pcl_strtoll`: the number, and the text `endptr` points to. -/
def strtoll (s : List UInt8) (base : Nat) : Except Fault (Int × List UInt8) :=
  if s.headD 0 = 0 then .error ⟨eInval, 0, none⟩
  else
    match scanNumeral base s with
    | none => .error ⟨eInval, 0, some (.lit "no digits founds")⟩
    | some (n, rest) =>
      if n < llongMin then .error ⟨eRange, osErange, some (.lit "underflow occurred")⟩
      else if n > llongMax then .error ⟨eRange, osErange, some (.lit "overflow occurred")⟩
      else .ok (n, rest)

/-- `pcl_strtol`. -/
def strtol (s : List UInt8) (base : Nat) : Except Fault (Int × List UInt8) :=
  if s.headD 0 = 0 then .error ⟨eInval, 0, some (.lit "empty input string")⟩
  else
    match scanNumeral base s with
    | none => .error ⟨eInval, 0, some (.lit "no digits founds")⟩
    | some (n, rest) =>
      if n < llongMin then .error ⟨eRange, osErange, some (.lit "underflow occurred")⟩
      else if n > llongMax then .error ⟨eRange, osErange, some (.lit "overflow occurred")⟩
      else .ok (n, rest)

/-- `(int)`. -/
def toInt (n : Int) : Int := Int.bmod n (2 ^ 32)

/-- `pcl_strtoi`. -/
def strtoi (s : List UInt8) (base : Nat) : Except Fault (Int × List UInt8) :=
  match strtol s base with
  | .error e => .error e
  | .ok (n, rest) => .ok (toInt n, rest)

theorem toInt_range (n : Int) : intMin ≤ toInt n ∧ toInt n ≤ intMax := by
  have hmin : -2 ^ 31 ≤ toInt n := Int.le_bmod (by decide)
  have hmax : toInt n < 2 ^ 31 := Int.bmod_lt (by decide)
  unfold intMin intMax
  omega

theorem toInt_eq {n : Int} (h : -2 ^ 31 ≤ n ∧ n < 2 ^ 31) : toInt n = n := by
  unfold toInt
  rw [Int.bmod_eq_of_le (by omega) (by omega)]

/-! ### With the error state -/

/-- `pcl_strtol` in base 10: the return value, the number if it was stored, and the text `endptr` points
to. -/
def pclStrtol (s : List UInt8) : ErrM (Int × Option Int × List UInt8) :=
  if s.headD 0 = 0 then do
    let r ← setErrMsg (loc "strtol.c" "pcl_strtol" 48) eInval "empty input string"
    return (r, none, s)
  else
    match scanNumeral 10 s with
    | none => do
      let r ← setErrMsg (loc "strtol.c" "pcl_strtol" 64) eInval "no digits founds"
      return (r, none, s)
    | some (n, rest) =>
      if n < llongMin ∨ n > llongMax then do
        let r ← errVset (loc "strtol.c" "pcl_strtol" 58) eRange osErange
          (some (.lit (if n < llongMin then "underflow occurred" else "overflow occurred")))
        return (r, none, rest)
      else return (0, some n, rest)

/-- `pcl_strtoi` in base 10. -/
def pclStrtoi (s : List UInt8) : ErrM (Int × Option Int × List UInt8) := do
  let (r, n, rest) ← pclStrtol s
  if r ≠ 0 then
    let r ← trc (loc "strtoi.c" "pcl_strtoi" 49)
    return (r, none, rest)
  else
    match n with
    -- a frozen state made the failure look like a success: `r` was not initialised
    | none => ErrM.undef
    | some n => return (0, some (toInt n), rest)

end Pcl

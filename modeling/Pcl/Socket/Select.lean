import Pcl.Str.Strtol
import Mathlib.Data.Rat.Floor

/-!
# The timeout of `pcl_select`

`src/socket/select.c` on Unix. The clock is a `long double`: its arithmetic rounds, but an integer of at most 64
bits is not changed. What is left of the timeout is computed field by field, without a borrow and without a
clamp at zero.
-/

namespace Pcl

/-- Rounding to a `long double` with a mantissa of 64 bits. -/
structure LongDouble where
  round : ℚ → ℚ
  round_nat : ∀ n : ℕ, n < 2 ^ 64 → round n = n

/-- `PCL_USECS`. -/
def usecs : Int := 1000000

/-- `pcl_usecdiff`, between two readings of the clock in nanoseconds. -/
def pclUsecdiff (ld : LongDouble) (start stop : ℚ) : ℚ := ld.round (ld.round (stop - start) / 1000)

/-- Readings that are whole microseconds apart. -/
theorem pclUsecdiff_nat (ld : LongDouble) {start stop : ℚ} {d : ℕ} (h : stop - start = 1000 * d) (hd : 1000 * d < 2 ^ 64) :
    pclUsecdiff ld start stop = d := by
  have hdiff : ld.round (stop - start) = 1000 * d := by
    have hround := ld.round_nat (1000 * d) hd
    rw [Nat.cast_mul] at hround
    rw [h]
    exact hround
  unfold pclUsecdiff
  rw [hdiff, mul_div_cancel_left₀ _ (by norm_num)]
  exact ld.round_nat d (by omega)

def InLong (i : Int) : Prop := llongMin ≤ i ∧ i ≤ llongMax

instance (i : Int) : Decidable (InLong i) := inferInstanceAs (Decidable (llongMin ≤ i ∧ i ≤ llongMax))

/-- `struct timeval`; both fields are `long`. -/
structure Timeval where
  sec : Int
  usec : Int
  sec_long : InLong sec
  usec_long : InLong usec

namespace Timeval

/-- A time value, where its fields have not overflowed. -/
def ofInts (sec usec : Int) : ErrM Timeval :=
  if h : InLong sec ∧ InLong usec then return ⟨sec, usec, h.1, h.2⟩ else ErrM.undef

def zero : Timeval := ⟨0, 0, by decide, by decide⟩

structure Normalised (tv : Timeval) : Prop where
  sec_nonneg : 0 ≤ tv.sec
  usec_nonneg : 0 ≤ tv.usec
  usec_lt : tv.usec < usecs

/-- The time in microseconds. -/
def total (tv : Timeval) : Int := tv.sec * usecs + tv.usec

end Timeval

/-- What `select` returns, what it leaves in the sets and in the timeout, and `errno` behind it. -/
structure SelectAnswer (σ : Type) where
  n : Int
  sets : σ
  tv : Option Timeval
  oserr : UInt32

/-- `(int64_t) d`. -/
def toInt64 (d : ℚ) : ErrM Int :=
  let i := d.num.tdiv d.den
  if InLong i then return i else ErrM.undef

/-- `pcl_select`, where the clock reads `start` and `stop`. -/
def pclSelect {σ : Type} (ld : LongDouble) (os2pcl : UInt32 → Int) (start stop : ℚ) (answer : SelectAnswer σ)
    (tv : Option Timeval) : ErrM (Int × σ × Option Timeval) := do
  let n := answer.n
  let tv ← match tv with
    | none => pure answer.tv
    | some tvOrig =>
      -- success or failure, update timeval in either case
      if n ≠ 0 then do
        let diff ← toInt64 (pclUsecdiff ld start stop)
        let tv ← Timeval.ofInts (tvOrig.sec - diff.tdiv usecs) (tvOrig.usec - diff.tmod usecs)
        pure (some tv)
      -- timeout, set to zero
      else pure (some .zero)
  if n = 0 then
    let _ ← setErr (loc "select.c" "pcl_select" 69) eTimeout
    return (0, answer.sets, tv)
  else if n > 0 then return (n, answer.sets, tv)
  else
    let r ← errVset (loc "select.c" "pcl_select" 75) (os2pcl answer.oserr) answer.oserr none
    return (r, answer.sets, tv)

/-- The timeout that is written back is what is left of `tv` after `d` microseconds. -/
def SelectMeets {σ : Type} (ld : LongDouble) (os2pcl : UInt32 → Int) (start stop : ℚ) (answer : SelectAnswer σ)
    (tv : Timeval) (d : ℕ) (e : ErrState) : Prop :=
  ∃ r sets out e', pclSelect ld os2pcl start stop answer (some tv) e = some ((r, sets, some out), e') ∧
    out.Normalised ∧ out.total = max 0 (tv.total - d)

section
variable {σ : Type} {ld : LongDouble} {os2pcl : UInt32 → Int} {start stop : ℚ} {answer : SelectAnswer σ} {tv : Timeval}
  {d : ℕ}

theorem toInt64_nat (d : ℕ) : toInt64 d = if (d : Int) ≤ llongMax then pure (d : Int) else ErrM.undef := by
  unfold toInt64
  simp only [Rat.num_natCast, Rat.den_natCast, Nat.cast_one, Int.tdiv_one]
  by_cases hd : (d : Int) ≤ llongMax
  · rw [if_pos hd, if_pos ⟨Int.le_trans (by decide) (Int.natCast_nonneg d), hd⟩]
  · rw [if_neg hd, if_neg fun h => hd h.2]

/-- The difference of a time value and a number of microseconds, field by field: it has the right total, and is normalised
where neither field would have to borrow. -/
theorem fields_iff (sec : Int) {usec : Int} (husec : 0 ≤ usec) (hlt : usec < usecs) (d : ℕ) :
    (sec - d / usecs) * usecs + (usec - d % usecs) = sec * usecs + usec - d ∧
    (0 ≤ sec - d / usecs ∧ 0 ≤ usec - d % usecs ∧ usec - d % usecs < usecs ↔ d / usecs ≤ sec ∧ d % usecs ≤ usec) := by
  unfold usecs at *
  omega

/-- With something ready, or an error, both fields are written. -/
theorem pclSelect_run (os2pcl : UInt32 → Int) (hd : pclUsecdiff ld start stop = d) (hle : (d : Int) ≤ llongMax)
    (htv : tv.Normalised) (hn : answer.n ≠ 0) (e : ErrState) :
    ∃ r out e', pclSelect ld os2pcl start stop answer (some tv) e = some ((r, answer.sets, some out), e') ∧
      out.sec = tv.sec - d / usecs ∧ out.usec = tv.usec - d % usecs := by
  obtain ⟨hsec, husec, hlt⟩ := htv
  have hlong := tv.sec_long
  have hd0 : (0 : Int) ≤ d := Int.natCast_nonneg d
  have hin : InLong (tv.sec - d / usecs) ∧ InLong (tv.usec - d % usecs) := by
    unfold InLong llongMin llongMax usecs at *
    omega
  have hfields : Timeval.ofInts (tv.sec - d / usecs) (tv.usec - d % usecs) = pure ⟨_, _, hin.1, hin.2⟩ := dif_pos hin
  unfold pclSelect
  simp only [if_pos hn, hd, toInt64_nat, if_pos hle, ErrM.bind_run, ErrM.pure_run, Option.bind_some,
    Int.tdiv_eq_ediv_of_nonneg hd0, Int.tmod_eq_emod_of_nonneg hd0, hfields, if_neg hn]
  by_cases hpos : answer.n > 0
  · rw [if_pos hpos]
    exact ⟨_, _, e, rfl, rfl, rfl⟩
  · obtain ⟨r, e', hret⟩ := errVset_returns e (loc "select.c" "pcl_select" 75) (os2pcl answer.oserr) answer.oserr none
    rw [if_neg hpos, ErrM.bind_run, hret]
    exact ⟨_, _, e', rfl, rfl, rfl⟩

/-- The elapsed time is no `int64_t`. -/
theorem pclSelect_overflow (hd : pclUsecdiff ld start stop = d) (hle : ¬ (d : Int) ≤ llongMax) (hn : answer.n ≠ 0)
    (e : ErrState) : pclSelect ld os2pcl start stop answer (some tv) e = none := by
  unfold pclSelect
  simp only [if_pos hn, hd, toInt64_nat, if_neg hle]
  rfl

/-- The timeout is right just where it is subtracted without a borrow and has not passed. -/
theorem select_meets_iff (ld : LongDouble) (os2pcl : UInt32 → Int) (start stop : ℚ) (answer : SelectAnswer σ)
    (tv : Timeval) (d : ℕ) (hd : pclUsecdiff ld start stop = d) (htv : tv.Normalised) (hn : answer.n ≠ 0)
    (e : ErrState) : SelectMeets ld os2pcl start stop answer tv d e ↔
      (d : Int) ≤ llongMax ∧ d / usecs ≤ tv.sec ∧ d % usecs ≤ tv.usec := by
  obtain ⟨hsec, husec, hlt⟩ := id htv
  obtain ⟨htotal, hiff⟩ := fields_iff tv.sec husec hlt d
  by_cases hle : (d : Int) ≤ llongMax
  · obtain ⟨r, out, e', hrun, hs, hu⟩ := pclSelect_run os2pcl hd hle htv hn e
    rw [← hs, ← hu] at htotal hiff
    rw [and_iff_right hle, ← hiff]
    unfold SelectMeets
    rw [hrun]
    constructor
    · rintro ⟨_, _, _, _, heq, hnorm, -⟩
      cases heq
      exact ⟨hnorm.sec_nonneg, hnorm.usec_nonneg, hnorm.usec_lt⟩
    · rintro ⟨h₁, h₂, h₃⟩
      refine ⟨r, _, out, e', rfl, ⟨h₁, h₂, h₃⟩, ?_⟩
      have hleft : out.total = tv.total - d := htotal
      have hnonneg : 0 ≤ out.total := Int.add_nonneg (Int.mul_nonneg h₁ (by decide)) h₂
      rw [← hleft, max_eq_right hnonneg]
  · refine iff_of_false ?_ fun h => hle h.1
    rintro ⟨_, _, _, _, hrun, -⟩
    rw [pclSelect_overflow hd hle hn] at hrun
    cases hrun

end

/-- A `long double` as long as nothing has to be rounded. -/
def LongDouble.ideal : LongDouble := ⟨id, fun _ _ => rfl⟩

/-- One descriptor is ready. -/
def oneReady : SelectAnswer Unit := ⟨1, (), none, 0⟩

theorem quarter_second : pclUsecdiff .ideal 0 250000000 = (250000 : ℕ) := pclUsecdiff_nat .ideal (by norm_num) (by decide)

/-- A quarter of 1.5 seconds has passed. -/
theorem select_meets_iff_quarter :
    SelectMeets .ideal (fun _ => eInval) 0 250000000 oneReady ⟨1, 500000, by decide, by decide⟩ 250000 .zero :=
  (select_meets_iff .ideal _ 0 250000000 oneReady ⟨1, 500000, by decide, by decide⟩ 250000 quarter_second
    ⟨by decide, by decide, by decide⟩ (by decide) .zero).2 (by decide)

/-- After a quarter of one second the microseconds are negative. -/
theorem select_unnormalised : pclUsecdiff .ideal 0 250000000 = (250000 : ℕ) ∧
    Timeval.Normalised ⟨1, 0, by decide, by decide⟩ ∧
    ¬ SelectMeets .ideal (fun _ => eInval) 0 250000000 oneReady ⟨1, 0, by decide, by decide⟩ 250000 .zero := by
  have hnorm : Timeval.Normalised ⟨1, 0, by decide, by decide⟩ := ⟨by decide, by decide, by decide⟩
  refine ⟨quarter_second, hnorm, ?_⟩
  rintro ⟨_, _, _, _, hrun, hout, -⟩
  obtain ⟨_, out, _, hrun', -, husec⟩ := @pclSelect_run Unit .ideal 0 250000000 oneReady _ _ (fun _ => eInval)
    quarter_second (by decide) hnorm (by decide) .zero
  cases hrun.symm.trans hrun'
  have hneg := hout.usec_nonneg
  rw [husec] at hneg
  exact absurd hneg (by decide)

end Pcl

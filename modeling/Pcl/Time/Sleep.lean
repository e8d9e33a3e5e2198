import Pcl.ErrState
import Mathlib.Algebra.BigOperators.Group.List.Basic

/-!
# Interruptible sleep

`src/time/sleep.c` on Unix. What `nanosleep` does for a chunk is given: the amounts that are left at each of its
interruptions and the error it ends with, if any. The loop takes the `true` that a chunk was slept with for the
-1 of a failure.
-/

namespace Pcl

/-- `PCL_NSECS`. -/
def nsecsPerSec : UInt64 := 1000000000

/-- `struct timespec`. -/
structure Timespec where
  sec : UInt64
  nsec : UInt64
deriving DecidableEq

/-- The calls of `nanosleep` for one amount: what is left at each interruption, and the error of the last call. -/
structure Nap where
  interruptions : List Timespec
  oserr : Option UInt32
deriving DecidableEq

/-- `while(nanosleep(..))` from the amount `amt` on, with the amounts it is called for. -/
def nanosleepLoop (os2pcl : UInt32 → Int) (oserr : Option UInt32) : Timespec → List Timespec → ErrM (Bool × List Timespec)
  | amt, remaining :: more => do
    -- EINTR, continue sleeping for the remaining amount
    let (r, asked) ← nanosleepLoop os2pcl oserr remaining more
    return (r, amt :: asked)
  | amt, [] =>
    match oserr with
    | none => return (true, [amt])
    | some oserr => do
      -- failed (very unlikely)
      let _ ← errVset (loc "sleep.c" "pcl_sleep" 112) (os2pcl oserr) oserr none
      return (false, [amt])

/-- `pcl_sleep` without a condition. -/
def sleepFor (os2pcl : UInt32 → Int) (nsecs : UInt64) (nap : Nap) : ErrM (Bool × List Timespec) :=
  nanosleepLoop os2pcl nap.oserr ⟨nsecs / nsecsPerSec, nsecs % nsecsPerSec⟩ nap.interruptions

/-- `COND_INTERVAL`. -/
def condInterval : UInt64 := 10000000

/-- The interval between two calls of the condition. -/
def effectiveInterval (interval : UInt32) : {i : UInt64 // 0 < i} :=
  if h : interval = 0 then ⟨condInterval, by decide⟩
  else ⟨interval.toUInt64, by
    have hpos : 0 < interval.toNat := Nat.pos_of_ne_zero fun h0 => h (UInt32.toNat_inj.1 h0)
    rwa [UInt64.lt_iff_toNat_lt, UInt32.toNat_toUInt64]⟩

/-- The next chunk. -/
def chunk (nsecs : UInt64) (interval : {i : UInt64 // 0 < i}) : UInt64 := if nsecs < interval then nsecs else interval

theorem chunk_le (nsecs : UInt64) (interval : {i : UInt64 // 0 < i}) :
    chunk nsecs interval ≤ nsecs ∧ chunk nsecs interval ≤ interval := by
  unfold chunk
  split
  · next h => exact ⟨UInt64.le_refl _, UInt64.le_of_lt h⟩
  · next h => exact ⟨UInt64.not_lt.1 h, UInt64.le_refl _⟩

theorem chunk_lt {nsecs : UInt64} {interval : {i : UInt64 // 0 < i}} (h : 0 < nsecs - chunk nsecs interval) :
    (nsecs - chunk nsecs interval).toNat < nsecs.toNat := by
  have hle := UInt64.le_iff_toNat_le.1 (chunk_le nsecs interval).1
  have hsub : (nsecs - chunk nsecs interval).toNat = nsecs.toNat - (chunk nsecs interval).toNat :=
    UInt64.toNat_sub_of_le _ _ (chunk_le nsecs interval).1
  have hpos : 0 < (chunk nsecs interval).toNat := by
    rw [UInt64.lt_iff_toNat_lt, hsub] at h
    unfold chunk at h ⊢
    split at h
    · exact absurd h (by simp)
    · next hlt =>
      rw [if_neg hlt]
      exact UInt64.lt_iff_toNat_lt.1 interval.2
  omega

/-- The loop of `sleep_cond`, before the call number `k` of the condition: the result, and the chunks that were slept. -/
def sleepLoop (os2pcl : UInt32 → Int) (cond : Nat → Bool) (naps : Nat → Nap) (interval : {i : UInt64 // 0 < i})
    (nsecs : UInt64) (k : Nat) : ErrM (Bool × List UInt64) := do
  let s := chunk nsecs interval
  let (r, _) ← sleepFor os2pcl s (naps k)
  if r then
    let _ ← trc (loc "sleep.c" "sleep_cond" 80)
    return (false, [s])
  else if cond k then return (true, [])
  else if 0 < nsecs - s then sleepLoop os2pcl cond naps interval (nsecs - s) (k + 1)
  else return (true, [])
termination_by nsecs.toNat
decreasing_by exact chunk_lt ‹_›

/-- `sleep_cond`; `cond k` is what the call number `k` of the condition returns. -/
def sleepCond (os2pcl : UInt32 → Int) (cond : Nat → Bool) (naps : Nat → Nap) (interval : UInt32) (nsecs : UInt64) :
    ErrM (Bool × List UInt64) :=
  if cond 0 then return (true, []) else sleepLoop os2pcl cond naps (effectiveInterval interval) nsecs 1

/-- `pcl_sleep`, with the chunks that were slept. -/
def pclSleep (os2pcl : UInt32 → Int) (cond : Option (Nat → Bool)) (naps : Nat → Nap) (interval : UInt32) (nsecs : UInt64) :
    ErrM (Bool × List UInt64) :=
  match cond with
  | some cond => sleepCond os2pcl cond naps interval nsecs
  | none => do
    let (r, _) ← sleepFor os2pcl nsecs (naps 0)
    return (r, if r then [nsecs] else [])

/-- `pcl_sleep` with a condition reports success; the chunks are at most the interval, the condition was false before each
of them, and they are the whole duration unless it became true. -/
def SleepMeets (os2pcl : UInt32 → Int) (cond : Nat → Bool) (naps : Nat → Nap) (interval : UInt32) (nsecs : UInt64)
    (e : ErrState) : Prop :=
  ∃ chunks e', pclSleep os2pcl (some cond) naps interval nsecs e = some ((true, chunks), e') ∧
    (∀ s ∈ chunks, s ≤ (effectiveInterval interval).1) ∧ (∀ i < chunks.length, cond i = false) ∧
    ((chunks.map UInt64.toNat).sum = nsecs.toNat ∨ cond chunks.length = true)

section
variable (os2pcl : UInt32 → Int) (cond : Nat → Bool) {naps : Nat → Nap}

/-- The interruptions are slept through; what counts is how the last call ends. -/
theorem nanosleepLoop_returns (oserr : Option UInt32) (amt : Timespec) (interruptions : List Timespec) (e : ErrState) :
    ∃ e', nanosleepLoop os2pcl oserr amt interruptions e = some ((oserr.isNone, amt :: interruptions), e') ∧
      (oserr = none → e' = e) := by
  induction interruptions generalizing amt with
  | nil =>
    cases oserr with
    | none => exact ⟨e, rfl, fun _ => rfl⟩
    | some oserr =>
      obtain ⟨r, e', hset⟩ := errVset_returns e (loc "sleep.c" "pcl_sleep" 112) (os2pcl oserr) oserr none
      refine ⟨e', ?_, nofun⟩
      simp only [nanosleepLoop, ErrM.bind_run, hset, Option.bind_some, ErrM.pure_run, Option.isNone_some]
  | cons remaining more ih =>
    obtain ⟨e', hmore, hsame⟩ := ih remaining
    refine ⟨e', ?_, hsame⟩
    simp only [nanosleepLoop, ErrM.bind_run, hmore, Option.bind_some, ErrM.pure_run]

theorem sleepFor_returns (nsecs : UInt64) (nap : Nap) (e : ErrState) :
    ∃ asked e', sleepFor os2pcl nsecs nap e = some ((nap.oserr.isNone, asked), e') ∧ (nap.oserr = none → e' = e) := by
  obtain ⟨e', hrun, hsame⟩ :=
    nanosleepLoop_returns os2pcl nap.oserr ⟨nsecs / nsecsPerSec, nsecs % nsecsPerSec⟩ nap.interruptions e
  exact ⟨_, e', hrun, hsame⟩

/-- The first chunk that is slept ends the loop as a failure. -/
theorem sleepLoop_slept {k : Nat} (hnap : (naps k).oserr = none) (interval : {i : UInt64 // 0 < i}) (nsecs : UInt64)
    (e : ErrState) : ∃ e', sleepLoop os2pcl cond naps interval nsecs k e = some ((false, [chunk nsecs interval]), e') := by
  obtain ⟨asked, e₁, hslept, -⟩ := sleepFor_returns os2pcl (chunk nsecs interval) (naps k) e
  rw [hnap] at hslept
  refine ⟨e₁.traced (loc "sleep.c" "sleep_cond" 80) none, ?_⟩
  unfold sleepLoop
  simp only [ErrM.bind_run, hslept, Option.isNone_none, Option.bind_some, if_true, trc_run, ErrM.pure_run]

/-- The loop returns, and reports success just when it has slept for nothing at all. -/
theorem sleepLoop_returns (interval : {i : UInt64 // 0 < i}) (nsecs : UInt64) (k : Nat) (e : ErrState) :
    ∃ chunks e', sleepLoop os2pcl cond naps interval nsecs k e = some ((chunks.isEmpty, chunks), e') ∧
      chunks.length ≤ 1 ∧ ∀ s ∈ chunks, s ≤ interval.1 := by
  induction hn : nsecs.toNat using Nat.strong_induction_on generalizing nsecs k e with
  | _ n ih =>
    cases hnap : (naps k).oserr with
    | none =>
      obtain ⟨e', hslept⟩ := sleepLoop_slept os2pcl cond hnap interval nsecs e
      exact ⟨[chunk nsecs interval], e', hslept, le_rfl, List.forall_mem_singleton.2 (chunk_le nsecs interval).2⟩
    | some oserr =>
      obtain ⟨asked, e₁, hfailed, -⟩ := sleepFor_returns os2pcl (chunk nsecs interval) (naps k) e
      rw [hnap, Option.isNone_some] at hfailed
      unfold sleepLoop
      simp only [ErrM.bind_run, hfailed, Option.bind_some, Bool.false_eq_true, if_false]
      split
      · exact ⟨[], e₁, rfl, by simp, by simp⟩
      · split
        · next hleft => exact ih _ (hn ▸ chunk_lt hleft) _ (k + 1) e₁ rfl
        · exact ⟨[], e₁, rfl, by simp, by simp⟩

/-- Whatever `nanosleep` does, a sleep with a condition that reports success has not slept. -/
theorem pclSleep_returns (interval : UInt32) (nsecs : UInt64) (e : ErrState) :
    ∃ chunks e', pclSleep os2pcl (some cond) naps interval nsecs e = some ((chunks.isEmpty, chunks), e') ∧
      chunks.length ≤ 1 ∧ ∀ s ∈ chunks, s ≤ (effectiveInterval interval).1 := by
  simp only [pclSleep, sleepCond]
  split
  · exact ⟨[], e, rfl, by simp, by simp⟩
  · exact sleepLoop_returns os2pcl cond (effectiveInterval interval) nsecs 1 e

/-- A sleep with a condition is right just where the condition is true before the first chunk. -/
theorem sleep_meets_iff (hnaps : ∀ k, (naps k).oserr = none) (interval : UInt32) (nsecs : UInt64) (e : ErrState) :
    SleepMeets os2pcl cond naps interval nsecs e ↔ cond 0 = true := by
  simp only [SleepMeets, pclSleep, sleepCond]
  constructor
  · rintro ⟨chunks, e', hrun, -⟩
    by_contra hcond
    obtain ⟨e'', hloop⟩ := sleepLoop_slept os2pcl cond (hnaps 1) (effectiveInterval interval) nsecs e
    rw [if_neg hcond, hloop] at hrun
    cases hrun
  · intro hcond
    rw [if_pos hcond]
    exact ⟨[], e, rfl, by simp, by simp, .inr hcond⟩

end

/-- Every amount is slept at once. -/
def quietNaps : Nat → Nap := fun _ => ⟨[], none⟩

theorem sleep_meets_iff_now : SleepMeets (fun _ => eInval) (fun _ => true) quietNaps 0 1 .zero :=
  (sleep_meets_iff (fun _ => eInval) (fun _ => true) (fun _ => rfl) 0 1 .zero).2 rfl

/-- One nanosecond, with a condition that stays false. -/
theorem sleep_reports_false : (∀ k, (quietNaps k).oserr = none) ∧
    ¬ SleepMeets (fun _ => eInval) (fun _ => false) quietNaps 0 1 .zero := by
  refine ⟨fun _ => rfl, ?_⟩
  rintro ⟨chunks, e', hrun, -⟩
  have hnap : (quietNaps 1).oserr = none := rfl
  obtain ⟨e'', hloop⟩ := sleepLoop_slept (fun _ => eInval) (fun _ => false) hnap (effectiveInterval 0) 1 .zero
  cases hrun.symm.trans hloop

end Pcl

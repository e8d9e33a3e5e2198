import Pcl.File.Tryio
import Pcl.Lib.Follow

/-!
# Runs of asynchronous operations

What a call leaves behind, for every answer of the OS. A run keeps the library's view of a direction in step with the
OS's but for an operation that the OS reports as aborted, and one that is given up while the OS goes on with it;
offsets are right until an operation is cancelled; and a write never returns how many bytes it has written.
-/

namespace Pcl.Tryio

/-- The number of bytes is one that the call returns. -/
def Fits (isread : Bool) (amt : UInt32) : Prop := if isread then amt.toNat < 2 ^ 31 else amt = 0

/-- The answers to an operation end the call well: nothing is aborted, what is completed fits, and what is given up
has ended. -/
def Ends (isread : Bool) (answers : Answers) : IoOutcome → Prop
  | .done amt => Fits isread amt
  | .failed oserr => oserr ≠ errorOperationAborted ∧ (InProgress oserr →
    match answers.wait with
    | .timeout => True
    | .signaled =>
      match answers.signaled with
      | .done amt => Fits isread amt
      | .failed oserr => InProgress oserr → oserr ≠ errorIoIncomplete → answers.cancelled = true
    | .failed _ => answers.cancelled = true)

/-- The invariant of a direction. -/
structure Sound (me : UInt64) (file : Handle) (side : Side) : Prop where
  pending_eq : side.aio.pending = 0 ∨ side.aio.pending = me
  pending_iff : side.aio.pending ≠ 0 ↔ side.os.outstanding = true
  offset_eq : file.pipe = false → side.aio.offset.toNat = (side.os.completed - side.rewound) % 2 ^ 64
  rewound_le : side.rewound ≤ side.os.completed

/-- What a call with these answers does: `good` says whether it ends well. -/
structure Finished (me : UInt64) (file : Handle) (isread : Bool) (issued : Option (UInt64 × UInt32)) (good : Prop)
    (out : Outcome) (side : Side) : Prop where
  issued_eq : out.issued = issued
  ret_eq : ∀ amt ∈ out.completed, out.ret = dwordInt amt
  good_iff : (side.aio.pending ≠ 0 ↔ side.os.outstanding = true) ∧ (∀ amt ∈ out.completed, Fits isread amt) ↔ good
  sound : good → Sound me file side

variable {me : UInt64} {os2pcl : UInt32 → Int} {file : Handle} {isread : Bool} {issued : Option (UInt64 × UInt32)}
  {answers : Answers} {off : UInt64} {os : OsSide} {rewound : Nat} {e : ErrState}

theorem consume_finished (hoff : file.pipe = false → off.toNat = (os.completed - rewound) % 2 ^ 64)
    (hle : rewound ≤ os.completed) (pending : UInt64) (amt : UInt32) :
    ∃ out side, consume ⟨⟨off, pending⟩, ⟨false, os.completed + amt.toNat⟩, rewound⟩ issued amt e = some ((out, side), e) ∧
      Finished me file isread issued (Fits isread amt) out side := by
  refine ⟨_, _, rfl, rfl, ?_, ?_, fun _ => ⟨.inl rfl, ?_, ?_, ?_⟩⟩
  · intro amt' h
    cases h
    rfl
  · constructor
    · rintro ⟨-, h⟩
      exact h amt rfl
    · intro h
      refine ⟨⟨fun h => absurd rfl h, fun h => nomatch h⟩, fun amt' h' => ?_⟩
      cases h'
      exact h
  · exact ⟨fun h => absurd rfl h, fun h => nomatch h⟩
  · intro hpipe
    show (off + amt.toUInt64).toNat = (os.completed + amt.toNat - rewound) % 2 ^ 64
    rw [UInt64.toNat_add, hoff hpipe, UInt32.toNat_toUInt64, Nat.mod_add_mod, Nat.sub_add_comm hle]
  · exact Nat.le_trans hle (Nat.le_add_right _ _)

theorem cancelIo_finished (side : Side) (oserr : UInt32) {good : Prop}
    (hgood : good ↔ (side.os.outstanding && !answers.cancelled) = false) :
    ∃ out side' e', cancelIo os2pcl side issued isread answers oserr e = some ((out, side'), e') ∧
      Finished me file isread issued good out side' := by
  let side' : Side := ⟨⟨0, 0⟩, ⟨side.os.outstanding && !answers.cancelled, side.os.completed⟩, side.os.completed⟩
  obtain ⟨r, e', hrun⟩ : ∃ r e', cancelIo os2pcl side issued isread answers oserr e =
      some ((⟨r, issued, none⟩, side'), e') := by
    by_cases heof : isread ∧ oserr = errorHandleEof
    · refine ⟨0, e, ?_⟩
      unfold cancelIo
      simp only [if_pos heof]
      rfl
    · obtain ⟨r, e', hret⟩ := errVset_returns e (loc "win32_tryio.c" "tryio" 192) (os2pcl oserr) oserr none
      refine ⟨r, e', ?_⟩
      unfold cancelIo
      simp only [if_neg heof, setOsErr, ErrM.bind_run, hret, Option.bind_some]
      rfl
  refine ⟨⟨r, issued, none⟩, side', e', hrun, rfl, (fun _ h => nomatch h), ?_,
    fun h => ⟨.inl rfl, ?_, ?_, Nat.le_refl _⟩⟩
  · rw [hgood]
    constructor
    · rintro ⟨h, -⟩
      exact Bool.eq_false_iff.2 fun htrue => h.2 htrue rfl
    · intro h
      refine ⟨⟨fun h => absurd rfl h, fun htrue => ?_⟩, fun _ h => nomatch h⟩
      exact Bool.noConfusion (h.symm.trans htrue)
  · exact ⟨fun h => absurd rfl h, fun htrue => Bool.noConfusion ((hgood.1 h).symm.trans htrue)⟩
  · intro _
    show 0 = (side.os.completed - side.os.completed) % 2 ^ 64
    rw [Nat.sub_self, Nat.zero_mod]

theorem again_finished (hme : me ≠ 0) (hoff : file.pipe = false → off.toNat = (os.completed - rewound) % 2 ^ 64)
    (hle : rewound ≤ os.completed) (line : Int) (oserr : UInt32) :
    ∃ out side' e', again ⟨⟨off, me⟩, ⟨true, os.completed⟩, rewound⟩ issued line oserr e = some ((out, side'), e') ∧
      Finished me file isread issued True out side' := by
  obtain ⟨r, e', hret⟩ := errVset_returns e (loc "win32_tryio.c" "tryio" line) eAgain oserr none
  refine ⟨⟨r, issued, none⟩, ⟨⟨off, me⟩, ⟨true, os.completed⟩, rewound⟩, e', ?_, rfl, (fun _ h => nomatch h), ?_,
    fun _ => ⟨.inr rfl, ?_, hoff, hle⟩⟩
  · unfold again
    simp only [ErrM.bind_run, hret, Option.bind_some]
    rfl
  · exact ⟨fun _ => trivial, fun _ => ⟨⟨fun _ => rfl, fun _ => hme⟩, fun _ h => nomatch h⟩⟩
  · exact ⟨fun _ => rfl, fun _ => hme⟩

theorem waitIo_finished (hme : me ≠ 0) (hoff : file.pipe = false → off.toNat = (os.completed - rewound) % 2 ^ 64)
    (hle : rewound ≤ os.completed) {oserr : UInt32} (hprogress : InProgress oserr) :
    ∃ out side e', waitIo os2pcl ⟨⟨off, me⟩, ⟨true, os.completed⟩, rewound⟩ issued isread answers e = some ((out, side), e') ∧
      Finished me file isread issued (Ends isread answers (.failed oserr)) out side := by
  have habort : oserr ≠ errorOperationAborted := by
    rcases hprogress with rfl | rfl <;> decide
  unfold waitIo Ends
  cases hw : answers.wait with
  | timeout =>
    simp only [habort, hprogress, ne_eq, not_false_eq_true, true_and, imp_self]
    exact again_finished hme hoff hle _ _
  | failed oserr' =>
    simp only [habort, hprogress, ne_eq, not_false_eq_true, true_and, true_imp_iff]
    refine cancelIo_finished _ _ ?_
    simp
  | signaled =>
    cases hs : answers.signaled with
    | done amt =>
      simp only [habort, hprogress, ne_eq, not_false_eq_true, true_and, true_imp_iff]
      obtain ⟨out, side, hrun, hfin⟩ := @consume_finished me file isread issued off os rewound e hoff hle me amt
      exact ⟨out, side, e, hrun, hfin⟩
    | failed oserr' =>
      simp only [habort, hprogress, ne_eq, not_false_eq_true, true_and, true_imp_iff]
      by_cases hinc : oserr' = errorIoIncomplete
      · have hout : (⟨true, os.completed⟩ : OsSide).report (.failed oserr') = ⟨true, os.completed⟩ := by
          rw [hinc]
          rfl
        rw [if_pos hinc, hout]
        simp only [hinc, not_true_eq_false, false_imp_iff, imp_true_iff]
        exact again_finished hme hoff hle _ _
      · rw [if_neg hinc]
        refine cancelIo_finished _ _ ?_
        show (InProgress oserr' → oserr' ≠ errorIoIncomplete → answers.cancelled = true) ↔
          (decide (InProgress oserr') && !answers.cancelled) = false
        by_cases hp : InProgress oserr' <;> simp [hp, hinc]

theorem finishIo_finished (hme : me ≠ 0) (hoff : file.pipe = false → off.toNat = (os.completed - rewound) % 2 ^ 64)
    (hle : rewound ≤ os.completed) (o : IoOutcome) :
    ∃ out side e', finishIo os2pcl ⟨⟨off, me⟩, os.report o, rewound⟩ issued isread answers o e = some ((out, side), e') ∧
      Finished me file isread issued (Ends isread answers o) out side := by
  cases o with
  | done amt =>
    obtain ⟨out, side, hrun, hfin⟩ := @consume_finished me file isread issued off os rewound e hoff hle me amt
    exact ⟨out, side, e, hrun, hfin⟩
  | failed oserr =>
    unfold finishIo
    by_cases hp : InProgress oserr
    · have hout : os.report (.failed oserr) = ⟨true, os.completed⟩ := by
        simp only [OsSide.report, hp, decide_true]
      have hcond : oserr = errorIoPending ∨ oserr = errorIoIncomplete := hp
      simp only [hout]
      rw [if_pos hcond]
      exact waitIo_finished hme hoff hle hp
    · have hout : os.report (.failed oserr) = ⟨false, os.completed⟩ := by
        simp only [OsSide.report, hp, decide_false]
      have hends : Ends isread answers (.failed oserr) ↔ oserr ≠ errorOperationAborted := by
        simp only [Ends, hp, false_imp_iff, and_true]
      have hcond : ¬ (oserr = errorIoPending ∨ oserr = errorIoIncomplete) := hp
      simp only [hout, hends]
      rw [if_neg hcond]
      by_cases ha : oserr = errorOperationAborted
      · -- the operation is over, but still marked as pending
        rw [if_pos ha]
        obtain ⟨r, e', hret⟩ := errVset_returns e (loc "win32_tryio.c" "tryio" 125) (os2pcl oserr) oserr none
        refine ⟨⟨r, issued, none⟩, ⟨⟨off, me⟩, ⟨false, os.completed⟩, rewound⟩, e', ?_, rfl, by rintro _ ⟨⟩, ?_,
          fun h => absurd ha h⟩
        · simp only [setOsErr, ErrM.bind_run, hret, Option.bind_some]
          rfl
        · exact ⟨fun h => Bool.noConfusion (h.1.1 hme), fun h => absurd ha h⟩
      · rw [if_neg ha]
        exact cancelIo_finished _ _ ⟨fun _ => rfl, fun _ => ha⟩

/-! ### Calls -/

/-- A call of `pcl_file_tryread` or `pcl_file_trywrite`; `args` says whether no argument is `NULL`. -/
structure TryCall where
  isread : Bool
  args : Bool
  count : Nat
  answers : Answers

/-- A call that never gets to the OS. -/
def TryCall.Refused (file : Handle) (c : TryCall) : Prop :=
  c.args = false ∨ (if c.isread then file.read else file.write) = false ∨ file.nonblock = false

/-- What a call should do, from the state of its direction before it and after it. A pipe has no file offset: what
is used for it is 0. -/
structure Meets (file : Handle) (before : Side) (out : Outcome) (after : Side) : Prop where
  alone : out.issued.isSome → before.os.outstanding = false
  pending_iff : after.aio.pending ≠ 0 ↔ after.os.outstanding = true
  offset_eq : ∀ op ∈ out.issued, op.1.toNat = if file.pipe then 0 else before.os.completed
  ret_eq : ∀ amt ∈ out.completed, out.ret = amt.toNat

/-- A new operation starts where the earlier ones end, for none was cancelled behind the first byte; and its answers
end well. -/
def TryCall.Good (file : Handle) (side : Side) (c : TryCall) : Prop :=
  ¬ c.Refused file →
    (side.aio.pending = 0 → file.pipe = false → side.rewound = 0 ∧ side.os.completed < 2 ^ 64) ∧
    Ends c.isread c.answers (if side.aio.pending = 0 then c.answers.issue else c.answers.result)

variable {side : Side}

theorem tryio_finished (hme : me ≠ 0) (hs : Sound me file side) {count : Nat}
    (hok : (if isread then file.read else file.write) = true) (hnonblock : file.nonblock = true) :
    ∃ out side' e', tryio me os2pcl file side count isread answers e = some ((out, side'), e') ∧
      Finished me file isread
        (if side.aio.pending = 0 then some (if file.pipe then 0 else side.aio.offset, UInt32.ofNat count) else none)
        (Ends isread answers (if side.aio.pending = 0 then answers.issue else answers.result)) out side' := by
  have hread : ¬ (isread = true ∧ (!file.read) = true) := by
    rintro ⟨hr, hf⟩
    rw [if_pos hr] at hok
    rw [hok] at hf
    cases hf
  have hwrite : ¬ (¬ isread = true ∧ (!file.write) = true) := by
    rintro ⟨hr, hf⟩
    rw [if_neg hr] at hok
    rw [hok] at hf
    cases hf
  have hblock : ¬ (!file.nonblock) = true := by
    rw [hnonblock]
    exact Bool.false_ne_true
  unfold tryio
  rw [if_neg hread, if_neg hwrite, if_neg hblock]
  by_cases hpending : side.aio.pending = 0
  · have hoff : file.pipe = false → (if file.pipe then 0 else side.aio.offset).toNat =
        (side.os.completed - side.rewound) % 2 ^ 64 := by
      intro hpipe
      rw [hpipe]
      exact hs.offset_eq hpipe
    rw [if_neg (not_not_intro hpending), if_pos hpending, if_pos hpending]
    exact finishIo_finished hme hoff hs.rewound_le answers.issue
  · have hsame := hs.pending_eq.resolve_left hpending
    rw [if_pos hpending, if_neg (not_not_intro hsame), if_neg hpending, if_neg hpending]
    obtain ⟨⟨off, pending⟩, os, rewound⟩ := side
    cases hsame
    exact finishIo_finished hme hs.offset_eq hs.rewound_le answers.result

theorem trc_nonpos (l : Loc) (e : ErrState) : ∃ r e', trc l e = some (r, e') ∧ r ≤ 0 := by
  refine ⟨_, _, trc_run e l, ?_⟩
  split <;> decide

/-- A `DWORD` below `2 ^ 31` is the same number as an `int`. -/
theorem dwordInt_eq_iff (amt : UInt32) : dwordInt amt = amt.toNat ↔ amt.toNat < 2 ^ 31 := by
  unfold dwordInt
  split <;> omega

theorem fileTryread_finished {count : Nat} {out : Outcome} {side' : Side} {e' : ErrState} {good : Prop}
    (hrun : tryio me os2pcl file side count true answers e = some ((out, side'), e'))
    (hfin : Finished me file true issued good out side') :
    ∃ r e'', fileTryread me os2pcl file side true count answers e = some (({ out with ret := r }, side'), e'') ∧
      ∀ amt ∈ out.completed, r = amt.toNat ↔ Fits true amt := by
  unfold fileTryread
  simp only [Bool.not_true, Bool.false_eq_true, if_false, ErrM.bind_run, hrun, Option.bind_some]
  by_cases hneg : out.ret < 0
  · obtain ⟨r, e'', htrc, hr⟩ := trc_nonpos (loc "win32_tryio.c" "pcl_file_tryread" 202) e'
    refine ⟨r, e'', ?_, ?_⟩
    · simp only [if_pos hneg, ErrM.bind_run, htrc, Option.bind_some]
      rfl
    · intro amt hamt
      have hret := hfin.ret_eq amt hamt
      have hlt : ¬ amt.toNat < 2 ^ 31 := by
        intro h
        rw [hret, (dwordInt_eq_iff amt).2 h] at hneg
        omega
      refine iff_of_false ?_ hlt
      omega
  · refine ⟨out.ret, e', ?_, ?_⟩
    · simp only [if_neg hneg]
      rfl
    · intro amt hamt
      rw [hfin.ret_eq amt hamt]
      exact dwordInt_eq_iff amt

theorem fits_write_iff (amt : UInt32) : Fits false amt ↔ amt.toNat = 0 := by
  show amt = 0 ↔ amt.toNat = 0
  rw [← UInt32.toNat_inj]
  rfl

theorem fileTrywrite_finished {count : Nat} {out : Outcome} {side' : Side} {e' : ErrState} {good : Prop}
    (hrun : tryio me os2pcl file side count false answers e = some ((out, side'), e'))
    (hfin : Finished me file false issued good out side') :
    ∃ r e'', fileTrywrite me os2pcl file side true count answers e = some (({ out with ret := r }, side'), e'') ∧
      ∀ amt ∈ out.completed, r = amt.toNat ↔ Fits false amt := by
  unfold fileTrywrite
  simp only [Bool.not_true, Bool.false_eq_true, if_false, ErrM.bind_run, hrun, Option.bind_some]
  by_cases hzero : out.ret = 0
  · refine ⟨0, e', ?_, ?_⟩
    · simp only [hzero, ne_eq, not_true_eq_false, if_false]
      rfl
    · intro amt hamt
      rw [fits_write_iff]
      omega
  · obtain ⟨r, e'', htrc, hr⟩ := trc_nonpos (loc "win32_tryio.c" "pcl_file_trywrite" 212) e'
    refine ⟨r, e'', ?_, ?_⟩
    · simp only [hzero, ne_eq, not_false_eq_true, if_true, ErrM.bind_run, htrc, Option.bind_some]
      rfl
    · intro amt hamt
      have hret := hfin.ret_eq amt hamt
      have hne : amt.toNat ≠ 0 := by
        intro h
        apply hzero
        rw [hret, (dwordInt_eq_iff amt).2 (by omega), h]
        rfl
      rw [fits_write_iff]
      omega

/-- The call of either function. -/
def TryCall.exec (me : UInt64) (os2pcl : UInt32 → Int) (file : Handle) (side : Side) (c : TryCall) :
    ErrM (Outcome × Side) :=
  if c.isread then fileTryread me os2pcl file side c.args c.count c.answers
  else fileTrywrite me os2pcl file side c.args c.count c.answers

theorem refuse_run (line : Int) (err : Int) (msg : CStr) (e : ErrState) :
    ∃ r e', refuse side line err msg e = some ((⟨r, none, none⟩, side), e') := by
  obtain ⟨r, e', hret⟩ := errVset_returns e (loc "win32_tryio.c" "tryio" line) err 0 (some msg)
  refine ⟨r, e', ?_⟩
  unfold refuse
  simp only [ErrM.bind_run, hret, Option.bind_some]
  rfl

/-- `tryio` before it gets to the OS. -/
theorem tryio_refused {count : Nat} (h : (if isread then file.read else file.write) = false ∨ file.nonblock = false) :
    ∃ r e', tryio me os2pcl file side count isread answers e = some ((⟨r, none, none⟩, side), e') := by
  unfold tryio
  split
  · exact refuse_run _ _ _ _
  · split
    · exact refuse_run _ _ _ _
    · rename_i hread hwrite
      have hok : (if isread then file.read else file.write) = true := by
        cases isread <;> simp_all
      have hblock : file.nonblock = false := h.resolve_left (by rw [hok]; decide)
      rw [hblock]
      exact refuse_run _ _ _ _

/-- A call that never gets to the OS leaves the direction alone. -/
theorem TryCall.exec_refused {c : TryCall} (h : c.Refused file) :
    ∃ r e', c.exec me os2pcl file side e = some ((⟨r, none, none⟩, side), e') := by
  obtain ⟨isread, args, count, answers⟩ := c
  unfold TryCall.exec
  cases args with
  | false =>
    cases isread with
    | true => exact ⟨_, _, by simp only [fileTryread, if_true, Bool.not_false, ErrM.bind_run, badArg_run]; rfl⟩
    | false => exact ⟨_, _, by simp only [fileTrywrite, Bool.not_false, Bool.false_eq_true, if_true, if_false,
        ErrM.bind_run, badArg_run]; rfl⟩
  | true =>
    have hno : (if isread then file.read else file.write) = false ∨ file.nonblock = false :=
      h.resolve_left fun h => nomatch h
    obtain ⟨r, e', hrun⟩ := @tryio_refused me os2pcl file isread answers e side count hno
    cases isread with
    | true =>
      simp only [fileTryread, if_true, Bool.not_true, Bool.false_eq_true, if_false, ErrM.bind_run, hrun,
        Option.bind_some]
      split
      · exact ⟨_, _, by simp only [ErrM.bind_run, trc_run, Option.bind_some]; rfl⟩
      · exact ⟨_, _, rfl⟩
    | false =>
      simp only [fileTrywrite, Bool.not_true, Bool.false_eq_true, if_false, ErrM.bind_run, hrun,
        Option.bind_some]
      split
      · exact ⟨_, _, by simp only [ErrM.bind_run, trc_run, Option.bind_some]; rfl⟩
      · exact ⟨_, _, rfl⟩

theorem TryCall.exec_finished (hme : me ≠ 0) (hs : Sound me file side) {c : TryCall} (h : ¬ c.Refused file) :
    ∃ out side' e', c.exec me os2pcl file side e = some ((out, side'), e') ∧
      out.issued = (if side.aio.pending = 0 then some (if file.pipe then 0 else side.aio.offset, UInt32.ofNat c.count)
        else none) ∧
      ((side'.aio.pending ≠ 0 ↔ side'.os.outstanding = true) ∧ (∀ amt ∈ out.completed, out.ret = amt.toNat) ↔
        Ends c.isread c.answers (if side.aio.pending = 0 then c.answers.issue else c.answers.result)) ∧
      (Ends c.isread c.answers (if side.aio.pending = 0 then c.answers.issue else c.answers.result) →
        Sound me file side') := by
  obtain ⟨isread, args, count, answers⟩ := c
  simp only [TryCall.Refused, not_or, Bool.not_eq_false] at h
  obtain ⟨hargs, hok, hblock⟩ := h
  cases hargs
  obtain ⟨out, side', e', hrun, hfin⟩ :=
    @tryio_finished me os2pcl file isread answers e side hme hs count hok hblock
  have hret : ∃ r e'', TryCall.exec me os2pcl file side ⟨isread, true, count, answers⟩ e =
      some (({ out with ret := r }, side'), e'') ∧ ∀ amt ∈ out.completed, r = amt.toNat ↔ Fits isread amt := by
    cases isread with
    | true => exact fileTryread_finished hrun hfin
    | false => exact fileTrywrite_finished hrun hfin
  obtain ⟨r, e'', hexec, hfits⟩ := hret
  refine ⟨{ out with ret := r }, side', e'', hexec, hfin.issued_eq, ?_, hfin.sound⟩
  rw [← hfin.good_iff]
  exact and_congr_right fun _ => forall₂_congr hfits

theorem Sound.new_offset (hs : Sound me file side) :
    (if file.pipe then 0 else side.aio.offset).toNat = (if file.pipe then 0 else side.os.completed) ↔
      (file.pipe = false → side.rewound = 0 ∧ side.os.completed < 2 ^ 64) := by
  cases hpipe : file.pipe with
  | true => simp
  | false =>
    have hoff := hs.offset_eq hpipe
    have hle := hs.rewound_le
    simp only [Bool.false_eq_true, if_false, true_imp_iff]
    omega

/-- A call does what it should just when it is a good one, and then keeps the invariant. -/
theorem TryCall.exec_meets (hme : me ≠ 0) (hs : Sound me file side) (c : TryCall) (e : ErrState) :
    ∃ out side' e', c.exec me os2pcl file side e = some ((out, side'), e') ∧
      (Meets file side out side' ↔ c.Good file side) ∧ (c.Good file side → Sound me file side') := by
  by_cases hrefused : c.Refused file
  · obtain ⟨r, e', hexec⟩ := @TryCall.exec_refused me os2pcl file e side c hrefused
    refine ⟨_, _, e', hexec, ?_, fun _ => hs⟩
    refine iff_of_true ?_ fun h => absurd hrefused h
    exact ⟨(fun h => nomatch h), hs.pending_iff, (fun _ h => nomatch h), fun _ h => nomatch h⟩
  · obtain ⟨out, side', e', hexec, hissued, hends, hsound⟩ :=
      @TryCall.exec_finished me os2pcl file e side hme hs c hrefused
    refine ⟨out, side', e', hexec, ?_, fun hgood => hsound (hgood hrefused).2⟩
    constructor
    · intro hm _
      refine ⟨fun hpending => ?_, hends.1 ⟨hm.pending_iff, hm.ret_eq⟩⟩
      rw [if_pos hpending] at hissued
      exact hs.new_offset.1 (hm.offset_eq _ hissued)
    · intro hgood
      obtain ⟨hnew, hend⟩ := hgood hrefused
      obtain ⟨hpend, hret⟩ := hends.2 hend
      refine ⟨?_, hpend, ?_, hret⟩
      · intro hsome
        have hpending : side.aio.pending = 0 := by
          refine Classical.byContradiction fun h => ?_
          rw [hissued, if_neg h] at hsome
          cases hsome
        exact Bool.eq_false_iff.2 fun hout => hs.pending_iff.2 hout hpending
      · intro op hop
        by_cases hpending : side.aio.pending = 0
        · rw [hissued, if_pos hpending] at hop
          cases hop
          exact hs.new_offset.2 (hnew hpending)
        · rw [hissued, if_neg hpending] at hop
          cases hop

/-! ### Runs -/

/-- The two directions of a file, and the thread's error state. -/
structure TryState where
  read : Side
  write : Side
  err : ErrState

/-- The direction of a call. -/
def TryState.direction (s : TryState) (isread : Bool) : Side := if isread then s.read else s.write

/-- A direction after a call. -/
def TryState.update (s : TryState) (isread : Bool) (side : Side) (e : ErrState) : TryState :=
  if isread then ⟨side, s.write, e⟩ else ⟨s.read, side, e⟩

@[simp] theorem TryState.direction_update (s : TryState) (isread : Bool) (side : Side) (e : ErrState) :
    (s.update isread side e).direction isread = side := by
  cases isread <;> rfl

theorem TryState.direction_update_of_ne (s : TryState) {isread isread' : Bool} (h : isread' ≠ isread) (side : Side)
    (e : ErrState) : (s.update isread side e).direction isread' = s.direction isread' := by
  cases isread <;> cases isread' <;> first | rfl | exact absurd rfl h

/-- A file that was just opened. -/
def TryState.opened (e : ErrState) : TryState := ⟨⟨⟨0, 0⟩, ⟨false, 0⟩, 0⟩, ⟨⟨0, 0⟩, ⟨false, 0⟩, 0⟩, e⟩

/-- A step of a run. -/
def tryStep (me : UInt64) (os2pcl : UInt32 → Int) (file : Handle) (s : TryState) (c : TryCall) :
    Option (Outcome × TryState) :=
  (c.exec me os2pcl file (s.direction c.isread) s.err).map fun p => (p.1.1, s.update c.isread p.1.2 p.2)

/-- Every call of a run on a file does what it should just when every one is good. -/
theorem tryio_meets_iff (me : UInt64) (hme : me ≠ 0) (os2pcl : UInt32 → Int) (file : Handle) (e : ErrState)
    (calls : List TryCall) :
    Follow.Always (tryStep me os2pcl file) (fun s c out s' => Meets file (s.direction c.isread) out (s'.direction c.isread))
        (.opened e) calls ↔
      Follow.Always (tryStep me os2pcl file) (fun s c _ _ => c.Good file (s.direction c.isread)) (.opened e) calls := by
  have hopened : Sound me file ⟨⟨0, 0⟩, ⟨false, 0⟩, 0⟩ :=
    ⟨.inl rfl, ⟨fun h => absurd rfl h, fun h => nomatch h⟩, fun _ => rfl, Nat.le_refl 0⟩
  have hinit : ∀ isread, Sound me file ((TryState.opened e).direction isread) := by
    intro isread
    cases isread <;> exact hopened
  refine @Follow.always_iff _ _ _ _ _ _ _ (fun s => ∀ isread, Sound me file (s.direction isread)) _ ?_ hinit
  intro s c hs
  obtain ⟨out, side', e', hexec, hmeets, hsound⟩ :=
    @TryCall.exec_meets me os2pcl file (s.direction c.isread) hme (hs c.isread) c s.err
  refine ⟨out, s.update c.isread side' e', ?_, ?_, fun hgood isread => ?_⟩
  · rw [tryStep, hexec]
    rfl
  · rw [TryState.direction_update]
    exact hmeets
  · by_cases hsame : isread = c.isread
    · rw [hsame, TryState.direction_update]
      exact hsound hgood
    · rw [TryState.direction_update_of_ne s hsame]
      exact hs isread

/-- Five bytes at once, and three of an operation for which the first call does not wait long enough. -/
theorem tryio_meets_iff_eight : (7 : UInt64) ≠ 0 ∧
    Follow.Always (tryStep 7 (fun oserr => oserr.toNat) ⟨true, false, true, false⟩)
      (fun s c out s' => Meets ⟨true, false, true, false⟩ (s.direction c.isread) out (s'.direction c.isread))
      (.opened .zero)
      [⟨true, true, 5, ⟨.done 5, .done 0, .timeout, .done 0, true⟩⟩,
        ⟨true, true, 9, ⟨.failed errorIoPending, .done 0, .timeout, .done 0, true⟩⟩,
        ⟨true, true, 9, ⟨.done 0, .done 3, .timeout, .done 0, true⟩⟩] := by
  refine ⟨by decide, (tryio_meets_iff 7 (by decide) _ _ .zero _).2 ?_⟩
  refine ⟨_, _, rfl, fun _ => ⟨fun _ _ => ⟨rfl, by decide⟩, show (5 : UInt32).toNat < 2 ^ 31 by decide⟩, ?_⟩
  refine ⟨_, _, rfl, fun _ => ⟨fun _ _ => ⟨rfl, by decide⟩, by decide, fun _ => trivial⟩, ?_⟩
  exact ⟨_, _, rfl, fun _ => ⟨(fun h => absurd h (by decide)), show (3 : UInt32).toNat < 2 ^ 31 by decide⟩, trivial⟩

/-- After the end of the file was reported the next operation starts at its beginning. -/
theorem tryio_rereads : ¬ Follow.Always (tryStep 7 (fun oserr => oserr.toNat) ⟨true, false, true, false⟩)
    (fun s c out s' => Meets ⟨true, false, true, false⟩ (s.direction c.isread) out (s'.direction c.isread))
    (.opened .zero)
    [⟨true, true, 5, ⟨.done 5, .done 0, .timeout, .done 0, true⟩⟩,
      ⟨true, true, 5, ⟨.failed errorHandleEof, .done 0, .timeout, .done 0, true⟩⟩,
      ⟨true, true, 5, ⟨.done 5, .done 0, .timeout, .done 0, true⟩⟩] := by
  rintro ⟨_, _, h₁, -, _, _, h₂, -, _, _, h₃, hm, -⟩
  cases h₁
  cases h₂
  cases h₃
  exact absurd (hm.offset_eq _ rfl) (by decide)

end Pcl.Tryio

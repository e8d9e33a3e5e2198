import Pcl.Event.Dispatch

/-!
# What a dispatch calls

One execution changes the table by the edits of its log, and a loop goes over the table as a cursor over a list that
changes under it (`Cursor.Walk`). What the loop calls is told from what the dispatches inside its handlers call by the
depth.
-/

namespace Pcl
open Cursor (Edit Walk Valid)

variable {H : Type}

/-- What the log says about the table. -/
def edits (log : List (EventLog H)) : List (Edit H) := log.filterMap fun
  | .edited e => some e
  | _ => none

/-- The handlers that were called at a depth, each with its event. -/
def handled (depth : Nat) (log : List (EventLog H)) : List (H × UInt32) := log.filterMap fun
  | .called d h which => if d = depth then some (h, which) else none
  | _ => none

/-- No call at a smaller depth. -/
def Deeper (depth : Nat) (log : List (EventLog H)) : Prop := ∀ d h which, EventLog.called d h which ∈ log → depth ≤ d

@[simp] theorem edits_append (log log' : List (EventLog H)) : edits (log ++ log') = edits log ++ edits log' :=
  List.filterMap_append

@[simp] theorem handled_append (depth : Nat) (log log' : List (EventLog H)) :
    handled depth (log ++ log') = handled depth log ++ handled depth log' := List.filterMap_append

namespace Deeper
variable {depth : Nat} {log log' : List (EventLog H)}

theorem append (h : Deeper depth log) (h' : Deeper depth log') : Deeper depth (log ++ log') := fun d x w hmem =>
  (List.mem_append.1 hmem).elim (h d x w) (h' d x w)

theorem mono {depth' : Nat} (hle : depth' ≤ depth) (h : Deeper depth log) : Deeper depth' log := fun d x w hmem =>
  hle.trans (h d x w hmem)

theorem handled_eq_nil (h : Deeper (depth + 1) log) : handled depth log = [] := by
  refine List.filterMap_eq_nil_iff.2 fun entry hmem => ?_
  cases entry with
  | called d x w =>
    have := h d x w hmem
    exact if_neg (by omega)
  | returned d => rfl
  | asked c => rfl
  | edited e => rfl

end Deeper

/-- The context goes on by a part of the log. -/
structure EventState.Extends [DecidableEq H] (s s' : EventState H) (l : List H) (seg : List (EventLog H)) : Prop where
  log_eq : s'.log = s.log ++ seg
  err_eq : s'.err = s.err
  valid : Valid l (edits seg)
  table : s'.handlers.Lists (Cursor.apply l (edits seg))

/-- What a part of an execution at a depth may leave in the log. -/
def EventTask.Leaves [DecidableEq H] (depth : Nat) (l : List H) (seg : List (EventLog H)) : EventTask H → Prop
  | .call _ => Deeper (depth + 1) seg
  | .handler _ _ => Deeper (depth + 1) seg
  | .loop which i => Deeper depth seg ∧ ∃ seen, handled depth seg = seen.map (·, which) ∧
    Walk i l seen (edits seg) (Cursor.apply l (edits seg))

/-- A handler that unregisters itself, and then returns. -/
def oneShot (h : H) (_which : UInt32) (log : List (EventLog H)) : Option (EventCall H) :=
  match log.getLast? with
  | some (.called _ _ _) => some (.unregister (some h))
  | _ => none

section
variable [DecidableEq H] {s s' s'' : EventState H} {l : List H} {seg seg' : List (EventLog H)}

namespace EventState.Extends

theorem refl (hl : s.handlers.Lists l) : s.Extends s l [] := ⟨(List.append_nil _).symm, rfl, trivial, hl⟩

theorem trans (h : s.Extends s' l seg) (h' : s'.Extends s'' (Cursor.apply l (edits seg)) seg') :
    s.Extends s'' l (seg ++ seg') := by
  refine ⟨by rw [h'.log_eq, h.log_eq, List.append_assoc], h'.err_eq.trans h.err_eq, ?_, ?_⟩
  · rw [edits_append]
    exact h.valid.append h'.valid
  · rw [edits_append, Cursor.apply_append]
    exact h'.table

/-- An entry that is no edit. -/
theorem note (hl : s.handlers.Lists l) (entry : EventLog H) (hentry : edits [entry] = []) :
    s.Extends (s.note entry) l [entry] :=
  ⟨rfl, rfl, by rw [hentry]; trivial, by rw [hentry]; exact hl⟩

end EventState.Extends

theorem eventRegister_some (hl : s.handlers.Lists l) (h : H) :
    ∃ s', eventRegister (some h) s = some s' ∧ s.Extends s' l [.edited (.add h)] := by
  obtain ⟨arr', happend, harr'⟩ := hl.append h s.err
  refine ⟨(EventState.mk arr' s.err s.log).note (.edited (.add h)), ?_, rfl, rfl, trivial, harr'⟩
  show Option.map _ (s.handlers.append (some h) s.err) = _
  rw [happend]
  rfl

theorem eventRegister_extends (hl : s.handlers.Lists l) (handler : Option H) :
    ∃ s' seg, eventRegister handler s = some s' ∧ s.Extends s' l seg ∧ ∀ depth, Deeper depth seg := by
  cases handler with
  | none => exact ⟨s, [], rfl, .refl hl, fun _ _ _ _ hmem => by cases hmem⟩
  | some h =>
    obtain ⟨s', h', hext⟩ := eventRegister_some hl h
    refine ⟨s', _, h', hext, fun depth d x w hmem => ?_⟩
    cases List.mem_singleton.1 hmem

theorem eventUnregister_mem {h : H} (hl : s.handlers.Lists l) (hmem : h ∈ l) :
    ∃ s', eventUnregister (some h) s = some s' ∧ s.Extends s' l [.edited (.drop h)] := by
  obtain ⟨r, arr', hremove, harr'⟩ := hl.remove hmem s.err
  obtain ⟨pre, post, hpre, rfl, -⟩ := List.exists_erase_eq hmem
  refine ⟨(EventState.mk arr'.1 s.err s.log).note (.edited (.drop h)), ?_, rfl, rfl, ⟨hmem, trivial⟩, harr'⟩
  simp only [eventUnregister]
  rw [if_pos (by rw [hl.indexof_first hpre]; omega), hremove]
  rfl

theorem eventUnregister_extends (hl : s.handlers.Lists l) (handler : Option H) :
    ∃ s' seg, eventUnregister handler s = some s' ∧ s.Extends s' l seg ∧ ∀ depth, Deeper depth seg := by
  cases handler with
  | none => exact ⟨s, [], rfl, .refl hl, fun _ _ _ _ hmem => by cases hmem⟩
  | some h =>
    by_cases hmem : h ∈ l
    · obtain ⟨s', h', hext⟩ := eventUnregister_mem hl hmem
      refine ⟨s', _, h', hext, fun depth d x w hmem => ?_⟩
      cases List.mem_singleton.1 hmem
    · refine ⟨s, [], ?_, .refl hl, fun _ _ _ _ hmem => by cases hmem⟩
      simp only [eventUnregister, hl.indexof_none hmem]
      rfl

/-- Whatever the handlers do: the table is changed by the edits of the log, and the loop is a walk over it. -/
theorem eventExec_leaves (body : H → UInt32 → List (EventLog H) → Option (EventCall H)) {n depth : Nat}
    {task : EventTask H} (hl : s.handlers.Lists l) (h : eventExec body n depth task s = some s') :
    ∃ seg, s.Extends s' l seg ∧ task.Leaves depth l seg := by
  induction n generalizing depth task s s' l with
  | zero => simp [eventExec] at h
  | succ n ih =>
    cases task with
    | call c =>
      cases c with
      | register handler =>
        obtain ⟨t, seg, ht, hext, hdeep⟩ := eventRegister_extends hl handler
        cases ht.symm.trans h
        exact ⟨seg, hext, hdeep _⟩
      | unregister handler =>
        obtain ⟨t, seg, ht, hext, hdeep⟩ := eventUnregister_extends hl handler
        cases ht.symm.trans h
        exact ⟨seg, hext, hdeep _⟩
      | dispatch which =>
        obtain ⟨seg, hext, hdeep, -⟩ := ih hl h
        exact ⟨seg, hext, hdeep⟩
    | handler x which =>
      simp only [eventExec] at h
      split at h
      · cases h
        exact ⟨_, .note hl _ rfl, fun d y w hmem => by cases List.mem_singleton.1 hmem⟩
      · rename_i c _
        obtain ⟨t, hcall, hrest⟩ := Option.bind_eq_some_iff.1 h
        have hnote := EventState.Extends.note hl (.asked c) rfl
        obtain ⟨seg, hext, hdeep⟩ := ih hnote.table hcall
        obtain ⟨seg', hext', hdeep'⟩ := ih hext.table hrest
        refine ⟨_, (hnote.trans hext).trans hext', Deeper.append (Deeper.append (fun d y w hmem => ?_) hdeep) hdeep'⟩
        cases List.mem_singleton.1 hmem
    | loop which i =>
      simp only [eventExec, hl.count_eq] at h
      split at h
      · rename_i hi
        rw [hl.getElem? hi, List.getElem?_eq_getElem hi] at h
        obtain ⟨t, hhandler, hrest⟩ := Option.bind_eq_some_iff.1 h
        have hnote := EventState.Extends.note hl (.called depth l[i] which) rfl
        obtain ⟨seg, hext, hdeep⟩ := ih hnote.table hhandler
        obtain ⟨seg', hext', hdeep', seen, hseen, hwalk⟩ := ih hext.table hrest
        have hall := (hnote.trans hext).trans hext'
        refine ⟨_, hall, Deeper.append (Deeper.append (fun d y w hmem => ?_) (hdeep.mono (Nat.le_succ _))) hdeep',
          l[i] :: seen, ?_, ?_⟩
        · cases List.mem_singleton.1 hmem
          exact Nat.le_refl _
        · rw [handled_append, handled_append, hdeep.handled_eq_nil, hseen]
          simp [handled]
        · rw [edits_append, Cursor.apply_append]
          exact .step l[i] (List.getElem?_eq_getElem hi) (hnote.trans hext).valid hwalk
      · cases h
        have hnone : Deeper depth ([] : List (EventLog H)) := fun d y w hmem => by cases hmem
        exact ⟨[], .refl hl, hnone, [], rfl, .done (by omega)⟩

/-- The handlers the log leaves registered. -/
def registered (log : List (EventLog H)) : List H := Cursor.apply [] (edits log)

/-- A state of a run, between calls or in the middle of a handler. -/
inductive EventState.Reached (body : H → UInt32 → List (EventLog H) → Option (EventCall H)) : EventState H → Prop
  | init (err : ErrState) : Reached body (.init err)
  | note {s : EventState H} (entry : EventLog H) (hentry : edits [entry] = []) (hs : Reached body s) :
    Reached body (s.note entry)
  | exec {s s' : EventState H} {n depth : Nat} {task : EventTask H} (hs : Reached body s)
    (h : eventExec body n depth task s = some s') : Reached body s'

variable {body : H → UInt32 → List (EventLog H) → Option (EventCall H)}

theorem EventState.Extends.registered_eq (h : s.Extends s' (registered s.log) seg) :
    registered s'.log = Cursor.apply (registered s.log) (edits seg) := by
  unfold registered
  rw [h.log_eq, edits_append, Cursor.apply_append]

/-- The table holds what the log says. -/
theorem EventState.Reached.lists (h : s.Reached body) : s.handlers.Lists (registered s.log) := by
  induction h with
  | init err => exact .init
  | note entry hentry hs ih =>
    have hnote := EventState.Extends.note ih entry hentry
    rw [hnote.registered_eq]
    exact hnote.table
  | exec hs h ih =>
    obtain ⟨seg, hext, -⟩ := eventExec_leaves body ih h
    rw [hext.registered_eq]
    exact hext.table

/-- A dispatch from `s` to `s'` that writes `seg` and calls `seen`: they are registered before it or while it runs, each
registration is called once at most and in order, as many are missed as are unregistered while it runs at most, and none
where none is. -/
structure EventState.Dispatches (s s' : EventState H) (depth : Nat) (which : UInt32) (seg : List (EventLog H))
    (seen : List H) : Prop where
  log_eq : s'.log = s.log ++ seg
  err_eq : s'.err = s.err
  table : s'.handlers.Lists (registered s'.log)
  handled_eq : handled (depth + 1) seg = seen.map (·, which)
  sublist : seen.Sublist (registered s.log ++ Cursor.added (edits seg))
  perm : (registered s.log ++ Cursor.added (edits seg)).Perm (Cursor.dropped (edits seg) ++ registered s'.log)
  length_le : (registered s.log ++ Cursor.added (edits seg)).length ≤ seen.length + (Cursor.dropped (edits seg)).length
  eq_of_dropped : Cursor.dropped (edits seg) = [] → seen = registered s.log ++ Cursor.added (edits seg)

/-- Whatever the handlers do while an event is dispatched, from outside or by a handler. -/
theorem eventExec_dispatches {n depth : Nat} {which : UInt32} (hs : s.Reached body)
    (h : eventExec body n depth (.call (.dispatch which)) s = some s') :
    ∃ seg seen, s.Dispatches s' depth which seg seen := by
  cases n with
  | zero => simp [eventExec] at h
  | succ n =>
    obtain ⟨seg, hext, hdeep, seen, hseen, hwalk⟩ := eventExec_leaves body hs.lists
      (show eventExec body n (depth + 1) (.loop which 0) s = some s' from h)
    have htable := hext.table
    have hperm := hext.valid.perm
    rw [← hext.registered_eq] at htable hperm hwalk
    refine ⟨seg, seen, hext.log_eq, hext.err_eq, htable, hseen, hwalk.sublist, hperm, ?_, hwalk.eq_of_dropped⟩
    have hlen := hperm.length_eq.trans List.length_append
    have hle := hwalk.length_le
    omega

theorem eventExec_dispatches_two : ∃ s s' : EventState Nat, registered s.log = [1, 2] ∧ registered s'.log = [2] ∧
    ∃ seg seen, s.Dispatches s' 0 7 seg seen := by
  have hinit : (EventState.init .zero).Reached (oneShot : Nat → _) := .init _
  have hone := hinit.exec (show eventExec oneShot 1 0 (.call (.register (some 1))) _ = some _ from rfl)
  have htwo := hone.exec (show eventExec oneShot 1 0 (.call (.register (some 2))) _ = some _ from rfl)
  exact ⟨_, _, rfl, rfl, eventExec_dispatches htwo (show eventExec oneShot 9 0 (.call (.dispatch 7)) _ = some _ from rfl)⟩

/-! ### Whether it returns -/

theorem eventExec_mono {n m depth : Nat} {task : EventTask H} (hnm : n ≤ m)
    (h : eventExec body n depth task s = some s') :
    eventExec body m depth task s = some s' := by
  induction n generalizing m depth task s s' with
  | zero => simp [eventExec] at h
  | succ n ih =>
    obtain ⟨m, rfl⟩ : ∃ k, m = k + 1 := ⟨m - 1, by omega⟩
    have hle : n ≤ m := by omega
    cases task with
    | call c =>
      cases c with
      | register handler => exact h
      | unregister handler => exact h
      | dispatch which => exact (ih hle h : eventExec body m (depth + 1) (.loop which 0) s = some s')
    | handler x which =>
      simp only [eventExec] at h ⊢
      split at h
      · exact h
      · obtain ⟨t, hcall, hrest⟩ := Option.bind_eq_some_iff.1 h
        rw [ih hle hcall]
        exact ih hle hrest
    | loop which i =>
      simp only [eventExec] at h ⊢
      split at h
      · rename_i hi
        rw [if_pos hi]
        split at h
        · obtain ⟨t, hhandler, hrest⟩ := Option.bind_eq_some_iff.1 h
          rw [ih hle hhandler]
          exact ih hle hrest
        · cases h
      · rename_i hi
        rw [if_neg hi]
        exact h

/-- How many calls handlers made. -/
def asks (log : List (EventLog H)) : Nat := log.countP fun
  | .asked _ => true
  | _ => false

/-- With steps enough the part returns. -/
def EventTask.Returns (body : H → UInt32 → List (EventLog H) → Option (EventCall H)) (depth : Nat) (task : EventTask H)
    (s : EventState H) : Prop := ∃ n s', eventExec body n depth task s = some s'

theorem eventExec_asks {n depth : Nat} {task : EventTask H} (hl : s.handlers.Lists l)
    (h : eventExec body n depth task s = some s') : asks s.log ≤ asks s'.log ∧ ∃ l', s'.handlers.Lists l' := by
  obtain ⟨seg, hext, -⟩ := eventExec_leaves body hl h
  refine ⟨?_, _, hext.table⟩
  rw [hext.log_eq]
  exact (List.sublist_append_left _ _).countP_le

/-- A handler returns at once, or it makes a call and there are fewer to come. -/
theorem eventExec_handler {N n depth : Nat} {x : H} {which : UInt32} (hl : s.handlers.Lists l)
    (hbody : ∀ x which log, N ≤ asks log → body x which log = none)
    (h : eventExec body n depth (.handler x which) s = some s') :
    s' = s.note (.returned depth) ∨ N - asks s'.log < N - asks s.log ∧ ∃ l', s'.handlers.Lists l' := by
  cases n with
  | zero => simp [eventExec] at h
  | succ n =>
    cases hb : body x which s.log with
    | none =>
      simp only [eventExec, hb] at h
      cases h
      exact .inl rfl
    | some c =>
      simp only [eventExec, hb] at h
      obtain ⟨t, hcall, hrest⟩ := Option.bind_eq_some_iff.1 h
      have hasked : asks (s.note (.asked c)).log = asks s.log + 1 := by simp [EventState.note, asks]
      have hlt : asks s.log < N := by
        by_contra hge
        rw [hbody x which s.log (by omega)] at hb
        cases hb
      obtain ⟨hle, l', hl'⟩ := eventExec_asks (s := s.note (.asked c)) hl hcall
      obtain ⟨hle', hl''⟩ := eventExec_asks hl' hrest
      exact .inr ⟨by omega, hl''⟩

theorem eventExec_loop_end {i depth : Nat} {which : UInt32} (hl : s.handlers.Lists l) (hi : l.length ≤ i) :
    eventExec body 1 depth (.loop which i) s = some s := by
  simp only [eventExec]
  rw [if_neg (by rw [hl.count_eq]; omega)]

theorem eventExec_loop {n m i depth : Nat} {which : UInt32} {x : H} (hl : s.handlers.Lists l) (hx : l[i]? = some x)
    (h : eventExec body n depth (.handler x which) (s.note (.called depth x which)) = some s')
    (h' : eventExec body m depth (.loop which (i + 1)) s' = some s'') :
    eventExec body (max n m + 1) depth (.loop which i) s = some s'' := by
  obtain ⟨hi, -⟩ := List.getElem?_eq_some_iff.1 hx
  simp only [eventExec, hl.count_eq, if_pos hi, hl.getElem? hi, hx]
  rw [eventExec_mono (Nat.le_max_left n m) h]
  exact eventExec_mono (Nat.le_max_right n m) h'

/-- A loop whose handlers return goes on with the next position, or with fewer calls to come. -/
theorem loop_returns {N k depth : Nat} {which : UInt32}
    (hbody : ∀ x which log, N ≤ asks log → body x which log = none)
    (hhandler : ∀ {s : EventState H} {l} x, s.handlers.Lists l → N - asks s.log ≤ k →
      (EventTask.handler x which).Returns body depth s)
    (hfewer : ∀ {s : EventState H} {l} i, s.handlers.Lists l → N - asks s.log < k →
      (EventTask.loop which i).Returns body depth s)
    (j : Nat) {i : Nat} (hl : s.handlers.Lists l) (hk : N - asks s.log ≤ k) (hj : l.length ≤ i + j) :
    (EventTask.loop which i).Returns body depth s := by
  induction j generalizing s l i with
  | zero => exact ⟨1, s, eventExec_loop_end hl (by omega)⟩
  | succ j ih =>
    by_cases hi : i < l.length
    · have hnote : (s.note (.called depth l[i] which)).handlers.Lists l := hl
      have hasks : asks (s.note (.called depth l[i] which)).log = asks s.log := by simp [EventState.note, asks]
      obtain ⟨n, t, ht⟩ := hhandler l[i] hnote (by omega)
      obtain ⟨m, s', h'⟩ : (EventTask.loop which (i + 1)).Returns body depth t := by
        rcases eventExec_handler hnote hbody ht with rfl | ⟨hlt, l', hl'⟩
        · have hasks' : asks ((s.note (.called depth l[i] which)).note (.returned depth)).log = asks s.log := by
            simp [EventState.note, asks]
          exact ih (s := (s.note (.called depth l[i] which)).note (.returned depth)) hl (by omega) (by omega)
        · exact hfewer _ hl' (by omega)
      exact ⟨_, s', eventExec_loop hl (List.getElem?_eq_getElem hi) ht h'⟩
    · exact ⟨1, s, eventExec_loop_end hl (by omega)⟩

/-- Every part returns when the handlers make no more than `N` calls; what follows a call has fewer to come. -/
theorem eventExec_returns {N : Nat} (hbody : ∀ x which log, N ≤ asks log → body x which log = none) (k : Nat)
    (hl : s.handlers.Lists l) (hk : N - asks s.log ≤ k) (depth : Nat) (task : EventTask H) :
    task.Returns body depth s := by
  induction k using Nat.strong_induction_on generalizing s l depth task with
  | _ k ih =>
    have hfewer : ∀ {s : EventState H} {l} depth task, s.handlers.Lists l → N - asks s.log < k →
        EventTask.Returns body depth task s := fun depth task hl hk =>
      ih (k - 1) (by omega) hl (by omega) depth task
    have hhandler : ∀ {s : EventState H} {l} depth x which, s.handlers.Lists l → N - asks s.log ≤ k →
        (EventTask.handler x which).Returns body depth s := by
      intro s l depth x which hl hk
      cases hb : body x which s.log with
      | none => exact ⟨1, s.note (.returned depth), by simp only [eventExec, hb]⟩
      | some c =>
        have hlt : asks s.log < N := by
          by_contra hge
          rw [hbody x which s.log (by omega)] at hb
          cases hb
        have hasked : asks (s.note (.asked c)).log = asks s.log + 1 := by simp [EventState.note, asks]
        have hnote : (s.note (.asked c)).handlers.Lists l := hl
        obtain ⟨n, t, ht⟩ := hfewer depth (.call c) hnote (by omega)
        obtain ⟨hle, l', hl'⟩ := eventExec_asks hnote ht
        obtain ⟨m, s', h'⟩ := hfewer depth (.handler x which) hl' (by omega)
        refine ⟨max n m + 1, s', ?_⟩
        simp only [eventExec, hb]
        rw [eventExec_mono (Nat.le_max_left n m) ht]
        exact eventExec_mono (Nat.le_max_right n m) h'
    have hloop : ∀ depth which i, (EventTask.loop which i).Returns body depth s := fun depth which i =>
      loop_returns hbody (fun x => hhandler depth x which) (fun i => hfewer depth _) l.length hl hk (by omega)
    cases task with
    | handler x which => exact hhandler depth x which hl hk
    | loop which i => exact hloop depth which i
    | call c =>
      cases c with
      | register handler =>
        obtain ⟨t, seg, ht, -⟩ := eventRegister_extends hl handler
        exact ⟨1, t, ht⟩
      | unregister handler =>
        obtain ⟨t, seg, ht, -⟩ := eventUnregister_extends hl handler
        exact ⟨1, t, ht⟩
      | dispatch which =>
        obtain ⟨n, t, ht⟩ := hloop (depth + 1) which 0
        exact ⟨n + 1, t, ht⟩

/-- Handlers that between them make finitely many calls: every sequence of calls from outside returns, and no call of
`NULL` is made. -/
theorem eventRun_returns {N : Nat} (hbody : ∀ x which log, N ≤ asks log → body x which log = none)
    (calls : List (EventCall H)) (err : ErrState) :
    ∃ steps₀, ∀ steps, steps₀ ≤ steps → ∃ s', eventRun body steps calls (.init err) = some s' := by
  suffices h : ∀ (calls : List (EventCall H)) {s : EventState H}, s.Reached body →
      ∃ steps₀, ∀ steps, steps₀ ≤ steps → ∃ s', eventRun body steps calls s = some s' from h calls (.init err)
  intro calls
  induction calls with
  | nil => exact fun {s} _ => ⟨0, fun _ _ => ⟨s, rfl⟩⟩
  | cons c calls ih =>
    intro s hs
    obtain ⟨n, t, ht⟩ := eventExec_returns hbody (N - asks s.log) hs.lists (Nat.le_refl _) 0 (.call c)
    obtain ⟨m, hm⟩ := ih (hs.exec ht)
    refine ⟨max n m, fun steps hsteps => ?_⟩
    obtain ⟨s', hs'⟩ := hm steps (by omega)
    refine ⟨s', ?_⟩
    show (eventExec body steps 0 (.call c) s).bind (eventRun body steps calls) = _
    rw [eventExec_mono (by omega) ht]
    exact hs'

theorem eventRun_returns_twice : ∃ steps₀, ∀ steps, steps₀ ≤ steps → ∃ s' : EventState Nat,
    eventRun (fun x _ log => if asks log < 2 then some (.register (some (x + 1))) else none) steps
      [.register (some 1), .dispatch 7] (.init .zero) = some s' :=
  eventRun_returns (N := 2) (fun x which log hle => if_neg (by omega)) _ _

/-! ### Handlers that unregister themselves -/

/-- Every second element, from the first on. -/
def everyOther : List H → List H
  | [] => []
  | [x] => [x]
  | x :: _ :: l => x :: everyOther l

omit [DecidableEq H] in
theorem everyOther_cons (x : H) (l : List H) : everyOther (x :: l) = x :: everyOther (l.drop 1) := by
  cases l <;> rfl

/-- What is behind the handler moves into its place. -/
theorem oneShot_handler (depth : Nat) (which : UInt32) {front rest : List H} {x : H}
    (hl : s.handlers.Lists (front ++ x :: rest)) :
    ∃ t front', eventExec oneShot 2 depth (.handler x which) (s.note (.called depth x which)) = some t ∧
      handled depth t.log = handled depth s.log ++ [(x, which)] ∧ t.handlers.Lists (front' ++ rest) ∧
      front'.Perm front := by
  have hmem : x ∈ front ++ x :: rest := List.mem_append_right _ (List.mem_cons_self ..)
  obtain ⟨front', herase, hperm⟩ : ∃ front', (front ++ x :: rest).erase x = front' ++ rest ∧ front'.Perm front := by
    by_cases hx : x ∈ front
    · refine ⟨front.erase x ++ [x], ?_, (List.perm_append_comm).trans (List.perm_cons_erase hx).symm⟩
      rw [List.erase_append_left _ hx, List.append_assoc]
      rfl
    · exact ⟨front, by rw [List.erase_append_right _ hx, List.erase_cons_head], .refl _⟩
  have hnote : ((s.note (.called depth x which)).note (.asked (.unregister (some x)))).handlers.Lists
    (front ++ x :: rest) := hl
  obtain ⟨t, ht, hext⟩ := eventUnregister_mem hnote hmem
  refine ⟨t.note (.returned depth), front', ?_, ?_, ?_, hperm⟩
  · have hfirst : oneShot x which (s.note (.called depth x which)).log = some (.unregister (some x)) := by
      simp [oneShot, EventState.note]
    have hlast : oneShot x which t.log = none := by
      rw [hext.log_eq]
      simp [oneShot]
    simp only [eventExec, hfirst, ht, Option.bind_some, hlast]
  · show handled depth (t.log ++ _) = _
    rw [hext.log_eq]
    simp [handled, EventState.note]
  · have htable := hext.table
    rw [← herase]
    exact htable

/-- The loop over the handlers behind `front`. -/
theorem oneShot_loop (depth : Nat) (which : UInt32) (front rest : List H) (hl : s.handlers.Lists (front ++ rest)) :
    ∃ n s' left, eventExec oneShot n depth (.loop which front.length) s = some s' ∧
      handled depth s'.log = handled depth s.log ++ (everyOther rest).map (·, which) ∧
      s'.handlers.Lists left ∧ left.Perm (front ++ everyOther (rest.drop 1)) := by
  induction rest using everyOther.induct generalizing front s with
  | case1 =>
    rw [List.append_nil] at hl
    exact ⟨1, s, front, eventExec_loop_end hl (Nat.le_refl _), by simp [everyOther], hl, by simp [everyOther]⟩
  | case2 x =>
    obtain ⟨t, front', ht, hhandled, hl', hperm⟩ := oneShot_handler depth which hl
    rw [List.append_nil] at hl'
    have hlen := hperm.length_eq
    exact ⟨_, t, front', eventExec_loop hl (by simp) ht (eventExec_loop_end hl' (by omega)), hhandled, hl',
      by simpa [everyOther] using hperm⟩
  | case3 x y rest ih =>
    obtain ⟨t, front', ht, hhandled, hl', hperm⟩ := oneShot_handler depth which hl
    rw [← List.singleton_append, ← List.append_assoc] at hl'
    have hlen := hperm.length_eq
    obtain ⟨n, s', left, hn, hhandled', hleft, hperm'⟩ := ih _ hl'
    rw [List.length_append, hlen, List.length_singleton] at hn
    refine ⟨_, s', left, eventExec_loop hl (by simp) ht hn, ?_, hleft, hperm'.trans ?_⟩
    · rw [hhandled', hhandled, List.append_assoc]
      rfl
    · have hcons : everyOther ((x :: y :: rest).drop 1) = [y] ++ everyOther (rest.drop 1) := everyOther_cons y rest
      rw [hcons, List.append_assoc]
      exact hperm.append_right _

theorem eventRun_register (body : H → UInt32 → List (EventLog H) → Option (EventCall H)) (hl : s.handlers.Lists l)
    (handlers : List H) :
    ∃ s', (∀ n, eventRun body (n + 1) (handlers.map fun h => .register (some h)) s = some s') ∧
      s'.handlers.Lists (l ++ handlers) ∧ ∀ depth, handled depth s'.log = handled depth s.log := by
  induction handlers generalizing s l with
  | nil => exact ⟨s, fun _ => rfl, by rwa [List.append_nil], fun _ => rfl⟩
  | cons h handlers ih =>
    obtain ⟨t, ht, hext⟩ := eventRegister_some hl h
    obtain ⟨s', hs', htable, hhandled⟩ := ih hext.table
    refine ⟨s', fun n => ?_, by rwa [List.append_cons], fun depth => ?_⟩
    · show (eventRegister (some h) s).bind (eventRun body (n + 1) _) = _
      rw [ht]
      exact hs' n
    · rw [hhandled, hext.log_eq]
      simp [handled]

/-- Handlers that unregister themselves: the first dispatch calls every second one, and leaves the others registered. -/
theorem oneShot_skips (handlers : List H) (which : UInt32) (err : ErrState) :
    ∃ steps s' left,
      eventRun oneShot steps ((handlers.map fun h => .register (some h)) ++ [.dispatch which]) (.init err) = some s' ∧
      handled 1 s'.log = (everyOther handlers).map (·, which) ∧
      s'.handlers.Lists left ∧ left.Perm (everyOther (handlers.drop 1)) := by
  obtain ⟨s, hs, htable, hhandled⟩ := eventRun_register oneShot (s := .init err) .init handlers
  obtain ⟨n, s', left, h, hhandled', hleft, hperm⟩ := oneShot_loop 1 which [] handlers htable
  refine ⟨n + 1, s', left, ?_, ?_, hleft, hperm⟩
  · unfold eventRun
    rw [List.foldlM_append]
    show (eventRun oneShot (n + 1) _ _).bind _ = _
    rw [hs]
    show (eventExec oneShot (n + 1) 0 (.call (.dispatch which)) s).bind some = _
    rw [Option.bind_fun_some]
    exact h
  · rw [hhandled', hhandled]
    rfl

end
end Pcl

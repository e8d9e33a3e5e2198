import Pcl.Array.Ops
import Pcl.Getopt.Ops
import Pcl.Htable.Table
import Pcl.Str.Decode
import Pcl.Str.Utf8

/-!
# What the frozen flag changes

The same call with the error state frozen and with it not frozen. `pcl_err_vset` returns 0 in place of -1 while the
state is frozen, so an operation that returns its value reports a success there; one that fixes its value, or thaws
the state first, does not notice.
-/

namespace Pcl

namespace ErrM
variable {α β : Type} {x : ErrM α} {e : ErrState}

/-- The frozen flag makes no difference to the value. -/
def FlagFree (x : ErrM α) (e : ErrState) : Prop :=
  (x { e with frozen := true }).map Prod.fst = (x { e with frozen := false }).map Prod.fst

/-- Sets an error, and has a value that tells what was returned for that. -/
def Reports (x : ErrM α) : Prop :=
  ∃ (l : Loc) (err : Int) (oserr : UInt32) (msg : Option CStr) (f : Int → α), err ≠ eOkay ∧ f 0 ≠ f (-1) ∧
    x = do
      let r ← errVset l err oserr msg
      return f r

theorem Reports.not_flagFree (h : x.Reports) (e : ErrState) : ¬ x.FlagFree e := by
  obtain ⟨l, err, oserr, msg, f, herr, hf, rfl⟩ := h
  intro hfree
  unfold FlagFree at hfree
  simp only [bind_run, errVset_run _ l err oserr msg herr, Option.bind_some, pure_run, Option.map_some, if_true,
    Bool.false_eq_true, if_false] at hfree
  exact hf (Option.some.inj hfree)

theorem Reports.map (h : x.Reports) {g : α → β} (hg : Function.Injective g) :
    Reports (do let a ← x; return g a) := by
  obtain ⟨l, err, oserr, msg, f, herr, hf, rfl⟩ := h
  refine ⟨l, err, oserr, msg, g ∘ f, herr, fun heq => hf (hg heq), ?_⟩
  funext e
  simp only [bind_run, Option.bind_assoc]
  rfl

theorem FlagFree.map (h : x.FlagFree e) (g : α → β) : FlagFree (do let a ← x; return g a) e := by
  have hmap : ∀ e', ((do let a ← x; return g a) e').map Prod.fst = ((x e').map Prod.fst).map g := by
    intro e'
    rw [bind_run]
    cases x e' <;> rfl
  unfold FlagFree at h ⊢
  rw [hmap, hmap, h]

theorem bind_pure_id (x : ErrM α) : (do let a ← x; return id a) = x := by
  funext e
  rw [bind_run]
  cases x e <;> rfl

/-- The computation reports an error just under `bad`, and else does not notice the flag. -/
structure ReportsIff (x : ErrM α) (bad : Prop) : Prop where
  reports : bad → x.Reports
  flagFree : ¬ bad → ∀ e, x.FlagFree e

namespace ReportsIff
variable {bad : Prop}

theorem of_reports (h : x.Reports) (hb : bad) : x.ReportsIff bad := ⟨fun _ => h, fun hn => absurd hb hn⟩

theorem pure (a : α) (hb : ¬ bad) : (Pure.pure a : ErrM α).ReportsIff bad := ⟨fun h => absurd h hb, fun _ _ => rfl⟩

theorem undef (hb : ¬ bad) : (undef : ErrM α).ReportsIff bad := ⟨fun h => absurd h hb, fun _ _ => rfl⟩

theorem map (h : x.ReportsIff bad) {g : α → β} (hg : Function.Injective g) :
    ReportsIff (do let a ← x; return g a) bad :=
  ⟨fun hb => (h.reports hb).map hg, fun hn e => (h.flagFree hn e).map g⟩

/-- A check that reports an error, with a computation behind it that does not. -/
theorem ite [Decidable bad] {y : ErrM α} (hx : x.Reports) (hy : ¬ bad → y.ReportsIff bad) :
    (if bad then x else y).ReportsIff bad := by
  by_cases hb : bad
  · rw [if_pos hb]
    exact .of_reports hx hb
  · rw [if_neg hb]
    exact hy hb

theorem flagFree_iff (h : x.ReportsIff bad) (e : ErrState) : x.FlagFree e ↔ ¬ bad :=
  ⟨fun hfree hb => (h.reports hb).not_flagFree e hfree, fun hn => h.flagFree hn e⟩

end ReportsIff
end ErrM

open ErrM

/-! ### The pointer to a container -/

/-- A call on the container at a pointer; `NULL` is a bad argument. -/
def withPtr {γ ρ : Type} (c : Option γ) (l : Loc) (nothing : ρ) (call : γ → ErrM (Int × γ × ρ)) :
    ErrM (Int × Option γ × ρ) :=
  match c with
  | none => do
    let r ← badArg l
    return (r, none, nothing)
  | some c => do
    let p ← call c
    return (p.1, some p.2.1, p.2.2)

theorem withPtr_reportsIff {γ ρ : Type} {l : Loc} {nothing : ρ} {call : γ → ErrM (Int × γ × ρ)} {bad : γ → Prop}
    (h : ∀ c, (call c).ReportsIff (bad c)) (c : Option γ) :
    (withPtr c l nothing call).ReportsIff (∀ c' ∈ c, bad c') := by
  cases c with
  | none =>
    refine .of_reports ?_ fun c' hc' => nomatch hc'
    exact ⟨l, eInval, 0, none, fun r => (r, none, nothing), by decide, by simp, rfl⟩
  | some c =>
    have hbad : (∀ c' ∈ some c, bad c') ↔ bad c := by simp
    rw [hbad]
    refine (h c).map (g := fun p => (p.1, some p.2.1, p.2.2)) ?_
    rintro ⟨r, c, out⟩ ⟨r', c', out'⟩ heq
    cases heq
    rfl

/-! ### Containers -/

section
variable {K V α : Type}

/-- With a key, `pcl_htable_put` freezes and thaws the state before it can fail. -/
theorem htablePut_reportsIff (ht : HTable K V) (key : Option K) (value : Option V) (unique : Bool) :
    (htablePut ht key value unique).ReportsIff (key = none) := by
  cases key with
  | none => exact .of_reports ⟨_, eInval, 0, none, fun r => (r, ht, []), by decide, by simp, rfl⟩ rfl
  | some key =>
    refine ⟨(fun h => nomatch h), fun _ e => ?_⟩
    have hrun : htablePut ht (some key) value unique { e with frozen := true } =
        htablePut ht (some key) value unique { e with frozen := false } := rfl
    rw [FlagFree, hrun]

theorem PArray.set_reportsIff (elem : Option α) (index : Int) (arr : PArray α) :
    (arr.set elem index).ReportsIff (index < 0 ∨ index ≥ arr.capacity) := by
  unfold PArray.set
  refine .ite ⟨_, eIndex, 0, none, fun r => (r, arr, []), by decide, by simp, rfl⟩ fun h => ?_
  dsimp only
  split
  · exact .pure _ h
  · exact .undef h

theorem PArray.remove_reportsIff (index : Int) (arr : PArray α) :
    (arr.remove index).ReportsIff (index < 0 ∨ index ≥ arr.count) := by
  unfold PArray.remove
  refine .ite ⟨_, eIndex, 0, none, fun r => (r, arr, []), by decide, by simp, rfl⟩ fun h => ?_
  dsimp only
  split
  · exact .pure _ h
  · exact .undef h

end

/-! ### Strings -/

/-- The bytes that `pcl_utf8_check` looks at. -/
def checkedBytes (s : List UInt8) (len : Nat) : List UInt8 := s.take (if len = 0 then (CStr.ofBytes s).strlen else len)

/-- A text that `pcl_utf8_check` does not accept: it is not well formed or has a byte that the check rejects. -/
def NotUtf8 (s : List UInt8) : Prop := ¬ (Utf8.Text s ∧ ∀ b ∈ s, ¬ Rejected b)

theorem utf8Check_reportsIff (s : List UInt8) (len : Nat) :
    (utf8Check s len).ReportsIff (NotUtf8 (checkedBytes s len)) := by
  unfold utf8Check NotUtf8
  rw [← utf8Ok_iff]
  dsimp only
  cases hscan : utf8Scan (s.take (if len = 0 then (CStr.ofBytes s).strlen else len)) with
  | none => exact .pure 0 (not_not_intro hscan)
  | some p =>
    refine .of_reports ⟨_, eIlseq, 0, some p.2, id, by decide, by decide, (bind_pure_id _).symm⟩ ?_
    intro hok
    cases hscan.symm.trans hok

theorem hexDecode_reportsIff (buf : Option (List UInt8)) (hex : Option CStr) :
    (hexDecode buf hex).ReportsIff (NotHex buf hex) := by
  unfold hexDecode
  split
  · rename_i b hx
    have hnot : NotHex (some b) (some hx) ↔ 2 ≤ b.length ∧ (hx.strlen < 2 ∨ hx.strlen % 2 ≠ 0 ∨
        b.length < (hexDigits hx).length / 2 ∨ ∃ c ∈ hexDigits hx, chr2bin c = none) := by
      simp [NotHex]
    rw [hnot]
    by_cases hsize : b.length < 2
    · rw [if_pos hsize]
      exact .pure _ fun h => by omega
    · rw [if_neg hsize]
      dsimp only
      by_cases hlen : hx.strlen < 2 ∨ hx.strlen % 2 ≠ 0
      · rw [if_pos hlen]
        refine .of_reports ⟨_, eInval, 0, none, fun r => (r, some (b.set 0 0)), by decide, by simp, rfl⟩ ?_
        exact ⟨by omega, hlen.elim .inl fun h => .inr (.inl h)⟩
      · rw [if_neg hlen, List.length_set]
        rw [not_or, not_not] at hlen
        by_cases hbuf : b.length < (hexDigits hx).length / 2
        · rw [if_pos hbuf]
          refine .of_reports ⟨_, eBuf, 0, none, fun r => (r, some (b.set 0 0)), by decide, by simp, rfl⟩ ?_
          exact ⟨by omega, .inr (.inr (.inl hbuf))⟩
        · rw [if_neg hbuf]
          have hloop := hexLoop_iff (hexDigits hx) (b.set 0 0) 0 (hexDigits_even (by omega) hlen.2)
          cases hrun : hexLoop (b.set 0 0) 0 (hexDigits hx) with
          | mk done b' =>
            rw [hrun] at hloop
            cases done with
            | true =>
              refine .pure _ ?_
              rintro ⟨-, h | h | h | h⟩
              · exact hlen.1 h
              · exact h hlen.2
              · exact hbuf h
              · cases hloop.2 h
            | false =>
              refine .of_reports ⟨_, eFormat, 0, none, fun r => (r, some b'), by decide, by simp, rfl⟩ ?_
              exact ⟨by omega, .inr (.inr (.inr (hloop.1 rfl)))⟩
  · rename_i hnone
    refine .pure _ ?_
    rintro ⟨b, hb, hx, hhx, -⟩
    exact hnone b hx hb hhx

theorem pclStrtoul_reportsIff (nptr : Option CStr) (base : Int) :
    (pclStrtoul nptr base).ReportsIff (NotUlong nptr base) := by
  unfold pclStrtoul
  cases nptr with
  | none =>
    exact .of_reports ⟨_, eInval, 0, _, fun r => ⟨r, none, none⟩, by decide, by simp, rfl⟩ fun s hs => nomatch hs
  | some s =>
    dsimp only
    by_cases hbad : NotUlong (some s) base
    · refine .of_reports ?_ hbad
      by_cases hempty : s.bytes = []
      · rw [if_pos hempty]
        exact ⟨_, eInval, 0, _, fun r => ⟨r, none, none⟩, by decide, by simp, rfl⟩
      · rw [if_neg hempty]
        rcases xstrtoul_bad hbad with hres | hres | hres
        · rw [hres]
          exact ⟨_, eInval, eInvalOs, none, fun r => ⟨r, some none, none⟩, by decide, by simp, rfl⟩
        · rw [hres, if_neg (show (0 : UInt32) ≠ osErange by decide), if_neg fun h => h.1 rfl, if_pos rfl]
          exact ⟨_, eInval, 0, _, fun r => ⟨r, some (some s.bytes), none⟩, by decide, by simp, rfl⟩
        · rw [if_pos hres]
          exact ⟨_, eRange, osErange, none, fun r => ⟨r, some (xstrtoul s.bytes base).endp, none⟩, by decide, by simp,
            rfl⟩
    · obtain ⟨n, rest, hres, hrest⟩ := xstrtoul_ok hbad
      have hempty : s.bytes ≠ [] := by
        intro heq
        rw [heq] at hrest
        exact absurd hrest (Nat.not_lt_zero _)
      have hend : some rest ≠ some s.bytes := by
        intro heq
        cases heq
        exact Nat.lt_irrefl _ hrest
      rw [if_neg hempty, hres, if_neg (show (0 : UInt32) ≠ osErange by decide), if_neg fun h => h.1 rfl, if_neg hend]
      exact .pure _ hbad

/-! ### Options -/

namespace OptState
variable (state : OptState)

/-- An option that needs an argument does not have it; `text` is what is behind the option, up to the end. -/
def Lacks (policy : OptPolicy) (text : List UInt8) (attached : Prop) : Prop :=
  policy = .reqArg ∧ ((pcschr text equals).length = 1 ∨ pcschr text equals = [] ∧ ¬ attached ∧ state.following = none)

/-- Behind "--" there is no long option with the argument that it needs. -/
def BadLong (arg : List UInt8) : Prop :=
  match state.options with
  | none => True
  | some options => arg.length = 3 ∨ 3 < arg.length ∧
    match options.find? fun lopt => lopt.name.bytes = (arg.drop 2).takeWhile (· ≠ equals) with
    | none => True
    | some lopt => state.Lacks lopt.policy (arg.drop 2) False

/-- A text of short options does not start with one that has the argument it needs. -/
def BadShort (text : List UInt8) : Prop :=
  match text, state.optstr with
  | opt :: rest, some optstr =>
    match pcschr optstr.bytes opt with
    | [] => True
    | _ :: marks => state.Lacks (shortPolicy marks) rest (rest ≠ [])
  | _, _ => False

/-- The command line goes on with something that is no option. -/
def Stuck : Prop :=
  match state.nextOptstr with
  | some text => state.BadShort text
  | none => ∃ arg ∈ state.argv[state.argidx]?,
    if [dash, dash] <+: arg.bytes then state.BadLong arg.bytes
    else arg.bytes.head? ≠ some dash ∨ state.optstr = none ∨ arg.bytes.length = 1 ∨ state.BadShort (arg.bytes.drop 1)

variable {state}

theorem fail_reports (line : Int) (what : String) (arg : List UInt8) : (state.fail line what arg).Reports := by
  refine ⟨_, eInval, 0, _, fun r => (⟨r, none, none⟩, state), by decide, ?_, rfl⟩
  simp

theorem longOption_reportsIff (options : List PclOption) (arg : List UInt8) :
    (state.longOption options arg).ReportsIff
      (match options.find? fun lopt => lopt.name.bytes = arg.takeWhile (· ≠ equals) with
      | none => True
      | some lopt => state.Lacks lopt.policy arg False) := by
  unfold longOption
  cases options.find? fun lopt => lopt.name.bytes = arg.takeWhile (· ≠ equals) with
  | none => exact .of_reports (fail_reports _ _ _) trivial
  | some lopt =>
    dsimp only
    unfold Lacks
    cases lopt.policy with
    | noArg => exact .pure _ fun h => nomatch h.1
    | optArg =>
      have hok : ¬ (OptPolicy.optArg = .reqArg ∧ ((pcschr arg equals).length = 1 ∨
          pcschr arg equals = [] ∧ ¬ False ∧ state.following = none)) := fun h => nomatch h.1
      split
      · rename_i h _
        cases h
      · rename_i h _
        cases h
      · exact .pure _ hok
      · split
        · exact .pure _ hok
        · split
          · exact .pure _ hok
          · exact .pure _ hok
      · exact .pure _ hok
    | reqArg =>
      cases pcschr arg equals with
      | nil =>
        cases state.following with
        | none => exact .of_reports (fail_reports _ _ _) ⟨rfl, .inr ⟨rfl, not_false, rfl⟩⟩
        | some value =>
          refine .pure _ ?_
          rintro ⟨-, h | ⟨-, -, h⟩⟩ <;> cases h
      | cons c value =>
        cases value with
        | nil => exact .of_reports (fail_reports _ _ _) ⟨rfl, .inl rfl⟩
        | cons v vs =>
          refine .pure _ ?_
          rintro ⟨-, h | ⟨h, -⟩⟩ <;> cases h

theorem parseLong_reportsIff (arg : List UInt8) : (state.parseLong arg).ReportsIff (state.BadLong arg) := by
  unfold parseLong BadLong
  cases state.options with
  | none => exact .of_reports (fail_reports _ _ _) trivial
  | some options =>
    dsimp only
    by_cases hlt : arg.length < 3
    · rw [if_pos hlt]
      exact .undef fun h => by omega
    · rw [if_neg hlt]
      by_cases heq : arg.length = 3
      · rw [if_pos heq]
        exact .of_reports (fail_reports _ _ _) (.inl heq)
      · rw [if_neg heq]
        have hbad : ∀ p : Prop, (arg.length = 3 ∨ 3 < arg.length ∧ p) ↔ p := fun p =>
          ⟨fun h => (h.resolve_left heq).2, fun h => .inr ⟨by omega, h⟩⟩
        rw [hbad]
        exact longOption_reportsIff options (arg.drop 2)

theorem foundShort_reportsIff {bad : Prop} (hbad : ¬ bad) (opt : UInt8) (value : Option (List UInt8)) (used : Nat)
    (rest : List UInt8) : (state.foundShort opt value used rest).ReportsIff bad := .pure _ hbad

theorem parseShort_reportsIff (text : List UInt8) : (state.parseShort text).ReportsIff (state.BadShort text) := by
  unfold parseShort BadShort
  cases text with
  | nil => exact .undef not_false
  | cons opt rest =>
    cases state.optstr with
    | none => exact .undef not_false
    | some optstr =>
      dsimp only
      cases pcschr optstr.bytes opt with
      | nil => exact .of_reports (fail_reports _ _ _) trivial
      | cons c marks =>
        have hfollow : ({ state with nextOptstr := some rest, optstr := some optstr } : OptState).following =
            state.following := rfl
        dsimp only
        rw [hfollow]
        unfold Lacks
        cases shortPolicy marks with
        | noArg => exact foundShort_reportsIff (fun h => nomatch h.1) _ _ _ _
        | optArg =>
          cases pcschr rest equals with
          | cons c value => exact foundShort_reportsIff (fun h => nomatch h.1) _ _ _ _
          | nil =>
            dsimp only
            split
            · exact foundShort_reportsIff (fun h => nomatch h.1) _ _ _ _
            · split
              · exact foundShort_reportsIff (fun h => nomatch h.1) _ _ _ _
              · split
                · exact foundShort_reportsIff (fun h => nomatch h.1) _ _ _ _
                · exact foundShort_reportsIff (fun h => nomatch h.1) _ _ _ _
        | reqArg =>
          cases pcschr rest equals with
          | cons c value =>
            cases value with
            | nil => exact .of_reports (fail_reports _ _ _) ⟨rfl, .inl rfl⟩
            | cons v vs =>
              dsimp only
              rw [if_neg (List.cons_ne_nil v vs)]
              refine foundShort_reportsIff ?_ _ _ _ _
              rintro ⟨-, h | ⟨h, -⟩⟩ <;> cases h
          | nil =>
            dsimp only
            by_cases hrest : rest = []
            · rw [if_pos hrest]
              cases state.following with
              | none => exact .of_reports (fail_reports _ _ _) ⟨rfl, .inr ⟨rfl, not_not_intro hrest, rfl⟩⟩
              | some value =>
                refine foundShort_reportsIff ?_ _ _ _ _
                rintro ⟨-, h | ⟨-, -, h⟩⟩ <;> cases h
            · rw [if_neg hrest]
              refine foundShort_reportsIff ?_ _ _ _ _
              rintro ⟨-, h | ⟨-, h, -⟩⟩
              · cases h
              · exact h hrest

/-- `pcl_getopt` reports an error just where it is stuck. -/
theorem getopt_reportsIff (state : OptState) : (getopt state).ReportsIff state.Stuck := by
  unfold getopt Stuck
  cases state.nextOptstr with
  | some text => exact parseShort_reportsIff text
  | none =>
    dsimp only
    by_cases hend : state.argidx = state.argv.length
    · rw [if_pos hend, hend, List.getElem?_eq_none (Nat.le_refl _)]
      exact .pure _ fun ⟨arg, h, _⟩ => nomatch h
    · rw [if_neg hend]
      cases state.argv[state.argidx]? with
      | none => exact .undef fun ⟨arg, h, _⟩ => nomatch h
      | some arg =>
        have hiff : (∃ a ∈ some arg, if [dash, dash] <+: a.bytes then state.BadLong a.bytes
            else a.bytes.head? ≠ some dash ∨ state.optstr = none ∨ a.bytes.length = 1 ∨
              state.BadShort (a.bytes.drop 1)) ↔
            if [dash, dash] <+: arg.bytes then state.BadLong arg.bytes
            else arg.bytes.head? ≠ some dash ∨ state.optstr = none ∨ arg.bytes.length = 1 ∨
              state.BadShort (arg.bytes.drop 1) := by simp
        rw [hiff]
        dsimp only
        by_cases hlong : [dash, dash] <+: arg.bytes
        · rw [if_pos hlong, if_pos hlong]
          exact parseLong_reportsIff _
        · rw [if_neg hlong, if_neg hlong]
          by_cases hdash : arg.bytes.head? ≠ some dash
          · rw [if_pos hdash]
            exact .of_reports (fail_reports _ _ _) (.inl hdash)
          · rw [if_neg hdash]
            by_cases hopt : state.optstr = none
            · rw [if_pos hopt]
              exact .of_reports (fail_reports _ _ _) (.inr (.inl hopt))
            · rw [if_neg hopt]
              by_cases hlen : arg.bytes.length = 1
              · rw [if_pos hlen]
                exact .of_reports (fail_reports _ _ _) (.inr (.inr (.inl hlen)))
              · rw [if_neg hlen]
                have hshort : (arg.bytes.head? ≠ some dash ∨ state.optstr = none ∨ arg.bytes.length = 1 ∨
                    state.BadShort (arg.bytes.drop 1)) ↔ state.BadShort (arg.bytes.drop 1) :=
                  ⟨fun h => ((h.resolve_left hdash).resolve_left hopt).resolve_left hlen,
                    fun h => .inr (.inr (.inr h))⟩
                rw [hshort]
                exact parseShort_reportsIff _

end OptState

/-! ### Every operation -/

/-- A call of one of the fallible operations on containers and strings, by what it gives: its value and the data that
it was called on, as they are afterwards. -/
inductive Operation (K V α : Type) : Type → Type where
  | htablePut (ht : Option (HTable K V)) (key : Option K) (value : Option V) (unique : Bool) :
    Operation K V α (Int × Option (HTable K V) × List (K × Option V))
  | arraySet (arr : Option (PArray α)) (elem : Option α) (index : Int) :
    Operation K V α (Int × Option (PArray α) × List (Option α))
  | arrayRemove (arr : Option (PArray α)) (index : Int) :
    Operation K V α (Int × Option (PArray α) × List (Option α))
  | utf8Check (s : List UInt8) (len : Nat) : Operation K V α Int
  | hexDecode (buf : Option (List UInt8)) (hex : Option CStr) : Operation K V α (Int × Option (List UInt8))
  | strtoul (nptr : Option CStr) (base : Int) : Operation K V α PclStrtoulResult
  | getopt (state : Option OptState) : Operation K V α (OptResult × Option OptState)

namespace Operation
variable {K V α ρ : Type}

/-- The call. -/
def run : Operation K V α ρ → ErrM ρ
  | htablePut ht key value unique => withPtr ht (loc "htable_put.c" "pcl_htable_put" 41) [] fun ht =>
    Pcl.htablePut ht key value unique
  | arraySet arr elem index => withPtr arr (loc "array_set.c" "pcl_array_set" 39) [] fun arr => arr.set elem index
  | arrayRemove arr index => withPtr arr (loc "array_remove.c" "pcl_array_remove" 40) [] fun arr => arr.remove index
  | utf8Check s len => Pcl.utf8Check s len
  | hexDecode buf hex => Pcl.hexDecode buf hex
  | strtoul nptr base => pclStrtoul nptr base
  | getopt none => do
    let r ← badArg (loc "getopt.c" "pcl_getopt" 41)
    return (⟨r, none, none⟩, none)
  | getopt (some state) => do
    let p ← Pcl.getopt state
    return (p.1, some p.2)

/-- The call is one that has to fail with the value that setting the error gives. -/
def Fails : Operation K V α ρ → Prop
  | htablePut ht key _ _ => ∀ ht' ∈ ht, key = none
  | arraySet arr _ index => ∀ arr' ∈ arr, index < 0 ∨ index ≥ arr'.capacity
  | arrayRemove arr index => ∀ arr' ∈ arr, index < 0 ∨ index ≥ arr'.count
  | utf8Check s len => NotUtf8 (checkedBytes s len)
  | hexDecode buf hex => NotHex buf hex
  | strtoul nptr base => NotUlong nptr base
  | getopt state => ∀ state' ∈ state, state'.Stuck

theorem run_reportsIff (op : Operation K V α ρ) : op.run.ReportsIff op.Fails := by
  cases op with
  | htablePut ht key value unique => exact withPtr_reportsIff (fun ht => htablePut_reportsIff ht key value unique) ht
  | arraySet arr elem index => exact withPtr_reportsIff (fun arr => arr.set_reportsIff elem index) arr
  | arrayRemove arr index => exact withPtr_reportsIff (fun arr => arr.remove_reportsIff index) arr
  | utf8Check s len => exact utf8Check_reportsIff s len
  | hexDecode buf hex => exact hexDecode_reportsIff buf hex
  | strtoul nptr base => exact pclStrtoul_reportsIff nptr base
  | getopt state =>
    cases state with
    | none =>
      refine .of_reports ?_ fun state' h => nomatch h
      exact ⟨_, eInval, 0, none, fun r => (⟨r, none, none⟩, none), by decide, by simp, rfl⟩
    | some state =>
      have hstuck : Fails (getopt (some state) : Operation K V α _) ↔ state.Stuck := by simp [Fails]
      rw [hstuck]
      refine (OptState.getopt_reportsIff state).map (g := fun p => (p.1, some p.2)) ?_
      rintro ⟨res, state⟩ ⟨res', state'⟩ heq
      cases heq
      rfl

end Operation

/-- The frozen flag makes no difference just to the calls that do not fail. -/
theorem operation_flagFree_iff {K V α ρ : Type} (op : Operation K V α ρ) (e : ErrState) :
    op.run.FlagFree e ↔ ¬ op.Fails := op.run_reportsIff.flagFree_iff e

/-- Setting an element behind the table of an empty array succeeds while the state is frozen. -/
theorem arraySet_not_flagFree :
    ¬ (Operation.arraySet (some (PArray.new 0 false)) (some 7) 0 : Operation Nat Nat Nat _).run.FlagFree .zero := by
  intro h
  cases h

end Pcl

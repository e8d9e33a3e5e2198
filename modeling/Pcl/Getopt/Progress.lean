import Pcl.Getopt.Render
import Mathlib.Data.Prod.Lex

/-!
# Progress on a command line

Every positive return of `pcl_getopt` moves its cursor on, and the cursor stays inside the arguments. `Call`
says all that one call does to the state; progress, the bounds and the end of the loop are read off it. For "--"
the test for a stray dash reads the byte behind the argument's NUL, which can have any value here.
-/

namespace Pcl

namespace OptState

/-- `next_optstr` as an offset in the current argument, 0 outside a sequence of short options. -/
def position (s : OptState) : Nat :=
  match s.nextOptstr, s.argv[s.argidx]? with
  | some text, some arg => arg.bytes.length - text.length
  | _, _ => 0

def cursor (s : OptState) : ℕ ×ₗ ℕ := toLex (s.argidx, s.position)

end OptState

/-- `pcl_getopt` where `behind i` is the byte behind the NUL of argument `i`. -/
def getoptMem (behind : Nat → UInt8) (state : OptState) : ErrM (OptResult × OptState) :=
  match state.nextOptstr, state.argv[state.argidx]?, state.options with
  | none, some arg, some options =>
    if arg.bytes = [dash, dash] then
      if behind state.argidx = 0 then state.fail 70 "stray dash found" arg.bytes
      else state.longOption options (arg.bytes.drop 2)
    else getopt state
  | _, _, _ => getopt state

/-- A loop that calls `pcl_getopt` until it returns a value that is not positive: that value and the state. -/
def getoptLoop (behind : Nat → UInt8) : Nat → OptState → ErrM (Option (Int × OptState))
  | 0, _ => return none
  | fuel + 1, state => do
    let (r, state) ← getoptMem behind state
    if 0 < r.ret then getoptLoop behind fuel state else return some (r.ret, state)

namespace OptState
variable {s s' : OptState}

/-- The arguments are not left, and a sequence of short options lies behind the first character of one. -/
structure Within (s : OptState) : Prop where
  argidx_le : s.argidx ≤ s.argv.length
  cluster : ∀ text, s.nextOptstr = some text →
    s.optstr ≠ none ∧ ∃ arg front, s.argv[s.argidx]? = some arg ∧ arg.bytes = front ++ text ∧ front ≠ []

/-- The short options that `ParseShortOption` is at. -/
def Reading (s : OptState) (text : List UInt8) : Prop :=
  s.nextOptstr = some text ∨ s.nextOptstr = none ∧ ∃ arg, s.argv[s.argidx]? = some arg ∧ arg.bytes = dash :: text

/-- All that a call of `pcl_getopt` does to the state: nothing, one short option of several, or the end of an
argument with `used` further ones taken for the value. -/
inductive Call (s : OptState) : OptState → Int → Prop where
  | stays {ret} (h : ret ≤ 0) : Call s s ret
  | within {opt rest ret} (hoptstr : s.optstr ≠ none) (hread : s.Reading (opt :: rest)) (h : ret ≤ 0 ∨ rest ≠ []) :
      Call s { s with nextOptstr := some rest } ret
  | leaves {ret} (used : Nat) (h : s.argidx + used < s.argv.length) :
      Call s { s with argidx := s.argidx + used + 1, nextOptstr := none } ret

/-! ### What a call does -/

/-- The call is defined and is one of the three. -/
def Calls (s : OptState) (x : ErrM (OptResult × OptState)) : Prop :=
  ∀ e, ∃ r s' e', x e = some ((r, s'), e') ∧ s.Call s' r.ret

theorem fail_calls (line : Int) (what : String) (arg : List UInt8) : s.Calls (s.fail line what arg) := by
  intro e
  obtain ⟨r, e', hfail, -, hle⟩ := s.fail_run (e := e) line what arg
  exact ⟨r, s, e', hfail, .stays hle⟩

theorem following_some {value : List UInt8} (h : s.following = some value) : s.argidx + 1 < s.argv.length := by
  obtain ⟨arg, hget, -⟩ := Option.map_eq_some_iff.1 h
  exact (List.getElem?_eq_some_iff.1 hget).1

theorem foundLong_calls (hnext : s.nextOptstr = none) (lopt : PclOption) (value : Option (List UInt8)) {used : Nat}
    (h : s.argidx + used < s.argv.length) : s.Calls (s.foundLong lopt value used) := by
  intro e
  obtain ⟨argidx, next, argv, optstr, options⟩ := s
  cases hnext
  exact ⟨_, _, e, rfl, .leaves used h⟩

theorem longOption_calls (hnext : s.nextOptstr = none) (options : List PclOption) (arg : List UInt8)
    (h : s.argidx < s.argv.length) : s.Calls (s.longOption options arg) := by
  unfold longOption
  dsimp only
  split
  · exact fail_calls _ _ _
  · split
    · split
      · exact fail_calls _ _ _
      · exact foundLong_calls hnext _ _ h
    · split
      · exact fail_calls _ _ _
      · next hfollow => exact foundLong_calls hnext _ _ (following_some hfollow)
    · exact foundLong_calls hnext _ _ h
    · split
      · exact foundLong_calls hnext _ _ h
      · next hfollow =>
        split
        · exact foundLong_calls hnext _ _ (following_some hfollow)
        · exact foundLong_calls hnext _ _ h
    · exact foundLong_calls hnext _ _ h

theorem foundShort_calls {opt : UInt8} {rest : List UInt8} (hoptstr : s.optstr ≠ none) (hread : s.Reading (opt :: rest))
    (value : Option (List UInt8)) {used : Nat} {behind : List UInt8} (h : s.argidx + used < s.argv.length)
    (hbehind : behind ≠ [] → used = 0 ∧ behind = rest) :
    s.Calls (foundShort { s with nextOptstr := some rest } opt value used behind) := by
  intro e
  unfold foundShort
  by_cases hnil : behind = []
  · rw [if_pos hnil]
    exact ⟨_, _, e, rfl, .leaves used h⟩
  · obtain ⟨rfl, rfl⟩ := hbehind hnil
    rw [if_neg hnil]
    exact ⟨_, _, e, rfl, .within hoptstr hread (.inr hnil)⟩

theorem parseShort_calls {opt : UInt8} {rest : List UInt8} (hoptstr : s.optstr ≠ none) (hread : s.Reading (opt :: rest))
    (h : s.argidx < s.argv.length) : s.Calls (s.parseShort (opt :: rest)) := by
  have hfail : ∀ line what, s.Calls (fail { s with nextOptstr := some rest } line what [opt]) := by
    intro line what e
    obtain ⟨r, e', hfail, -, hle⟩ := fail_run (s := { s with nextOptstr := some rest }) (e := e) line what [opt]
    exact ⟨r, _, e', hfail, .within hoptstr hread (.inl hle)⟩
  have hlast : ∀ value, s.Calls (foundShort { s with nextOptstr := some rest } opt value 0 []) :=
    fun value => foundShort_calls hoptstr hread value h fun hne => absurd rfl hne
  have hnext : ∀ value text, s.following = some text →
      s.Calls (foundShort { s with nextOptstr := some rest } opt value 1 []) :=
    fun value text hfollow => foundShort_calls hoptstr hread value (following_some hfollow) fun hne => absurd rfl hne
  obtain ⟨argidx, next, argv, _ | optstr, options⟩ := s
  · exact absurd rfl hoptstr
  unfold parseShort
  simp only
  split
  · exact hfail _ _
  · split
    · split
      · exact hfail _ _
      · exact hlast _
    · split
      · split
        · exact hfail _ _
        · next hfollow => exact hnext _ _ hfollow
      · exact hlast _
    · exact hlast _
    · split
      · exact hlast _
      · split
        · exact hlast _
        · next hfollow =>
          split
          · exact hnext _ _ hfollow
          · exact hlast _
    · exact foundShort_calls hoptstr hread none h fun _ => ⟨rfl, rfl⟩

theorem getopt_calls (hs : s.Within) (htext : s.nextOptstr ≠ some [])
    (hdash : ∀ arg options, s.nextOptstr = none → s.argv[s.argidx]? = some arg → s.options = some options →
      arg.bytes ≠ [dash, dash]) :
    s.Calls (getopt s) := by
  unfold getopt
  split
  · next text hnext =>
    obtain ⟨hoptstr, arg, front, hget, -⟩ := hs.cluster text hnext
    cases text with
    | nil => exact absurd hnext htext
    | cons opt rest => exact parseShort_calls hoptstr (.inl hnext) (List.getElem?_eq_some_iff.1 hget).1
  · next hnext =>
    split
    · exact fun e => ⟨_, s, e, rfl, .stays (Int.le_refl 0)⟩
    · next hne =>
      have hlt : s.argidx < s.argv.length := Nat.lt_of_le_of_ne hs.argidx_le hne
      rw [List.getElem?_eq_getElem hlt]
      simp only
      split
      · next hlong =>
        cases hoptions : s.options with
        | none =>
          unfold parseLong
          rw [hoptions]
          exact fail_calls _ _ _
        | some options =>
          rw [parseLong_eq options _ hoptions, if_neg]
          · split
            · exact fail_calls _ _ _
            · exact longOption_calls hnext _ _ hlt
          · intro hlen
            obtain ⟨name, hname⟩ := hlong
            refine hdash _ options hnext (List.getElem?_eq_getElem hlt) hoptions ?_
            rw [← hname, List.length_append] at hlen
            have hnil : name = [] := List.eq_nil_of_length_eq_zero (Nat.lt_one_iff.1 (Nat.lt_of_add_lt_add_left hlen))
            rw [← hname, hnil]
            rfl
      · split
        · exact fail_calls _ _ _
        · next hhead =>
          split
          · exact fail_calls _ _ _
          · next hoptstr =>
            split
            · exact fail_calls _ _ _
            · next hlen =>
              obtain ⟨text, htext⟩ := List.head?_eq_some_iff.1 (Decidable.not_not.1 hhead)
              rw [htext] at hlen ⊢
              cases text with
              | nil => exact absurd rfl hlen
              | cons opt rest => exact parseShort_calls hoptstr (.inr ⟨hnext, _, List.getElem?_eq_getElem hlt, htext⟩) hlt

theorem getoptMem_calls (behind : Nat → UInt8) (hs : s.Within) (htext : s.nextOptstr ≠ some []) :
    s.Calls (getoptMem behind s) := by
  unfold getoptMem
  split
  · next arg options hnext hget hoptions =>
    split
    · split
      · exact fail_calls _ _ _
      · exact longOption_calls hnext _ _ (List.getElem?_eq_some_iff.1 hget).1
    · next hdash =>
      refine getopt_calls hs htext fun arg' _ _ hget' _ => ?_
      rw [hget] at hget'
      cases hget'
      exact hdash
  · next hother =>
    exact getopt_calls hs htext fun arg options hnext hget hoptions => absurd hoptions (hother arg options hnext hget)

/-! ### Progress -/

theorem Within.initial (argv : List CStr) (optstr : Option CStr) (options : Option (List PclOption))
    (h : argv ≠ []) : Within ⟨1, none, argv, optstr, options⟩ :=
  ⟨List.length_pos_iff.2 h, fun _ htext => nomatch htext⟩

theorem Reading.split {text : List UInt8} (hs : s.Within) (h : s.Reading text) :
    ∃ arg front, s.argv[s.argidx]? = some arg ∧ arg.bytes = front ++ text ∧ front ≠ [] := by
  rcases h with h | ⟨-, arg, hget, hbytes⟩
  · exact (hs.cluster text h).2
  · exact ⟨arg, [dash], hget, hbytes, List.cons_ne_nil _ _⟩

theorem Call.keeps {ret : Int} (h : s.Call s' ret) (hs : s.Within) : s'.Within ∧ s'.argv = s.argv := by
  cases h with
  | stays h => exact ⟨hs, rfl⟩
  | @within opt rest _ hoptstr hread h =>
    refine ⟨⟨hs.argidx_le, ?_⟩, rfl⟩
    rintro text ⟨rfl⟩
    obtain ⟨arg, front, hget, hbytes, -⟩ := hread.split hs
    refine ⟨hoptstr, arg, front ++ [opt], hget, ?_, List.append_ne_nil_of_right_ne_nil _ (List.cons_ne_nil _ _)⟩
    rw [hbytes, List.append_assoc]
    rfl
  | leaves used h => exact ⟨⟨h, fun _ htext => nomatch htext⟩, rfl⟩

/-- A positive return is no failure, so it does not stop in front of a NUL. -/
theorem Call.text_ne_nil {ret : Int} (h : s.Call s' ret) (hret : 0 < ret) : s'.nextOptstr ≠ some [] := by
  cases h with
  | stays h => omega
  | within hoptstr hread h =>
    rintro ⟨rfl⟩
    rcases h with h | h
    · omega
    · exact h rfl
  | leaves used h => exact fun h => nomatch h

theorem Call.advances {ret : Int} (h : s.Call s' ret) (hs : s.Within) (hret : 0 < ret) : s.cursor < s'.cursor := by
  rw [cursor, cursor, Prod.Lex.toLex_lt_toLex]
  cases h with
  | stays h => omega
  | @within opt rest _ hoptstr hread h =>
    refine .inr ⟨rfl, ?_⟩
    obtain ⟨arg, front, hget, hbytes, hfront⟩ := hread.split hs
    have hpos : 0 < front.length := List.length_pos_iff.2 hfront
    have hlen : arg.bytes.length = front.length + rest.length + 1 := by
      rw [hbytes, List.length_append, List.length_cons, Nat.add_assoc]
    have hafter : ({ s with nextOptstr := some rest } : OptState).position = front.length + 1 := by
      simp only [position, hget]
      omega
    have hbefore : s.position ≤ front.length := by
      rcases hread with hnext | ⟨hnext, -⟩
      · simp only [position, hnext, hget, List.length_cons]
        omega
      · simp only [position, hnext]
        omega
    omega
  | leaves used h => exact .inl (Nat.lt_succ_of_le (Nat.le_add_right _ _))

/-- What is left for the cursor, by arguments and by characters of the current one. -/
def toGo (s : OptState) : ℕ ×ₗ ℕ :=
  toLex (s.argv.length - s.argidx, (s.argv[s.argidx]?.elim 0 fun arg => arg.bytes.length) - s.position)

theorem position_le (s : OptState) : s.position ≤ s.argv[s.argidx]?.elim 0 fun arg => arg.bytes.length := by
  unfold position
  split
  · next hget =>
    rw [hget]
    exact Nat.sub_le _ _
  · exact Nat.zero_le _

theorem toGo_lt (h : s.cursor < s'.cursor) (hs' : s'.Within) (hargv : s'.argv = s.argv) : s'.toGo < s.toGo := by
  have hle := hs'.argidx_le
  have hpos := s'.position_le
  rw [cursor, cursor, Prod.Lex.toLex_lt_toLex] at h
  rw [toGo, toGo, Prod.Lex.toLex_lt_toLex]
  rw [hargv] at hle hpos ⊢
  rcases h with h | ⟨h₁, h₂⟩
  · exact .inl (Nat.sub_lt_sub_left (Nat.lt_of_lt_of_le h hle) h)
  · simp only at h₁ h₂
    rw [← h₁] at hpos ⊢
    exact .inr ⟨rfl, Nat.sub_lt_sub_left (Nat.lt_of_lt_of_le h₂ hpos) h₂⟩

end OptState

/-- The states that calls of `pcl_getopt` lead to, whatever they return and whatever the error state is at each. -/
inductive Reached (behind : Nat → UInt8) (s : OptState) : OptState → Prop where
  | start : Reached behind s s
  | call {s' s'' e e' r} (h : Reached behind s s') (hcall : getoptMem behind s' e = some ((r, s''), e')) :
      Reached behind s s''

open OptState

variable {behind : Nat → UInt8} {s s' : OptState} {e e' : ErrState} {r : OptResult}

/-- Where `pcl_getopt` reads no byte behind a NUL, what is there makes no difference. -/
theorem getoptMem_of_getopt {x : (OptResult × OptState) × ErrState} (behind : Nat → UInt8)
    (h : getopt s e = some x) : getoptMem behind s e = some x := by
  have heq : getoptMem behind s = getopt s := by
    unfold getoptMem
    split
    · next arg options hnext hget hoptions =>
      refine if_neg fun hdash => ?_
      have hne : s.argidx ≠ s.argv.length := Nat.ne_of_lt (List.getElem?_eq_some_iff.1 hget).1
      unfold getopt at h
      simp only [hnext, if_neg hne, hget, hdash, List.prefix_rfl, if_true, parseLong_eq options _ hoptions] at h
      exact nomatch h
    · rfl
  rw [heq, h]

/-- Behind a failure at the last character the next call reads past the NUL, so it has no result. -/
theorem getoptMem_call (hs : s.Within) (h : getoptMem behind s e = some ((r, s'), e')) : s.Call s' r.ret := by
  by_cases htext : s.nextOptstr = some []
  · have hundef : getoptMem behind s e = none := by
      unfold getoptMem getopt parseShort
      rw [htext]
      rfl
    rw [hundef] at h
    exact nomatch h
  · obtain ⟨r₁, s₁, e₁, h₁, hcall⟩ := getoptMem_calls behind hs htext e
    rw [h₁] at h
    simp only [Option.some.injEq, Prod.mk.injEq] at h
    obtain ⟨⟨rfl, rfl⟩, -⟩ := h
    exact hcall

theorem Reached.within (h : Reached behind s s') (hs : s.Within) : s'.Within ∧ s'.argv = s.argv := by
  induction h with
  | start => exact ⟨hs, rfl⟩
  | call h hcall ih =>
    obtain ⟨hs', hargv⟩ := (getoptMem_call ih.1 hcall).keeps ih.1
    exact ⟨hs', hargv.trans ih.2⟩

theorem getoptLoop_ends (hs : s.Within) (htext : s.nextOptstr ≠ some []) (e : ErrState) :
    ∃ fuel ret s' e', getoptLoop behind fuel s e = some (some (ret, s'), e') := by
  induction hgo : s.toGo using WellFoundedLT.induction generalizing s e with
  | ind m ih =>
    subst hgo
    obtain ⟨r, s₁, e₁, h₁, hcall⟩ := getoptMem_calls behind hs htext e
    by_cases hret : 0 < r.ret
    · obtain ⟨hs₁, hargv⟩ := hcall.keeps hs
      have hlt : s₁.toGo < s.toGo := toGo_lt (hcall.advances hs hret) hs₁ hargv
      obtain ⟨fuel, ret, s', e', hloop⟩ := ih _ hlt hs₁ (hcall.text_ne_nil hret) e₁ rfl
      refine ⟨fuel + 1, ret, s', e', ?_⟩
      rw [getoptLoop, ErrM.bind_run, h₁, Option.bind_some]
      simp only [if_pos hret]
      exact hloop
    · refine ⟨1, r.ret, s₁, e₁, ?_⟩
      rw [getoptLoop, ErrM.bind_run, h₁, Option.bind_some]
      simp only [if_neg hret]
      rfl

theorem initopt_some {argv : List CStr} {optstr : Option CStr} {options : Option (List PclOption)} {e₀ e₁ : ErrState}
    (h : initopt argv optstr options e₀ = some (some s, e₁)) : argv ≠ [] ∧ s = ⟨1, none, argv, optstr, options⟩ := by
  unfold initopt at h
  split at h
  · rw [setErrNull_run _ _ _ (by decide)] at h
    cases h
  · next hvalid =>
    cases h
    exact ⟨fun hnil => hvalid (.inl hnil), rfl⟩

/-- From `pcl_initopt` on the index stays inside the arguments and every positive return moves the cursor on, so the
loop ends; an argument from `argc` on would leave it without a result. -/
theorem getopt_progress (behind : Nat → UInt8) (argv : List CStr) (optstr : Option CStr)
    (options : Option (List PclOption)) (s : OptState) (e₀ e₁ : ErrState)
    (h : initopt argv optstr options e₀ = some (some s, e₁)) :
    (∀ s', Reached behind s s' → s'.argidx ≤ argv.length ∧
      ∀ e r s'' e', getoptMem behind s' e = some ((r, s''), e') → 0 < r.ret → s'.cursor < s''.cursor) ∧
    ∀ e, ∃ fuel ret s' e', getoptLoop behind fuel s e = some (some (ret, s'), e') := by
  obtain ⟨hargv, rfl⟩ := initopt_some h
  have hs : Within ⟨1, none, argv, optstr, options⟩ := .initial argv optstr options hargv
  refine ⟨fun s' hreached => ?_, getoptLoop_ends hs fun h => nomatch h⟩
  obtain ⟨hs', hargv'⟩ := hreached.within hs
  refine ⟨?_, fun e r s'' e' hcall hret => (getoptMem_call hs' hcall).advances hs' hret⟩
  exact Nat.le_trans hs'.argidx_le (Nat.le_of_eq (congrArg List.length hargv'))

/-- A program whose only argument is a sequence of two short options. -/
theorem getopt_progress_ab :
    let s : OptState := ⟨1, none, [⟨[ch 'p'], by decide⟩, ⟨[dash, ch 'a', ch 'b'], by decide⟩],
      some ⟨[ch 'a', ch 'b'], by decide⟩, none⟩
    (∀ s', Reached (fun _ => 0) s s' → s'.argidx ≤ 2 ∧
      ∀ e r s'' e', getoptMem (fun _ => 0) s' e = some ((r, s''), e') → 0 < r.ret → s'.cursor < s''.cursor) ∧
    ∀ e, ∃ fuel ret s' e', getoptLoop (fun _ => 0) fuel s e = some (some (ret, s'), e') :=
  getopt_progress (fun _ => 0) [⟨[ch 'p'], by decide⟩, ⟨[dash, ch 'a', ch 'b'], by decide⟩]
    (some ⟨[ch 'a', ch 'b'], by decide⟩) none _ .zero .zero rfl

end Pcl

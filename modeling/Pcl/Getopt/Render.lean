import Pcl.Getopt.Ops

/-!
# Options on a command line

The documented forms of an option and its value, and what the calls of `pcl_getopt` make of them. They come
back as written but for a one-character long name without '=', an attached value with a '=' in it, and a
form "=value" whose value is empty.
-/

namespace Pcl
open OptState (shortPolicy)

/-- The short and long options of a program. -/
structure OptTable where
  shorts : List (UInt8 × OptPolicy)
  longs : List PclOption
  shorts_nodup : (shorts.map Prod.fst).Nodup
  short_char : ∀ c ∈ shorts.map Prod.fst, c ≠ 0 ∧ c ≠ colon ∧ c ≠ equals ∧ c ≠ dash
  longs_nodup : (longs.map PclOption.name).Nodup
  long_name : ∀ o ∈ longs, o.name.bytes ≠ [] ∧ equals ∉ o.name.bytes
  long_val : ∀ o ∈ longs, 0 < o.val
  agree : ∀ s ∈ shorts, ∀ o ∈ longs, o.val = charInt s.1 → o.policy = s.2

/-- How a value is given: behind the option in its argument, behind a '=' there, or as the next argument. -/
inductive Given where
  | nothing
  | attached (v : List UInt8)
  | assigned (v : List UInt8)
  | separate (v : List UInt8)

namespace Given

def value : Given → Option (List UInt8)
  | nothing => none
  | attached v | assigned v | separate v => some v

/-- What stands behind the option in its argument. -/
def tail : Given → List UInt8
  | nothing | separate _ => []
  | attached v => v
  | assigned v => equals :: v

/-- The arguments behind that of the option. -/
def next : Given → List (List UInt8)
  | nothing | attached _ | assigned _ => []
  | separate v => [v]

/-- The value is one for an option with this policy. An attached one is not empty, else nothing would be attached. -/
def Legal : Given → OptPolicy → Prop
  | nothing, p => p ≠ .reqArg
  | attached v, p => p ≠ .noArg ∧ v ≠ [] ∧ v.head? ≠ some equals
  | assigned _, p => p ≠ .noArg
  | separate v, p => p = .reqArg ∨ p = .optArg ∧ v.head? ≠ some dash

instance : (g : Given) → (p : OptPolicy) → Decidable (g.Legal p)
  | nothing, p => inferInstanceAs (Decidable (p ≠ .reqArg))
  | attached v, p => inferInstanceAs (Decidable (p ≠ .noArg ∧ v ≠ [] ∧ v.head? ≠ some equals))
  | assigned _, p => inferInstanceAs (Decidable (p ≠ .noArg))
  | separate v, p => inferInstanceAs (Decidable (p = .reqArg ∨ p = .optArg ∧ v.head? ≠ some dash))

end Given

/-- Options of one command-line argument, with the value of the last. -/
inductive Item where
  | short (flags : List UInt8) (opt : UInt8) (given : Given)
  | long (lopt : PclOption) (given : Given)

namespace Item

/-- The options are in the table, with values they can take. What follows an option with a value in its argument
is that value, so those before the last take none. -/
def Legal (T : OptTable) : Item → Prop
  | short flags opt given => (∀ c ∈ flags, (c, OptPolicy.noArg) ∈ T.shorts) ∧ ∃ p, (opt, p) ∈ T.shorts ∧ given.Legal p
  | long lopt given => lopt ∈ T.longs ∧ given.Legal lopt.policy ∧ ∀ v, given ≠ .attached v

/-- The arguments. -/
def render : Item → List (List UInt8)
  | short flags opt given => (dash :: (flags ++ opt :: given.tail)) :: given.next
  | long lopt given => (dash :: dash :: (lopt.name.bytes ++ given.tail)) :: given.next

/-- The options with their values, in order. -/
def options : Item → List (Int × Option (List UInt8))
  | short flags opt given => flags.map (fun c => (charInt c, none)) ++ [(charInt opt, given.value)]
  | long lopt given => [(lopt.val, given.value)]

/-- The forms that `pcl_getopt` gets right. -/
def Parsed : Item → Prop
  | short _ _ (.attached v) => equals ∉ v
  | short _ _ (.assigned v) | long _ (.assigned v) => v ≠ []
  | short _ _ _ => True
  | long lopt _ => lopt.name.bytes.length ≠ 1

instance : (it : Item) → Decidable it.Parsed
  | short _ _ .nothing | short _ _ (.separate _) => isTrue trivial
  | short _ _ (.attached v) => inferInstanceAs (Decidable (equals ∉ v))
  | short _ _ (.assigned v) | long _ (.assigned v) => inferInstanceAs (Decidable (v ≠ []))
  | long lopt .nothing | long lopt (.attached _) | long lopt (.separate _) =>
    inferInstanceAs (Decidable (lopt.name.bytes.length ≠ 1))

end Item

/-- The calls of `pcl_getopt` until it returns 0 return these options and values. -/
inductive Yields : OptState → ErrState → List (Int × Option (List UInt8)) → Prop where
  | done {s e r s' e'} (h : getopt s e = some ((r, s'), e')) (hr : r.ret = 0) : Yields s e []
  | call {s e r s' e' l} (h : getopt s e = some ((r, s'), e')) (hr : r.ret ≠ 0) (hl : Yields s' e' l) :
      Yields s e ((r.ret, r.value) :: l)

namespace Yields
variable {s s' : OptState} {e e' : ErrState} {r : OptResult} {x : Int × Option (List UInt8)}
  {l : List (Int × Option (List UInt8))}

theorem cons_iff (h : getopt s e = some ((r, s'), e')) :
    Yields s e (x :: l) ↔ r.ret ≠ 0 ∧ x = (r.ret, r.value) ∧ Yields s' e' l := by
  constructor
  · intro hy
    cases hy with
    | call h' hr hl =>
      rw [h] at h'
      cases h'
      exact ⟨hr, rfl, hl⟩
  · rintro ⟨hr, rfl, hl⟩
    exact .call h hr hl

theorem congr {s₂ : OptState} (h : getopt s e = getopt s₂ e) : Yields s e l ↔ Yields s₂ e l := by
  constructor
  · intro hy
    cases hy with
    | done h' hr => exact .done (h.symm.trans h') hr
    | call h' hr hl => exact .call (h.symm.trans h') hr hl
  · intro hy
    cases hy with
    | done h' hr => exact .done (h.trans h') hr
    | call h' hr hl => exact .call (h.trans h') hr hl

end Yields

theorem charInt_ne_zero {c : UInt8} (h : c ≠ 0) : charInt c ≠ 0 := by
  unfold charInt
  split
  · intro hc
    exact h (UInt8.toNat_inj.1 (Int.ofNat_inj.1 hc))
  · have hlt := c.toNat_lt
    omega

namespace OptTable

/-- The marks behind a short option in `optstr`. -/
def marks : OptPolicy → List UInt8
  | .noArg => []
  | .reqArg => [colon]
  | .optArg => [colon, colon]

/-- The text of `optstr` for these short options. -/
def optText (shorts : List (UInt8 × OptPolicy)) : List UInt8 := shorts.flatMap fun s => s.1 :: marks s.2

/-- The table is what `pcl_initopt` was given; `NULL` stands for no options. -/
structure Initial (T : OptTable) (optstr : Option CStr) (options : Option (List PclOption)) : Prop where
  optstr_eq : (optstr.map CStr.bytes).getD [] = optText T.shorts
  options_eq : options.getD [] = T.longs

end OptTable

/-! ### Looking options up -/

theorem pcschr_of_not_mem {s : List UInt8} {c : UInt8} (h : c ∉ s) : pcschr s c = [] :=
  List.dropWhile_eq_nil_iff.2 fun _ hx => decide_eq_true fun heq => h (heq ▸ hx)

theorem pcschr_append {s : List UInt8} {c : UInt8} (h : c ∉ s) (l : List UInt8) : pcschr (s ++ c :: l) c = c :: l := by
  have hall : ∀ x ∈ s, decide (x ≠ c) = true := fun x hx => decide_eq_true fun heq => h (heq ▸ hx)
  unfold pcschr
  rw [List.dropWhile_append_of_pos hall, List.dropWhile_cons_of_neg (by simp)]

/-- No mark can be taken for one of the next option. -/
theorem optText_head {l : List (UInt8 × OptPolicy)} (h : ∀ c ∈ l.map Prod.fst, c ≠ colon) :
    (OptTable.optText l).head? ≠ some colon := by
  cases l with
  | nil => exact fun h => nomatch h
  | cons s l => exact fun heq => h s.1 List.mem_cons_self (Option.some.inj heq)

theorem shortPolicy_marks (p : OptPolicy) {l : List UInt8} (h : l.head? ≠ some colon) :
    shortPolicy (OptTable.marks p ++ l) = p := by
  cases p with
  | noArg =>
    cases l with
    | nil => rfl
    | cons c l => exact if_neg fun hc => h (congrArg some hc)
  | reqArg =>
    show (if l.head? = some colon then OptPolicy.optArg else .reqArg) = .reqArg
    exact if_neg h
  | optArg => rfl

theorem pcschr_optText {l : List (UInt8 × OptPolicy)} (hnd : (l.map Prod.fst).Nodup)
    (hcolon : ∀ c ∈ l.map Prod.fst, c ≠ colon) {c : UInt8} {p : OptPolicy} (h : (c, p) ∈ l) :
    ∃ marks, pcschr (OptTable.optText l) c = c :: marks ∧ shortPolicy marks = p := by
  induction l with
  | nil => cases h
  | cons s l ih =>
    rw [List.map_cons, List.nodup_cons] at hnd
    have hcolon' : ∀ c ∈ l.map Prod.fst, c ≠ colon := fun c hc => hcolon c (List.mem_cons_of_mem _ hc)
    rcases List.mem_cons.1 h with rfl | h
    · refine ⟨OptTable.marks p ++ OptTable.optText l, ?_, shortPolicy_marks p (optText_head hcolon')⟩
      exact pcschr_append (s := []) List.not_mem_nil _
    · obtain ⟨marks, hfind, hpolicy⟩ := ih hnd.2 hcolon' h
      refine ⟨marks, ?_, hpolicy⟩
      have hmem : c ∈ l.map Prod.fst := List.mem_map_of_mem h
      have hne : s.1 ≠ c := fun heq => hnd.1 (heq ▸ hmem)
      have hall : ∀ x ∈ s.1 :: OptTable.marks s.2, decide (x ≠ c) = true := by
        intro x hx
        refine decide_eq_true ?_
        rintro rfl
        rcases List.mem_cons.1 hx with heq | hx
        · exact hne heq.symm
        · have hx : x = colon := by
            cases hs : s.2 <;> rw [hs] at hx <;> simp [OptTable.marks] at hx
            · exact hx
            · exact hx
          exact hcolon' x hmem hx
      show pcschr ((s.1 :: OptTable.marks s.2) ++ OptTable.optText l) c = _
      unfold pcschr
      rw [List.dropWhile_append_of_pos hall]
      exact hfind

theorem find_name {l : List PclOption} (hnd : (l.map PclOption.name).Nodup) {lopt : PclOption} (h : lopt ∈ l) :
    (l.find? fun o => o.name.bytes = lopt.name.bytes) = some lopt := by
  induction l with
  | nil => cases h
  | cons o l ih =>
    rw [List.map_cons, List.nodup_cons] at hnd
    rcases List.mem_cons.1 h with rfl | h
    · exact List.find?_cons_of_pos (decide_eq_true rfl)
    · rw [List.find?_cons_of_neg]
      · exact ih hnd.2 h
      · intro heq
        refine hnd.1 ?_
        rw [CStr.ext (of_decide_eq_true heq)]
        exact List.mem_map_of_mem h

/-! ### One call -/

namespace OptState

/-- The arguments from the current one on. -/
def left (s : OptState) : List (List UInt8) := (s.argv.map CStr.bytes).drop s.argidx

theorem left_cons {s : OptState} {a : List UInt8} {rest : List (List UInt8)} (h : s.left = a :: rest) :
    (∃ arg, s.argv[s.argidx]? = some arg ∧ arg.bytes = a) ∧ s.following = rest.head? ∧
      (s.argv.map CStr.bytes).drop (s.argidx + 1) = rest := by
  have hdrop : (s.argv.map CStr.bytes).drop (s.argidx + 1) = rest := by
    rw [← List.drop_drop]
    show s.left.drop 1 = rest
    rw [h]
    rfl
  refine ⟨?_, ?_, hdrop⟩
  · have hhead : (s.argv.map CStr.bytes)[s.argidx]? = some a := by
      rw [← List.head?_drop]
      exact congrArg List.head? h
    rw [List.getElem?_map] at hhead
    exact Option.map_eq_some_iff.1 hhead
  · rw [← hdrop, List.head?_drop, List.getElem?_map]
    rfl

end OptState

variable {T : OptTable} {s : OptState} {e : ErrState}

theorem OptTable.Initial.short (hT : T.Initial s.optstr s.options) {opt : UInt8} {p : OptPolicy}
    (h : (opt, p) ∈ T.shorts) :
    ∃ optstr marks, s.optstr = some optstr ∧ pcschr optstr.bytes opt = opt :: marks ∧ shortPolicy marks = p := by
  have hcolon : ∀ c ∈ T.shorts.map Prod.fst, c ≠ colon := fun c hc => (T.short_char c hc).2.1
  obtain ⟨marks, hfind, hpolicy⟩ := pcschr_optText T.shorts_nodup hcolon h
  have heq := hT.optstr_eq
  cases hs : s.optstr with
  | none =>
    rw [hs] at heq
    rw [← heq] at hfind
    cases hfind
  | some optstr =>
    rw [hs] at heq
    have hbytes : optstr.bytes = OptTable.optText T.shorts := heq
    exact ⟨optstr, marks, rfl, by rw [hbytes, hfind], hpolicy⟩

theorem OptState.parseLong_eq (options : List PclOption) (arg : List UInt8) (h : s.options = some options) :
    s.parseLong arg = if arg.length < 3 then ErrM.undef
      else if arg.length = 3 then s.fail 70 "stray dash found" arg else s.longOption options (arg.drop 2) := by
  unfold parseLong
  rw [h]

theorem OptState.fail_run (line : Int) (what : String) (arg : List UInt8) :
    ∃ r e', s.fail line what arg e = some ((r, s), e') ∧ r.value = none ∧ r.ret ≤ 0 := by
  unfold fail
  rw [ErrM.bind_run, errVset_run _ _ _ _ _ (by decide)]
  refine ⟨_, _, rfl, rfl, ?_⟩
  show (if e.frozen then 0 else -1 : Int) ≤ 0
  split <;> decide

/-- A flag with more short options behind it. -/
theorem parseShort_flag (hT : T.Initial s.optstr s.options) {c : UInt8} (hc : (c, OptPolicy.noArg) ∈ T.shorts)
    {text : List UInt8} (htext : text ≠ []) : ∃ r, s.parseShort (c :: text) e =
      some ((r, { s with nextOptstr := some text }), e) ∧ r.ret = charInt c ∧ r.value = none := by
  obtain ⟨optstr, marks, hopt, hfind, hpolicy⟩ := hT.short hc
  unfold OptState.parseShort
  simp only [hopt, hfind, hpolicy]
  unfold OptState.foundShort
  rw [if_neg htext]
  exact ⟨_, rfl, rfl, rfl⟩

/-- The state behind an option and its value. -/
def OptState.past (s : OptState) (given : Given) : OptState :=
  { s with argidx := s.argidx + given.next.length + 1, nextOptstr := none }

/-- A call gives an option as it stands on the command line exactly if its form is `parsed`. -/
def Gives (s : OptState) (e : ErrState) (ret : Int) (given : Given) (parsed : Prop)
    (x : Option ((OptResult × OptState) × ErrState)) : Prop :=
  ∃ r s' e', x = some ((r, s'), e') ∧ (parsed → (r.ret, r.value) = (ret, given.value) ∧ s' = s.past given ∧ e' = e) ∧
    (¬ parsed → (r.ret, r.value) ≠ (ret, given.value))

namespace Gives
variable {ret : Int} {given : Given} {parsed : Prop}

theorem found {r : OptResult} (hp : parsed) (hret : r.ret = ret) (hvalue : r.value = given.value) :
    Gives s e ret given parsed (some ((r, s.past given), e)) :=
  ⟨r, _, _, rfl, fun _ => ⟨by rw [hret, hvalue], rfl, rfl⟩, fun h => absurd hp h⟩

theorem other {x : Option ((OptResult × OptState) × ErrState)} {r : OptResult} {s' : OptState} {e' : ErrState}
    (hx : x = some ((r, s'), e')) (hp : ¬ parsed) (hne : (r.ret, r.value) ≠ (ret, given.value)) :
    Gives s e ret given parsed x :=
  ⟨r, s', e', hx, fun h => absurd h hp, fun _ => hne⟩

theorem fail (s' : OptState) (line : Int) (what : String) (arg : List UInt8) (hp : ¬ parsed)
    (hret : 0 < ret ∨ given.value ≠ none) : Gives s e ret given parsed (s'.fail line what arg e) := by
  obtain ⟨r, e', hfail, hvalue, hle⟩ := s'.fail_run (e := e) line what arg
  refine other hfail hp fun heq => ?_
  obtain ⟨h₁, h₂⟩ := Prod.mk.inj heq
  rcases hret with hret | hret
  · omega
  · exact hret (h₂.symm.trans hvalue)

theorem congr {parsed' : Prop} {x : Option ((OptResult × OptState) × ErrState)} (h : Gives s e ret given parsed x)
    (hiff : parsed ↔ parsed') : Gives s e ret given parsed' x := by
  rwa [← propext hiff]

theorem yields_iff (h : Gives s e ret given parsed (getopt s e)) (hret : ret ≠ 0)
    (l : List (Int × Option (List UInt8))) :
    Yields s e ((ret, given.value) :: l) ↔ parsed ∧ Yields (s.past given) e l := by
  obtain ⟨r, s', e', hx, hyes, hno⟩ := h
  rw [Yields.cons_iff hx]
  constructor
  · rintro ⟨-, heq, hl⟩
    have hp : parsed := Classical.byContradiction fun hp => hno hp heq.symm
    obtain ⟨-, rfl, rfl⟩ := hyes hp
    exact ⟨hp, hl⟩
  · rintro ⟨hp, hl⟩
    obtain ⟨heq, rfl, rfl⟩ := hyes hp
    have hr : r.ret ≠ 0 := by rwa [(Prod.mk.inj heq).1]
    exact ⟨hr, heq.symm, hl⟩

end Gives

/-- Text behind a '=' that is not in front is shorter. -/
theorem pcschr_inner {v : List UInt8} (h : equals ∈ v) (hhead : v.head? ≠ some equals) :
    ∃ value, pcschr v equals = equals :: value ∧ value ≠ v := by
  obtain ⟨w, value, rfl, hw⟩ := List.eq_append_cons_of_mem h
  refine ⟨value, pcschr_append hw value, fun heq => ?_⟩
  have hlen := congrArg List.length heq
  rw [List.length_append, List.length_cons] at hlen
  omega

/-- The last short option of an argument. -/
theorem parseShort_last (hT : T.Initial s.optstr s.options) {opt : UInt8} {p : OptPolicy} (hp : (opt, p) ∈ T.shorts)
    {given : Given} (hg : given.Legal p) {cur : List UInt8} {rest : List (List UInt8)}
    (hleft : s.left = cur :: (given.next ++ rest)) (hrest : ∀ a ∈ rest.head?, a.head? = some dash) :
    Gives s e (charInt opt) given (Item.short [] opt given).Parsed (s.parseShort (opt :: given.tail) e) := by
  obtain ⟨optstr, marks, hopt, hfind, hpolicy⟩ := hT.short hp
  obtain ⟨-, hfollow, -⟩ := OptState.left_cons hleft
  obtain ⟨argidx, next, argv, _, options⟩ := s
  cases hopt
  unfold OptState.parseShort
  simp only [hfind, hpolicy]
  have hfollow' : (⟨argidx, some given.tail, argv, some optstr, options⟩ : OptState).following =
      (given.next ++ rest).head? := hfollow
  have hnil : pcschr [] equals = [] := rfl
  cases given with
  | nothing =>
    cases p with
    | noArg => exact .found trivial rfl rfl
    | reqArg => exact absurd rfl hg
    | optArg =>
      simp only [Given.tail, Given.next, List.nil_append] at hfollow'
      simp only [Given.tail, hnil, ne_eq, not_true_eq_false, reduceIte, hfollow']
      cases rest with
      | nil => exact .found trivial rfl rfl
      | cons a rest =>
        have hdash : a.head? = some dash := hrest a rfl
        simp only [List.head?_cons, hdash, not_true_eq_false, reduceIte]
        exact .found trivial rfl rfl
  | attached v =>
    obtain ⟨hpolicy', hne, hhead⟩ := hg
    by_cases hmem : equals ∈ v
    · obtain ⟨value, hchr, hother⟩ := pcschr_inner hmem hhead
      have hp' : ¬ (Item.short [] opt (.attached v)).Parsed := fun h => h hmem
      cases p with
      | noArg => exact absurd rfl hpolicy'
      | reqArg =>
        simp only [Given.tail, hchr]
        split
        · exact .fail _ _ _ _ hp' (.inr fun h => nomatch h)
        · exact .other rfl hp' fun h => hother (Option.some.inj (Prod.mk.inj h).2)
      | optArg =>
        simp only [Given.tail, hchr]
        by_cases hv : value = []
        · rw [if_pos hv]
          exact .other rfl hp' fun h => nomatch (Prod.mk.inj h).2
        · rw [if_neg hv]
          exact .other rfl hp' fun h => hother (Option.some.inj (Prod.mk.inj h).2)
    · cases p with
      | noArg => exact absurd rfl hpolicy'
      | reqArg =>
        simp only [Given.tail, pcschr_of_not_mem hmem, hne, reduceIte]
        exact .found hmem rfl rfl
      | optArg =>
        simp only [Given.tail, pcschr_of_not_mem hmem, ne_eq, hne, not_false_eq_true, reduceIte]
        exact .found hmem rfl rfl
  | assigned v =>
    have hchr : pcschr (equals :: v) equals = equals :: v := pcschr_append (s := []) List.not_mem_nil v
    cases p with
    | noArg => exact absurd rfl hg
    | reqArg =>
      simp only [Given.tail, hchr]
      by_cases hv : v = []
      · rw [if_pos hv]
        exact .fail _ _ _ _ (fun h => h hv) (.inr fun h => nomatch h)
      · rw [if_neg hv]
        exact .found hv rfl rfl
    | optArg =>
      simp only [Given.tail, hchr]
      by_cases hv : v = []
      · rw [if_pos hv]
        exact .other rfl (fun h => h hv) fun h => nomatch (Prod.mk.inj h).2
      · rw [if_neg hv]
        exact .found hv rfl rfl
  | separate v =>
    simp only [Given.tail, Given.next, List.singleton_append, List.head?_cons] at hfollow'
    rcases hg with rfl | ⟨rfl, hdash⟩
    · simp only [Given.tail, hnil, reduceIte, hfollow']
      exact .found trivial rfl rfl
    · simp only [Given.tail, hnil, ne_eq, not_true_eq_false, reduceIte, hfollow', hdash, not_false_eq_true]
      exact .found trivial rfl rfl

/-- A long option with its value, behind the dashes; an empty value behind a '=' is refused or dropped. -/
theorem longOption_item (hT : T.Initial s.optstr s.options) (hnext : s.nextOptstr = none) {lopt : PclOption}
    {given : Given} (hl : (Item.long lopt given).Legal T) {cur : List UInt8} {rest : List (List UInt8)}
    (hleft : s.left = cur :: (given.next ++ rest)) (hrest : ∀ a ∈ rest.head?, a.head? = some dash) :
    Gives s e lopt.val given (∀ v, given = .assigned v → v ≠ [])
      (s.longOption T.longs (lopt.name.bytes ++ given.tail) e) := by
  obtain ⟨hmem, hg, hattached⟩ := hl
  obtain ⟨-, heq⟩ := T.long_name lopt hmem
  have hval := T.long_val lopt hmem
  have hfind := find_name T.longs_nodup hmem
  obtain ⟨-, hfollow, -⟩ := OptState.left_cons hleft
  obtain ⟨argidx, _, argv, optstr, options⟩ := s
  cases hnext
  have htake (l : List UInt8) : (lopt.name.bytes ++ equals :: l).takeWhile (· ≠ equals) = lopt.name.bytes := by
    have hall : ∀ x ∈ lopt.name.bytes, decide (x ≠ equals) = true := fun x hx => decide_eq_true fun h => heq (h ▸ hx)
    rw [List.takeWhile_append_of_pos hall, List.takeWhile_cons_of_neg (by simp), List.append_nil]
  have htake' : lopt.name.bytes.takeWhile (· ≠ equals) = lopt.name.bytes :=
    List.takeWhile_eq_self_iff.2 fun x hx => decide_eq_true fun h => heq (h ▸ hx)
  unfold OptState.longOption
  cases given with
  | attached v => exact absurd rfl (hattached v)
  | nothing =>
    have hp : ∀ v, Given.nothing = .assigned v → v ≠ [] := fun v h => nomatch h
    simp only [Given.tail, List.append_nil, htake', pcschr_of_not_mem heq, hfind]
    simp only [Given.next, List.nil_append] at hfollow
    cases hpolicy : lopt.policy with
    | noArg => exact .found hp rfl rfl
    | reqArg => exact absurd hpolicy hg
    | optArg =>
      simp only [hfollow]
      cases rest with
      | nil => exact .found hp rfl rfl
      | cons a rest =>
        have hdash : a.head? = some dash := hrest a rfl
        simp only [List.head?_cons, hdash, ne_eq, not_true_eq_false, reduceIte]
        exact .found hp rfl rfl
  | assigned v =>
    have hchr : pcschr (lopt.name.bytes ++ equals :: v) equals = equals :: v := pcschr_append heq v
    simp only [Given.tail, htake, hchr, hfind]
    by_cases hv : v = []
    · have hp : ¬ ∀ w, Given.assigned v = .assigned w → w ≠ [] := fun h => h v rfl hv
      cases hpolicy : lopt.policy with
      | noArg => exact absurd hpolicy hg
      | reqArg =>
        simp only [hv, reduceIte]
        exact .fail _ _ _ _ (hv ▸ hp) (.inl hval)
      | optArg =>
        simp only [hv, reduceIte]
        exact .other rfl (hv ▸ hp) fun h => nomatch (Prod.mk.inj h).2
    · have hp : ∀ w, Given.assigned v = .assigned w → w ≠ [] := by
        rintro _ ⟨rfl⟩
        exact hv
      cases hpolicy : lopt.policy with
      | noArg => exact absurd hpolicy hg
      | reqArg | optArg =>
        simp only [hv, reduceIte]
        exact .found hp rfl rfl
  | separate v =>
    have hp : ∀ w, Given.separate v = .assigned w → w ≠ [] := fun w h => nomatch h
    simp only [Given.tail, List.append_nil, htake', pcschr_of_not_mem heq, hfind]
    simp only [Given.next, List.singleton_append, List.head?_cons] at hfollow
    rcases hg with hpolicy | ⟨hpolicy, hdash⟩
    · simp only [hpolicy, hfollow]
      exact .found hp rfl rfl
    · simp only [hpolicy, hfollow, ne_eq, hdash, not_false_eq_true, reduceIte]
      exact .found hp rfl rfl

/-- A long option whose name has one character is taken for a stray dash unless a '=' follows. -/
theorem parseLong_item (hT : T.Initial s.optstr s.options) (hnext : s.nextOptstr = none) {lopt : PclOption}
    {given : Given} (hl : (Item.long lopt given).Legal T) {cur : List UInt8} {rest : List (List UInt8)}
    (hleft : s.left = cur :: (given.next ++ rest)) (hrest : ∀ a ∈ rest.head?, a.head? = some dash) :
    Gives s e lopt.val given (Item.long lopt given).Parsed
      (s.parseLong (dash :: dash :: (lopt.name.bytes ++ given.tail)) e) := by
  have hitem := longOption_item (e := e) hT hnext hl hleft hrest
  obtain ⟨hmem, -, hattached⟩ := hl
  have hpos : 0 < lopt.name.bytes.length := List.length_pos_iff.2 (T.long_name lopt hmem).1
  have hoptions : s.options = some T.longs := by
    have hlongs := hT.options_eq
    cases hs : s.options with
    | none =>
      rw [hs] at hlongs
      rw [← hlongs] at hmem
      cases hmem
    | some options =>
      rw [hs] at hlongs
      exact congrArg some hlongs
  rw [OptState.parseLong_eq _ _ hoptions]
  simp only [List.length_cons, List.length_append, List.drop_succ_cons, List.drop_zero]
  rw [if_neg (by omega)]
  by_cases hshort : lopt.name.bytes.length = 1 ∧ given.tail = []
  · obtain ⟨hone, htail⟩ := hshort
    have hp : ¬ (Item.long lopt given).Parsed := by
      cases given with
      | attached v => exact absurd rfl (hattached v)
      | assigned v => cases htail
      | nothing | separate => exact fun h => h hone
    rw [if_pos (by rw [hone, htail]; rfl)]
    exact .fail _ _ _ _ hp (.inl (T.long_val lopt hmem))
  · have hlong : ¬ lopt.name.bytes.length + given.tail.length + 1 + 1 = 3 := by
      intro h
      exact hshort ⟨by omega, List.length_eq_zero_iff.1 (by omega)⟩
    rw [if_neg hlong]
    refine hitem.congr ?_
    cases given with
    | attached v => exact absurd rfl (hattached v)
    | nothing => exact iff_of_true (fun v h => nomatch h) fun h => hshort ⟨h, rfl⟩
    | separate v => exact iff_of_true (fun v h => nomatch h) fun h => hshort ⟨h, rfl⟩
    | assigned v => exact ⟨fun h => h v rfl, fun h w hw => by cases hw; exact h⟩

/-! ### A command line -/

theorem OptState.past_left {given : Given} {cur : List UInt8} {rest : List (List UInt8)}
    (h : s.left = cur :: (given.next ++ rest)) : (s.past given).left = rest := by
  obtain ⟨-, -, hdrop⟩ := left_cons h
  show (s.argv.map CStr.bytes).drop (s.argidx + given.next.length + 1) = rest
  rw [Nat.add_right_comm, ← List.drop_drop, hdrop, List.drop_left]

/-- Every argument that begins an item begins with a dash. -/
theorem render_head (items : List Item) : ∀ a ∈ (items.flatMap Item.render).head?, a.head? = some dash := by
  cases items with
  | nil => exact fun a h => nomatch h
  | cons it items =>
    intro a h
    cases it <;> cases h <;> rfl

/-- The flags of an argument are given one by one. -/
theorem yields_flags (hT : T.Initial s.optstr s.options) {flags : List UInt8}
    (hflags : ∀ c ∈ flags, (c, OptPolicy.noArg) ∈ T.shorts) {text : List UInt8} (htext : text ≠ [])
    (l : List (Int × Option (List UInt8))) :
    Yields { s with nextOptstr := some (flags ++ text) } e (flags.map (fun c => (charInt c, none)) ++ l) ↔
      Yields { s with nextOptstr := some text } e l := by
  induction flags with
  | nil => exact Iff.rfl
  | cons c flags ih =>
    have hc := hflags c List.mem_cons_self
    have hne : flags ++ text ≠ [] := fun h => htext (List.append_eq_nil_iff.1 h).2
    have hT' : T.Initial ({ s with nextOptstr := some (c :: (flags ++ text)) } : OptState).optstr s.options := hT
    obtain ⟨r, hrun, hret, hvalue⟩ := @parseShort_flag T _ e hT' c hc _ hne
    have hchar := charInt_ne_zero (T.short_char c (List.mem_map_of_mem hc)).1
    have hcall : getopt { s with nextOptstr := some (c :: (flags ++ text)) } e =
        some ((r, { s with nextOptstr := some (flags ++ text) }), e) := hrun
    rw [List.map_cons, List.cons_append, List.cons_append, Yields.cons_iff hcall, hret, hvalue,
      ih fun c hc => hflags c (List.mem_cons_of_mem _ hc)]
    exact ⟨fun h => h.2.2, fun h => ⟨hchar, rfl, h⟩⟩

/-- The state between two items: it is at the first of these arguments. -/
structure At (T : OptTable) (s : OptState) (args : List (List UInt8)) : Prop where
  initial : T.Initial s.optstr s.options
  next_eq : s.nextOptstr = none
  left_eq : s.left = args
  argidx_le : s.argidx ≤ s.argv.length

namespace At
variable {given : Given} {cur : List UInt8} {rest : List (List UInt8)}

theorem past (h : At T s (cur :: (given.next ++ rest))) : At T (s.past given) rest where
  initial := h.initial
  next_eq := rfl
  left_eq := OptState.past_left h.left_eq
  argidx_le := by
    have hlen := congrArg List.length h.left_eq
    rw [OptState.left, List.length_drop, List.length_map, List.length_cons, List.length_append] at hlen
    show s.argidx + given.next.length + 1 ≤ s.argv.length
    omega

theorem argument (h : At T s (cur :: rest)) :
    ∃ arg, s.argv[s.argidx]? = some arg ∧ arg.bytes = cur ∧ s.argidx ≠ s.argv.length := by
  obtain ⟨⟨arg, harg, hbytes⟩, -, -⟩ := OptState.left_cons h.left_eq
  exact ⟨arg, harg, hbytes, Nat.ne_of_lt (List.getElem?_eq_some_iff.1 harg).1⟩

theorem done (h : At T s []) : Yields s e [] := by
  have hend : s.argidx = s.argv.length := by
    have hlen := congrArg List.length h.left_eq
    rw [OptState.left, List.length_drop, List.length_map, List.length_nil] at hlen
    have hle := h.argidx_le
    omega
  have hrun : getopt s e = some ((⟨0, none, none⟩, s), e) := by
    unfold getopt
    simp only [h.next_eq, if_pos hend]
    rfl
  exact .done hrun rfl

theorem short_iff {flags : List UInt8} {opt : UInt8} (hl : (Item.short flags opt given).Legal T)
    (h : At T s ((Item.short flags opt given).render ++ rest)) (hrest : ∀ a ∈ rest.head?, a.head? = some dash)
    (l : List (Int × Option (List UInt8))) :
    Yields s e ((Item.short flags opt given).options ++ l) ↔
      (Item.short flags opt given).Parsed ∧ Yields (s.past given) e l := by
  obtain ⟨hflags, p, hp, hg⟩ := hl
  obtain ⟨arg, harg, hbytes, hlt⟩ := h.argument
  obtain ⟨optstr, -, hopt, -⟩ := h.initial.short hp
  -- the first character is no dash
  have hhead : ∀ c ∈ (flags ++ opt :: given.tail).head?, c ≠ dash := by
    intro c hc
    cases flags with
    | nil =>
      cases hc
      exact (T.short_char opt (List.mem_map_of_mem hp)).2.2.2
    | cons c' flags =>
      cases hc
      exact (T.short_char c (List.mem_map_of_mem (hflags c List.mem_cons_self))).2.2.2
  have hrun : getopt s e = getopt { s with nextOptstr := some (flags ++ opt :: given.tail) } e := by
    have hbytes' : arg.bytes = dash :: (flags ++ opt :: given.tail) := hbytes
    cases htext : flags ++ opt :: given.tail with
    | nil => exact absurd (List.append_eq_nil_iff.1 htext).2 (List.cons_ne_nil _ _)
    | cons c text =>
      rw [htext] at hhead hbytes'
      have hlong : ¬ [dash, dash] <+: dash :: c :: text := fun hp =>
        hhead c rfl (List.cons_prefix_cons.1 (List.cons_prefix_cons.1 hp).2).1.symm
      have hone : ¬ (dash :: c :: text).length = 1 := fun hone => Nat.succ_ne_zero _ (Nat.succ.inj hone)
      have hsome : s.optstr ≠ none := by
        rw [hopt]
        exact Option.some_ne_none _
      unfold getopt
      simp only [h.next_eq, if_neg hlt, harg, hbytes', if_neg hlong, List.head?_cons, ne_eq, not_true_eq_false,
        reduceIte, if_neg hsome, if_neg hone]
      rfl
  have hlast : Gives { s with nextOptstr := some (opt :: given.tail) } e (charInt opt) given
      (Item.short [] opt given).Parsed (getopt { s with nextOptstr := some (opt :: given.tail) } e) :=
    @parseShort_last T { s with nextOptstr := some (opt :: given.tail) } e h.initial opt p hp given hg _ rest
      h.left_eq hrest
  have hne := charInt_ne_zero (T.short_char opt (List.mem_map_of_mem hp)).1
  rw [Yields.congr hrun, Item.options, List.append_assoc,
    yields_flags h.initial hflags (List.cons_ne_nil _ _), List.singleton_append, hlast.yields_iff hne]
  cases given <;> exact Iff.rfl

theorem long_iff {lopt : PclOption} (hl : (Item.long lopt given).Legal T)
    (h : At T s ((Item.long lopt given).render ++ rest)) (hrest : ∀ a ∈ rest.head?, a.head? = some dash)
    (l : List (Int × Option (List UInt8))) :
    Yields s e ((Item.long lopt given).options ++ l) ↔
      (Item.long lopt given).Parsed ∧ Yields (s.past given) e l := by
  obtain ⟨arg, harg, hbytes, hlt⟩ := h.argument
  have hlong : [dash, dash] <+: dash :: dash :: (lopt.name.bytes ++ given.tail) := ⟨_, rfl⟩
  have hrun : getopt s e = s.parseLong (dash :: dash :: (lopt.name.bytes ++ given.tail)) e := by
    unfold getopt
    simp only [h.next_eq, if_neg hlt, harg, hbytes, if_pos hlong]
  have hgives := @parseLong_item T s e h.initial h.next_eq lopt given hl _ rest h.left_eq hrest
  rw [← hrun] at hgives
  exact hgives.yields_iff (Int.ne_of_gt (T.long_val lopt hl.1)) l

/-- The calls give the items as they stand on the command line exactly if their forms are ones that are
recognised. -/
theorem yields_iff {items : List Item} (hl : ∀ it ∈ items, it.Legal T) (h : At T s (items.flatMap Item.render)) :
    Yields s e (items.flatMap Item.options) ↔ ∀ it ∈ items, it.Parsed := by
  induction items generalizing s with
  | nil => exact ⟨fun _ it hm => absurd hm List.not_mem_nil, fun _ => h.done⟩
  | cons it items ih =>
    have hrest := render_head items
    have hl' : ∀ it ∈ items, it.Legal T := fun it hm => hl it (List.mem_cons_of_mem _ hm)
    rw [List.flatMap_cons] at h
    rw [List.flatMap_cons, List.forall_mem_cons]
    cases it with
    | short flags opt given => rw [short_iff (hl _ List.mem_cons_self) h hrest, ih hl' h.past]
    | long lopt given => rw [long_iff (hl _ List.mem_cons_self) h hrest, ih hl' h.past]

end At

/-- Options rendered in the documented forms come back in order exactly if no form is one that is not recognised. -/
theorem getopt_yields_iff (T : OptTable) (optstr : Option CStr) (options : Option (List PclOption))
    (hT : T.Initial optstr options) (hgiven : optstr ≠ none ∨ options ≠ none) (items : List Item)
    (hl : ∀ it ∈ items, it.Legal T) (prog : CStr) (args : List CStr)
    (hargs : args.map CStr.bytes = items.flatMap Item.render) (e : ErrState) :
    (∃ s, initopt (prog :: args) optstr options e = some (some s, e) ∧ Yields s e (items.flatMap Item.options)) ↔
      ∀ it ∈ items, it.Parsed := by
  have hinit : initopt (prog :: args) optstr options e = some (some ⟨1, none, prog :: args, optstr, options⟩, e) := by
    have hok : ¬ (prog :: args = [] ∨ (optstr = none ∧ options = none)) := by
      rintro (h | ⟨h₁, h₂⟩)
      · cases h
      · exact hgiven.elim (fun h => h h₁) fun h => h h₂
    unfold initopt
    rw [if_neg hok]
    rfl
  have hat : At T ⟨1, none, prog :: args, optstr, options⟩ (items.flatMap Item.render) :=
    ⟨hT, rfl, hargs, Nat.succ_le_succ (Nat.zero_le _)⟩
  rw [← hat.yields_iff (e := e) hl]
  constructor
  · rintro ⟨s, hs, hy⟩
    rw [hinit] at hs
    cases hs
    exact hy
  · exact fun hy => ⟨_, hinit, hy⟩

/-- `-a` and `--ap` take a value, `-c` and `--c` none. -/
def apTable : OptTable where
  shorts := [(ch 'a', .reqArg), (ch 'c', .noArg)]
  longs := [⟨⟨[ch 'a', ch 'p'], by decide⟩, .reqArg, charInt (ch 'a')⟩,
    ⟨⟨[ch 'c'], by decide⟩, .noArg, charInt (ch 'c')⟩]
  shorts_nodup := by decide
  short_char := List.forall_mem_cons.2 ⟨by decide, List.forall_mem_singleton.2 (by decide)⟩
  longs_nodup := by decide
  long_name := by decide
  long_val := by decide
  agree := by decide

/-- "a:c". -/
def apOptstr : CStr := ⟨[ch 'a', colon, ch 'c'], by decide⟩

theorem apTable_initial : apTable.Initial (some apOptstr) (some apTable.longs) := ⟨by decide, rfl⟩

/-- "p -cax --ap=y". -/
theorem getopt_yields_iff_ap :
    ∃ s, initopt [⟨[ch 'p'], by decide⟩, ⟨[dash, ch 'c', ch 'a', ch 'x'], by decide⟩,
      ⟨[dash, dash, ch 'a', ch 'p', equals, ch 'y'], by decide⟩] (some apOptstr) (some apTable.longs) .zero =
        some (some s, .zero) ∧
      Yields s .zero
        [(charInt (ch 'c'), none), (charInt (ch 'a'), some [ch 'x']), (charInt (ch 'a'), some [ch 'y'])] := by
  let items : List Item := [.short [ch 'c'] (ch 'a') (.attached [ch 'x']),
    .long ⟨⟨[ch 'a', ch 'p'], by decide⟩, .reqArg, charInt (ch 'a')⟩ (.assigned [ch 'y'])]
  have hl : ∀ it ∈ items, it.Legal apTable := by
    refine List.forall_mem_cons.2 ⟨⟨List.forall_mem_singleton.2 (by decide), .reqArg, by decide, by decide, by decide,
      by decide⟩, ?_⟩
    refine List.forall_mem_cons.2 ⟨⟨by decide, by decide, fun v h => nomatch h⟩, ?_⟩
    exact fun it hm => absurd hm List.not_mem_nil
  have hp : ∀ it ∈ items, it.Parsed := by decide
  exact (getopt_yields_iff apTable _ _ apTable_initial (.inl (Option.some_ne_none _)) items hl ⟨[ch 'p'], by decide⟩
    [⟨[dash, ch 'c', ch 'a', ch 'x'], by decide⟩, ⟨[dash, dash, ch 'a', ch 'p', equals, ch 'y'], by decide⟩]
    rfl .zero).2 hp

/-- "-ax=y" gives "y" for the value, and "--c" is taken for a stray dash. -/
theorem getopt_not_yields :
    (Item.short [] (ch 'a') (.attached [ch 'x', equals, ch 'y'])).Legal apTable ∧
    (¬ ∃ s, initopt [⟨[ch 'p'], by decide⟩, ⟨[dash, ch 'a', ch 'x', equals, ch 'y'], by decide⟩]
      (some apOptstr) (some apTable.longs) .zero = some (some s, .zero) ∧
      Yields s .zero [(charInt (ch 'a'), some [ch 'x', equals, ch 'y'])]) ∧
    (Item.long ⟨⟨[ch 'c'], by decide⟩, .noArg, charInt (ch 'c')⟩ .nothing).Legal apTable ∧
    ¬ ∃ s, initopt [⟨[ch 'p'], by decide⟩, ⟨[dash, dash, ch 'c'], by decide⟩]
      (some apOptstr) (some apTable.longs) .zero = some (some s, .zero) ∧
      Yields s .zero [(charInt (ch 'c'), none)] := by
  have hshort : (Item.short [] (ch 'a') (.attached [ch 'x', equals, ch 'y'])).Legal apTable :=
    ⟨fun c hc => absurd hc List.not_mem_nil, .reqArg, by decide, by decide, by decide, by decide⟩
  have hlong : (Item.long ⟨⟨[ch 'c'], by decide⟩, .noArg, charInt (ch 'c')⟩ .nothing).Legal apTable :=
    ⟨by decide, by decide, fun v h => nomatch h⟩
  refine ⟨hshort, ?_, hlong, ?_⟩
  · rintro ⟨s, hs, hy⟩
    cases hs
    have hrun : getopt ⟨1, none, [⟨[ch 'p'], by decide⟩, ⟨[dash, ch 'a', ch 'x', equals, ch 'y'], by decide⟩],
        some apOptstr, some apTable.longs⟩ .zero = some ((⟨charInt (ch 'a'), some [ch 'y'], _⟩, _), .zero) := rfl
    have hvalue := ((Yields.cons_iff hrun).1 hy).2.1
    exact absurd hvalue (by decide)
  · rintro ⟨s, hs, hy⟩
    cases hs
    have hrun : getopt ⟨1, none, [⟨[ch 'p'], by decide⟩, ⟨[dash, dash, ch 'c'], by decide⟩],
        some apOptstr, some apTable.longs⟩ .zero = some ((⟨-1, none, none⟩, _), _) := rfl
    have hvalue := ((Yields.cons_iff hrun).1 hy).2.1
    exact absurd hvalue (by decide)

end Pcl

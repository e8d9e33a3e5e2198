import Pcl.Frozen.Tokens
import Pcl.Json.ParserOps

/-!
# JSON under a frozen error state

`pcl_json_objput` with the functions over it, `pcl_json_decode` and `pcl_json_query`. Each member of an object that is
decoded goes through `pcl_json_objput`, so the first complete member of a text thaws the state; up to there the parser
only sets and traces errors, which a frozen state ignores.
-/

namespace Pcl

open ErrM
variable {R : Type} {α β : Type}

/-! ### Members -/

/-- There is an object to put to. -/
def IsObject (obj : Option (Json R)) : Prop := ∃ m, obj = some (.obj m)

/-- The value for one of the functions `pcl_json_objputxxx`. -/
inductive NewValue (R : Type) where
  | null
  | bool (value : Bool)
  | int (value : Int)
  | real (value : R)
  | str (value : Option CStr)

namespace NewValue
variable (D : Doubles R) (obj : Option (Json R)) (key : CStr) (flags : JsonFlags)

def objput : NewValue R → ErrM (Int × Option (Json R))
  | null => jsonObjputnull obj key flags
  | bool value => jsonObjputbool obj key value flags
  | int value => jsonObjputint obj key value flags
  | real value => jsonObjputreal D obj key value flags
  | str value => jsonObjputstr obj key value flags

/-- There is such a value. -/
def Made : NewValue R → Prop
  | null | bool _ => True
  | int value => value ≠ jsonInvint
  | real value => D.kind value = .valid
  | str value => value.isSome ∨ flags.allowNull = true

end NewValue

/-! ### The parser with the error state -/

namespace JE

/-- `ipcl_json_skipws`. -/
def skipws : JE Unit := raising (loc "json_skipws.c" "ipcl_json_skipws" 57) ipclJsonSkipws

/-- `pcl_json_objput` of a member. -/
def put (obj : List (CStr × Json R)) (key : CStr) (val : Json R) : JE (List (CStr × Json R)) := fun s => do
  match ← jsonObjput (some (.obj obj)) (some key) (some val) ⟨true, false, false⟩ with
  | (r, some (.obj obj)) => return (if r < 0 then none else some obj, s)
  | _ => ErrM.undef

/-- The operations with the error state. -/
def ops (D : Doubles R) (mem : Stale) : ParserOps JE R where
  string := parseString mem
  number := parseNumber D
  skipws := skipws
  skipwsIgnored := skipws.ignore
  peek := of JM.peek
  skip n := of (JM.skip n)
  mark := of JM.mark
  get := of JM.get
  throw := throw
  undef := of JM.undef
  put := put

end JE

/-- The length that counts and the state in which `pcl_json_decode` starts the parser, or the line of its error. -/
def decodeStart (json : List UInt8) (len : Nat) : Except Int (Nat × JState) :=
  let len := if len = 0 then (CStr.ofBytes json).strlen else len
  if len = 0 then .error 46
  else
    -- the byte order mark
    let start := if len ≥ 3 ∧ json.take 3 = bom then 3 else 0
    let left := len - start
    if left = 0 then .error 56 else .ok (len, ⟨json.drop start, left, 1, json.drop start, left⟩)

/-- `pcl_json_decode` behind the parser. -/
def decodeEnd (len : Nat) : Option (Json R) × JState → ErrM (Option (Json R × Int))
  | (some val, s) => return some (val, len - s.left)
  | (none, s) =>
    match contextMsg s with
    | none => ErrM.undef
    | some msg => do
      let _ ← errVtrace (loc "json_decode.c" "pcl_json_decode" 119) (some msg)
      return none

/-- `pcl_json_decode`: the value and the offset of `*end`. -/
def pclJsonDecode (D : Doubles R) (mem : Stale) (json : Option (List UInt8)) (len : Nat) :
    ErrM (Option (Json R × Int)) :=
  match json with
  | none => setErrNull (loc "json_decode.c" "pcl_json_decode" 40) eInval
  | some json =>
    match decodeStart json len with
    | .error line => do
      let _ ← setErrMsg (loc "json_decode.c" "pcl_json_decode" line) eInval "empty json string"
      return none
    | .ok (len, s) => do
      let val ← (JE.ops D mem).parseValue (s.left.toNat + 1) s
      decodeEnd len val

/-! ### Where the state is not frozen -/

/-- A present key is refused. -/
theorem jsonObjput_present {m : List (CStr × Json R)} {key : CStr} {q : CStr × Json R}
    (h : OMap.find Json.keyEq m key = some q) (val : Json R) (e : ErrState) :
    ∃ e', e'.frozen = false ∧ e'.err = eExist ∧
      jsonObjput (some (.obj m)) (some key) (some val) ⟨true, false, false⟩ e = some ((-1, some (.obj m)), e') := by
  have hexist : eExist ≠ eOkay := by decide
  obtain ⟨e₁, hset, he₁, herr₁⟩ :=
    errVset_fails (e := e.thawed) rfl (loc "htable_put.c" "pcl_htable_put" 53) hexist 0 none
  obtain ⟨e₂, htrace, he₂, herr₂⟩ := errVtrace_fails he₁ (herr₁ ▸ hexist) (loc "json_objput.c" "pcl_json_objput" 79)
    (some (.ofBytes (txt "failed to put '" ++ key.bytes ++ txt "' key")))
  refine ⟨e₂, he₂, herr₂.trans herr₁, ?_⟩
  have hput : objectPut m key val e = some ((-1, m), e₁) := by
    unfold objectPut objectLookup
    simp only [h, bind_run, errFreeze_run, Option.bind_some, pure_run]
    show (setErr (loc "htable_put.c" "pcl_htable_put" 53) eExist e.thawed).bind _ = _
    rw [setErr, hset]
    rfl
  unfold jsonObjput checkText
  simp only [if_true, bind_run, pure_run, Option.bind_some, Int.lt_irrefl, if_false, hput]
  rw [if_pos (by decide), bind_run, htrace]
  rfl

theorem JE.Agrees.put (obj : List (CStr × Json R)) (key : CStr) (val : Json R) :
    (JE.put obj key val).Agrees (JM.put obj key val) := by
  intro s e he
  unfold JE.put JM.put Json.objput OMap.put
  cases h : OMap.find Json.keyEq obj key with
  | none =>
    refine ⟨e.thawed, rfl, ?_⟩
    rw [bind_run, jsonObjput_new e rfl h]
    rfl
  | some q =>
    obtain ⟨e', he', herr, hrun⟩ := jsonObjput_present h val e
    refine ⟨e', he', herr, ?_⟩
    rw [bind_run, hrun]
    rfl

theorem ops_agree (D : Doubles R) (mem : Stale) : ParserOps.Related JE.Agrees (JE.ops D mem) (tokens D mem).ops where
  pure := .pure
  bind := .bind
  string := (JE.Models.parseString mem).agrees
  number := (JE.Models.parseNumber D).agrees
  skipws := .raising _ _
  skipwsIgnored := .ignore (.raising _ _)
  peek := .of .peek
  skip n := .of (.skip n)
  mark := .of .mark
  get := .of .get
  throw l parts := .raising l (JM.throw parts)
  undef := .of .undef
  put := .put

/-- The outcome of the decoder without error state: its value, or its error. -/
def Decoded (r : Option (Except (Fault × Option CStr) (Json R × Int)))
    (p : Option (Option (Json R × Int) × ErrState)) : Prop :=
  match r with
  | none => p = none
  | some (.ok val) => ∃ e, e.frozen = false ∧ p = some (some val, e)
  | some (.error (f, _)) => ∃ e, e.frozen = false ∧ e.err = f.err ∧ p = some (none, e)

/-- From a state that is not frozen `pcl_json_decode` comes to what `jsonDecode` says. -/
theorem pclJsonDecode_agrees (D : Doubles R) (mem : Stale) (json : List UInt8) (len : Nat) {e : ErrState}
    (he : e.frozen = false) : Decoded (jsonDecode D mem json len) (pclJsonDecode D mem (some json) len e) := by
  unfold jsonDecode decodeWith pclJsonDecode decodeStart
  dsimp only
  generalize (if len = 0 then (CStr.ofBytes json).strlen else len) = n
  generalize (if n ≥ 3 ∧ json.take 3 = bom then 3 else 0) = start
  have hempty (line : Int) : ∃ e', e'.frozen = false ∧ e'.err = eInval ∧ (do
      let _ ← setErrMsg (loc "json_decode.c" "pcl_json_decode" line) eInval "empty json string"
      return none : ErrM (Option (Json R × Int))) e = some (none, e') := by
    obtain ⟨e', hset, he', herr⟩ := errVset_fails he (loc "json_decode.c" "pcl_json_decode" line)
      (show eInval ≠ eOkay by decide) 0 (some (.lit "empty json string"))
    refine ⟨e', he', herr, ?_⟩
    rw [bind_run, setErrMsg, hset]
    rfl
  split
  · exact hempty 46
  · split
    · exact hempty 56
    · have hparse := (ops_agree D mem).parseValue (n - start + 1)
        ⟨json.drop start, (n - start : Nat), 1, json.drop start, (n - start : Nat)⟩ e he
      rw [ops_parseValue] at hparse
      dsimp only
      rw [bind_run, Int.toNat_natCast]
      cases hr : ipclJsonParseValue (tokens D mem) (n - start + 1)
          ⟨json.drop start, (n - start : Nat), 1, json.drop start, (n - start : Nat)⟩ with
      | none =>
        rw [hr] at hparse
        rw [show (JE.ops D mem).parseValue _ _ e = none from hparse]
        rfl
      | some r =>
        rw [hr] at hparse
        cases r with
        | ok val s =>
          obtain ⟨e', he', hrun⟩ := hparse
          rw [hrun]
          exact ⟨e', he', rfl⟩
        | fail f s =>
          obtain ⟨e', he', herr, hrun⟩ := hparse
          rw [hrun, Option.bind_some]
          unfold decodeEnd
          dsimp only
          cases contextMsg s with
          | none => rfl
          | some msg =>
            refine ⟨e'.traced (loc "json_decode.c" "pcl_json_decode" 119) (some msg), (traced_frozen e' _ _).trans he',
              (traced_err e' _ _).trans herr, ?_⟩
            dsimp only
            rw [bind_run, errVtrace_run]
            rfl

/-! ### As far as the first member -/

/-- How a parser ends that stops at the first `pcl_json_objput`. -/
inductive PutRes (α : Type) where
  | ok (a : α) (s : JState)
  | fail (s : JState)
  | put

abbrev JP (α : Type) := JState → Option (PutRes α)

namespace JP

instance : Monad JP where
  pure a := fun s => some (.ok a s)
  bind x f := fun s => (x s).bind fun
    | .ok a s => f a s
    | .fail s => some (.fail s)
    | .put => some .put

/-- A parser that puts nothing. -/
def of (x : JM α) : JP α := fun s => (x s).map fun
  | .ok a s => .ok a s
  | .fail _ s => .fail s

/-- What a parser that puts nothing does in a frozen state. -/
def frozen (x : JE α) : JP α := fun s => (x s .iced).map fun
  | ((some a, s), _) => .ok a s
  | ((none, s), _) => .fail s

/-- The operations in a frozen state. -/
def ops (D : Doubles R) (mem : Stale) : ParserOps JP R where
  string := frozen (JE.parseString mem)
  number := frozen (JE.parseNumber D)
  skipws := of ipclJsonSkipws
  skipwsIgnored := of (JM.ignore ipclJsonSkipws)
  peek := of JM.peek
  skip n := of (JM.skip n)
  mark := of JM.mark
  get := of JM.get
  throw _ parts := of (JM.throw parts)
  undef := of JM.undef
  put _ _ _ := fun _ => some .put

end JP

/-- What a parser does that starts in a frozen state, where it puts nothing. -/
def PutRes.run (e : ErrState) : PutRes α → Option ((Option α × JState) × ErrState)
  | .ok a s => some ((some a, s), e)
  | .fail s => some ((none, s), e)
  | .put => none

/-- From a frozen state the first parser does what the second says, and leaves the state as it is, unless the second gets
to a put: then it thaws the state, which is never frozen again. -/
structure JE.Follows (x : JE α) (y : JP α) : Prop where
  same : ∀ s e, e.frozen = true → y s ≠ some .put → x s e = (y s).bind (PutRes.run e)
  thaws : ∀ s e r e', e.frozen = true → y s = some .put → x s e = some (r, e') → e'.frozen = false
  stays : ∀ s, (x s).StaysThawed

/-- The parse of the text gets to a `pcl_json_objput`: a member of an object is complete. -/
def DecodePuts (D : Doubles R) (mem : Stale) (json : Option (List UInt8)) (len : Nat) : Prop :=
  ∃ text n s, json = some text ∧ decodeStart text len = .ok (n, s) ∧
    (JP.ops D mem).parseValue (s.left.toNat + 1) s = some .put

theorem JP.of_ne_put (x : JM α) (s : JState) : JP.of x s ≠ some .put := by
  intro h
  obtain ⟨r, -, hr⟩ := Option.map_eq_some_iff.1 h
  cases r <;> cases hr

namespace JE.Follows
variable {x : JE α} {y : JP α}

theorem pure (a : α) : (Pure.pure a : JE α).Follows (Pure.pure a) where
  same _ _ _ _ := rfl
  thaws _ _ _ _ _ h := by cases h
  stays s := .pure (some a, s)

theorem bind {f : α → JE β} {g : α → JP β} (hx : x.Follows y) (hf : ∀ a, (f a).Follows (g a)) :
    (x >>= f).Follows (y >>= g) where
  same s e he hput := by
    have hne : y s ≠ some .put := by
      intro h
      refine hput ?_
      show (y s).bind _ = _
      rw [h]
      rfl
    show (x s e).bind _ = ((y s).bind _).bind _
    rw [hx.same s e he hne]
    cases hy : y s with
    | none => rfl
    | some r =>
      cases r with
      | ok a s' =>
        refine (hf a).same s' e he fun h => hput ?_
        show (y s).bind _ = _
        rw [hy]
        exact h
      | fail s' => rfl
      | put => exact absurd hy hne
  thaws s e r e' he hput hrun := by
    obtain ⟨⟨⟨a, s'⟩, e₁⟩, hx₁, hrest⟩ := Option.bind_eq_some_iff.1 hrun
    by_cases hy : y s = some .put
    · have he₁ := hx.thaws s e _ e₁ he hy hx₁
      cases a with
      | none =>
        cases hrest
        exact he₁
      | some a => exact (hf a).stays s' e₁ r e' hrest he₁
    · rw [hx.same s e he hy] at hx₁
      obtain ⟨res, hres, hrun₁⟩ := Option.bind_eq_some_iff.1 hx₁
      cases res with
      | ok a s' =>
        cases hrun₁
        refine (hf a).thaws s' e r e' he ?_ hrest
        rwa [show (y >>= g) s = (y s).bind _ from rfl, hres] at hput
      | fail s' =>
        rw [show (y >>= g) s = (y s).bind _ from rfl, hres] at hput
        cases hput
      | put => cases hrun₁
  stays s := by
    have hrest : ∀ p, (JE.andThen f p).StaysThawed := by
      rintro ⟨a, s'⟩
      cases a with
      | none => exact .pure _
      | some a => exact (hf a).stays s'
    exact StaysThawed.bind (hx.stays s) hrest

/-- A parser that comes to the same in every frozen state, and leaves a thawed one so. -/
theorem frozen (hx : x.Blind) (hs : ∀ s, (x s).StaysThawed) : x.Follows (.frozen x) where
  same s e he _ := by
    unfold JP.frozen
    rw [hx s e he]
    cases x s .iced with
    | none => rfl
    | some p =>
      obtain ⟨⟨a, s'⟩, e'⟩ := p
      cases a <;> rfl
  thaws s _ _ _ _ hput := by
    obtain ⟨p, -, hp⟩ := Option.map_eq_some_iff.1 hput
    obtain ⟨⟨a, s'⟩, e'⟩ := p
    cases a <;> cases hp
  stays := hs

theorem of (x : JM α) : (JE.of x).Follows (.of x) where
  same s e he _ := by
    unfold JE.of JP.of
    cases x s with
    | none => rfl
    | some r => cases r <;> rfl
  thaws s _ _ _ _ hput := absurd hput (JP.of_ne_put x s)
  stays s := by
    unfold JE.of
    cases x s with
    | none => exact .undef
    | some r => cases r <;> exact .pure _

theorem raising (l : Loc) (x : JM α) : (JE.raising l x).Follows (.of x) where
  same s e he _ := by
    unfold JE.raising JP.of
    cases x s with
    | none => rfl
    | some r =>
      cases r with
      | ok a s => rfl
      | fail f s => exact ((gives_errVset l f.err f.oserr f.msg).bind (.pure (none, s))) e he
  thaws s _ _ _ _ hput := absurd hput (JP.of_ne_put x s)
  stays s := by
    unfold JE.raising
    cases x s with
    | none => exact .undef
    | some r =>
      cases r with
      | ok a s => exact .pure _
      | fail f s => exact (staysThawed_errVset _ _ _ _).bind fun _ => .pure _

theorem ignore {x : JE Unit} {y : JM Unit} (h : x.Follows (.of y)) : x.ignore.Follows (.of (JM.ignore y)) where
  same s e he _ := by
    have hx := h.same s e he (JP.of_ne_put y s)
    unfold JP.of at hx ⊢
    unfold JE.ignore JM.ignore
    rw [bind_run, hx]
    cases y s with
    | none => rfl
    | some r => cases r <;> rfl
  thaws s _ _ _ _ hput := absurd hput (JP.of_ne_put _ s)
  stays s := (h.stays s).bind fun _ => .pure _

/-- The first put thaws the state. -/
theorem put (obj : List (CStr × Json R)) (key : CStr) (val : Json R) (D : Doubles R) (mem : Stale) :
    (JE.put obj key val).Follows ((JP.ops D mem).put obj key val) where
  same _ _ _ h := absurd rfl h
  thaws s e r e' he _ hrun := by
    obtain ⟨⟨p, e₁⟩, hput, hrest⟩ := Option.bind_eq_some_iff.1 hrun
    have he₁ := jsonObjput_thaws he hput
    dsimp only at hrest
    split at hrest
    · cases hrest
      exact he₁
    · cases hrest
  stays s := by
    refine (jsonObjput_staysThawed _ _ _ _).bind fun p => ?_
    split
    · exact .pure _
    · exact .undef

end JE.Follows

/-- The path compiles, and the walk along it gets to a thaw. -/
def QueryThaws (j : Option (Json R)) (path : Option CStr) : Prop :=
  ∃ root p nodes, j = some root ∧ path = some p ∧ jsonCompile p .iced = some (some nodes, .iced) ∧ WalkThaws nodes root

end Pcl

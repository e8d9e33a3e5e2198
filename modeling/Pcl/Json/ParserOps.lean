import Pcl.Json.Decode

/-!
# The parser over its operations

`ipcl_json_parse_value` in any monad that has the operations it is made of: the parser of `Decode` is one, and the one
that keeps the error state another.
-/

namespace Pcl

variable {R : Type}

/-- What the parser is made of; `put` is `pcl_json_objput` to the object that is being built. -/
structure ParserOps (m : Type → Type) (R : Type) where
  string : m CStr
  number : m (Json R)
  skipws : m Unit
  skipwsIgnored : m Unit
  peek : m UInt8
  skip : Nat → m Unit
  mark : m Unit
  get : m JState
  throw : {α : Type} → Loc → List (List UInt8) → m α
  undef : {α : Type} → m α
  put : List (CStr × Json R) → CStr → Json R → m (List (CStr × Json R))

namespace ParserOps
variable {m : Type → Type} [Monad m] (p : ParserOps m R)

/-- The loop of `ipcl_json_parse_array`, from an element on. -/
def arrayLoop (value : m (Json R)) : Nat → List (Json R) → m (Json R)
  | 0, _ => p.undef
  | n + 1, arr => do
    let val ← value
    p.skipws
    if (← p.peek) = ch ']' then
      p.skip 1
      return .arr (arr ++ [val])
    else
      let c ← p.peek
      p.skip 1
      if c ≠ ch ',' then
        p.throw (loc "json_parse_array.c" "ipcl_json_parse_array" 83) [txt "missing comma after value"]
      else
        p.skipws
        let s ← p.get
        if s.left > 0 then arrayLoop value n (arr ++ [val])
        else p.throw (loc "json_parse_array.c" "ipcl_json_parse_array" 95) [txt "unexpected end of input"]

/-- `ipcl_json_parse_array`. -/
def parseArray (value : m (Json R)) (fuel : Nat) : m (Json R) := do
  let c ← p.peek
  p.skip 1
  if c ≠ ch '[' then
    p.throw (loc "json_parse_array.c" "ipcl_json_parse_array" 38) [txt "expected opening array '['"]
  else
    p.skipwsIgnored
    p.mark
    if (← p.peek) = ch ']' then
      p.skip 1
      return .arr []
    else p.arrayLoop value fuel []

/-- The loop of `ipcl_json_parse_object`, from a key on. -/
def objectLoop (value : m (Json R)) : Nat → List (CStr × Json R) → m (Json R)
  | 0, _ => p.undef
  | n + 1, obj => do
    let key ← p.string
    p.skipws
    let c ← p.peek
    p.skip 1
    if c ≠ ch ':' then
      p.throw (loc "json_parse_object.c" "ipcl_json_parse_object" 77) [txt "expected value ':' separator"]
    else
      let val ← value
      let obj ← p.put obj key val
      p.skipws
      if (← p.peek) = ch '\x7d' then
        p.skip 1
        return .obj obj
      else
        let c ← p.peek
        p.skip 1
        if c ≠ ch ',' then
          p.throw (loc "json_parse_object.c" "ipcl_json_parse_object" 113) [txt "missing comma after value"]
        else
          p.skipws
          let s ← p.get
          if s.left > 0 then objectLoop value n obj
          else p.throw (loc "json_parse_object.c" "ipcl_json_parse_object" 125) [txt "unexpected end of input"]

/-- `ipcl_json_parse_object`. -/
def parseObject (value : m (Json R)) (fuel : Nat) : m (Json R) := do
  let c ← p.peek
  p.skip 1
  if c ≠ ch '\x7b' then
    p.throw (loc "json_parse_object.c" "ipcl_json_parse_object" 40) [txt "expected opening object '\x7b'"]
  else
    p.skipws
    p.mark
    if (← p.peek) = ch '\x7d' then
      p.skip 1
      return .obj []
    else p.objectLoop value fuel []

/-- A literal of `ipcl_json_parse_value`, by its bytes behind the first. -/
def parseLiteral (line : Int) (tail : List UInt8) (val : Json R) : m (Json R) := do
  let s ← p.get
  if s.left < tail.length + 1 ∨ (s.rest.drop 1).take tail.length ≠ tail then
    p.throw (loc "json_parse_value.c" "ipcl_json_parse_value" line) [txt "invalid json value"]
  else
    p.skip (tail.length + 1)
    return val

/-- `ipcl_json_parse_value`. -/
def parseValue : Nat → m (Json R)
  | 0 => p.undef
  | n + 1 => do
    p.mark
    p.skipws
    p.mark
    let c ← p.peek
    if c = ch '\x7b' then p.parseObject (parseValue n) n
    else if c = ch '[' then p.parseArray (parseValue n) n
    else if c = ch '"' then do
      let str ← p.string
      return .str str
    else if c = ch 't' then p.parseLiteral 79 (txt "rue") (.bool true)
    else if c = ch 'f' then p.parseLiteral 89 (txt "alse") (.bool false)
    else if c = ch 'n' then p.parseLiteral 99 (txt "ull") .null
    else if c = ch '-' ∨ isdigit c then p.number
    else p.throw (loc "json_parse_value.c" "ipcl_json_parse_value" 124) [txt "expected json value"]

end ParserOps

/-! ### The parser without an error state -/

/-- `pcl_json_objput`, which refuses a present key. -/
def JM.put (obj : List (CStr × Json R)) (key : CStr) (val : Json R) : JM (List (CStr × Json R)) :=
  match Json.objput obj key val with
  | none => JM.fault ⟨eExist, 0, none⟩
  | some obj => pure obj

/-- The operations in `JM`. -/
def Tokens.ops (T : Tokens R) : ParserOps JM R where
  string := T.string
  number := T.number
  skipws := ipclJsonSkipws
  skipwsIgnored := JM.ignore ipclJsonSkipws
  peek := JM.peek
  skip := JM.skip
  mark := JM.mark
  get := JM.get
  throw _ parts := JM.throw parts
  undef := JM.undef
  put := JM.put

variable (T : Tokens R) (value : JM (Json R))

theorem ops_arrayLoop (n : Nat) (arr : List (Json R)) : T.ops.arrayLoop value n arr = arrayLoop value n arr := by
  induction n generalizing arr with
  | zero => rfl
  | succ n ih =>
    unfold ParserOps.arrayLoop arrayLoop
    simp only [ih]
    rfl

theorem put_bind {α : Type} (obj : List (CStr × Json R)) (key : CStr) (val : Json R)
    (rest : List (CStr × Json R) → JM α) :
    (JM.put obj key val >>= rest) = match Json.objput obj key val with
      | none => JM.fault ⟨eExist, 0, none⟩
      | some obj => rest obj := by
  unfold JM.put
  cases Json.objput obj key val <;> rfl

theorem ops_objectLoop (n : Nat) (obj : List (CStr × Json R)) :
    T.ops.objectLoop value n obj = objectLoop T.string value n obj := by
  induction n generalizing obj with
  | zero => rfl
  | succ n ih =>
    unfold ParserOps.objectLoop objectLoop
    have hput : T.ops.put = JM.put := rfl
    simp only [ih, hput, put_bind]
    rfl

/-- The parser of `Decode` is the parser over the operations of `JM`. -/
theorem ops_parseValue (n : Nat) : T.ops.parseValue n = ipclJsonParseValue T n := by
  induction n with
  | zero => rfl
  | succ n ih =>
    unfold ParserOps.parseValue ipclJsonParseValue ParserOps.parseObject ParserOps.parseArray
    simp only [ih, ops_arrayLoop, ops_objectLoop]
    rfl

/-! ### Two monads -/

/-- The operations are related, by a relation that sequencing keeps. -/
structure ParserOps.Related {m m' : Type → Type} [Monad m] [Monad m'] (r : {α : Type} → m α → m' α → Prop)
    (p : ParserOps m R) (q : ParserOps m' R) : Prop where
  pure : ∀ {α : Type} (a : α), r (pure a : m α) (pure a)
  bind : ∀ {α β : Type} {x : m α} {y : m' α} {f : α → m β} {g : α → m' β},
    r x y → (∀ a, r (f a) (g a)) → r (x >>= f) (y >>= g)
  string : r p.string q.string
  number : r p.number q.number
  skipws : r p.skipws q.skipws
  skipwsIgnored : r p.skipwsIgnored q.skipwsIgnored
  peek : r p.peek q.peek
  skip : ∀ n, r (p.skip n) (q.skip n)
  mark : r p.mark q.mark
  get : r p.get q.get
  throw : ∀ {α : Type} (l : Loc) (parts : List (List UInt8)), r (p.throw l parts : m α) (q.throw l parts)
  undef : ∀ {α : Type}, r (p.undef : m α) q.undef
  put : ∀ obj key val, r (p.put obj key val) (q.put obj key val)

theorem ite_related {α β : Type} {r : α → β → Prop} {c : Prop} [Decidable c] {x x' : α} {y y' : β} (h : r x y)
    (h' : r x' y') : r (if c then x else x') (if c then y else y') := by
  split
  · exact h
  · exact h'

namespace ParserOps.Related
variable {m m' : Type → Type} [Monad m] [Monad m'] {r : {α : Type} → m α → m' α → Prop}
  {p : ParserOps m R} {q : ParserOps m' R} {value : m (Json R)} {value' : m' (Json R)}

theorem arrayLoop (h : Related r p q) (hvalue : r value value') (n : Nat) (arr : List (Json R)) :
    r (p.arrayLoop value n arr) (q.arrayLoop value' n arr) := by
  induction n generalizing arr with
  | zero => exact h.undef
  | succ n ih =>
    refine h.bind hvalue fun val => h.bind h.skipws fun _ => h.bind h.peek fun c => ite_related ?_ ?_
    · exact h.bind (h.skip 1) fun _ => h.pure _
    · refine h.bind h.peek fun c => h.bind (h.skip 1) fun _ => ite_related (h.throw _ _) ?_
      exact h.bind h.skipws fun _ => h.bind h.get fun s => ite_related (ih _) (h.throw _ _)

theorem objectLoop (h : Related r p q) (hvalue : r value value') (n : Nat) (obj : List (CStr × Json R)) :
    r (p.objectLoop value n obj) (q.objectLoop value' n obj) := by
  induction n generalizing obj with
  | zero => exact h.undef
  | succ n ih =>
    refine h.bind h.string fun key => h.bind h.skipws fun _ => h.bind h.peek fun c => h.bind (h.skip 1) fun _ =>
      ite_related (h.throw _ _) ?_
    refine h.bind hvalue fun val => h.bind (h.put obj key val) fun obj => h.bind h.skipws fun _ =>
      h.bind h.peek fun c => ite_related ?_ ?_
    · exact h.bind (h.skip 1) fun _ => h.pure _
    · refine h.bind h.peek fun c => h.bind (h.skip 1) fun _ => ite_related (h.throw _ _) ?_
      exact h.bind h.skipws fun _ => h.bind h.get fun s => ite_related (ih _) (h.throw _ _)

theorem parseLiteral (h : Related r p q) (line : Int) (tail : List UInt8) (val : Json R) :
    r (p.parseLiteral line tail val) (q.parseLiteral line tail val) :=
  h.bind h.get fun _ => ite_related (h.throw _ _) (h.bind (h.skip _) fun _ => h.pure _)

/-- The parsers are related. -/
theorem parseValue (h : Related r p q) (n : Nat) : r (p.parseValue n) (q.parseValue n) := by
  induction n with
  | zero => exact h.undef
  | succ n ih =>
    have hobject : r (p.parseObject (p.parseValue n) n) (q.parseObject (q.parseValue n) n) := by
      refine h.bind h.peek fun c => h.bind (h.skip 1) fun _ => ite_related (h.throw _ _) ?_
      refine h.bind h.skipws fun _ => h.bind h.mark fun _ => h.bind h.peek fun c => ite_related ?_ (h.objectLoop ih n _)
      exact h.bind (h.skip 1) fun _ => h.pure _
    have harray : r (p.parseArray (p.parseValue n) n) (q.parseArray (q.parseValue n) n) := by
      refine h.bind h.peek fun c => h.bind (h.skip 1) fun _ => ite_related (h.throw _ _) ?_
      refine h.bind h.skipwsIgnored fun _ => h.bind h.mark fun _ => h.bind h.peek fun c =>
        ite_related ?_ (h.arrayLoop ih n _)
      exact h.bind (h.skip 1) fun _ => h.pure _
    refine h.bind h.mark fun _ => h.bind h.skipws fun _ => h.bind h.mark fun _ => h.bind h.peek fun c => ?_
    refine ite_related hobject (ite_related harray (ite_related ?_ ?_))
    · exact h.bind h.string fun _ => h.pure _
    · refine ite_related (h.parseLiteral _ _ _) (ite_related (h.parseLiteral _ _ _) ?_)
      exact ite_related (h.parseLiteral _ _ _) (ite_related h.number (h.throw _ _))

end ParserOps.Related

end Pcl

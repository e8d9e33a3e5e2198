import Pcl.Json.Value
import Pcl.Str.Search
import Pcl.Str.Strtol

/-!
# JSON paths

`pcl_json_compile` turns a path into the list of its nodes, `pcl_json_match` walks a document along it.
The loops of the compiler and the walk are bounded by a fuel; no fuel, no result. An index that
leaves the range of `int` has no defined behaviour.
-/

namespace Pcl

variable {R : Type}

/-- `tag_pcl_json_path`; the `next` pointers are the list of nodes. -/
inductive PathNode where
  | root
  | member (name : CStr)
  | wildcardMember
  | recursiveDescent
  | element (index : Int)
  | wildcardElement
  | elementList (idxList : List Int)
  | elementSlice (start stop step : Int)
deriving DecidableEq

/-! ### Compiling -/

/-- A single quote. -/
def quote : UInt8 := 0x27

/-- `R_SETERRMSG(NULL, PCL_ESYNTAX, msg)` in `pcl_json_compile`. -/
def compileErr {α : Type} (line : Int) (msg : String) : ErrM (Option α) := do
  let _ ← setErrMsg (loc "json_compile.c" "pcl_json_compile" line) eSyntax msg
  return none

/-- `R_TRCMSG(NULL, msg)` in `pcl_json_compile`. -/
def compileTrc {α : Type} (line : Int) (msg : String) : ErrM (Option α) := do
  let _ ← errVtrace (loc "json_compile.c" "pcl_json_compile" line) (some (.lit msg))
  return none

/-- A node of the path and the text behind it. -/
abbrev Compiled := Option (PathNode × List UInt8)

/-- Read a number with `pcl_strtoi`, and go on with what it stored and the text behind it. -/
def readInt (line : Int) (msg : String) (p : List UInt8) (f : Int → List UInt8 → ErrM Compiled) : ErrM Compiled := do
  let (r, n, p) ← pclStrtoi p
  if r < 0 then compileTrc line msg
  else
    match n with
    | none => ErrM.undef
    | some n => f n p

/-- The case `'.'` of `pcl_json_compile`; `p` is the text behind the dot. -/
def compileDot (p : List UInt8) : ErrM Compiled :=
  if p.headD 0 = ch '.' then
    -- the second dot is needed for the next node
    return some (.recursiveDescent, p)
  else if p.headD 0 = ch '*' then
    return some (.wildcardMember, p.drop 1)
  else
    let name := p.takeWhile fun c => c ≠ ch '.' ∧ c ≠ ch '[' ∧ c ≠ 0
    if name.length = 0 then compileErr 84 "missing member name"
    else return some (.member (strndup p name.length), p.drop name.length)

/-- The end of a slice expression. -/
def sliceClose (start stop step : Int) (line : Int) (p : List UInt8) : ErrM Compiled :=
  if p.headD 0 ≠ ch ']' then compileErr line "invalid slice expression: no closing ']'"
  else return some (.elementSlice start stop step, p.drop 1)

/-- The optional step of a slice expression and its end. -/
def sliceStep (start stop : Int) (stepLine closeLine : Int) (p : List UInt8) : ErrM Compiled :=
  if p.headD 0 = ch ':' then
    readInt stepLine "invalid slice expression: slice step" (p.drop 1) fun step p =>
      sliceClose start stop step closeLine p
  else sliceClose start stop 1 closeLine p

/-- A slice expression from behind its first colon on, where the end may be `omitted`. -/
def sliceEnd (start : Int) (omitted : Bool) (endLine stepLine closeLine : Int) (p : List UInt8) : ErrM Compiled :=
  if omitted then sliceStep start 0 stepLine closeLine p
  else
    readInt endLine "invalid slice expression: slice end" p fun stop p =>
      sliceStep start stop stepLine closeLine p

/-- The loop over the indexes of a subscript set. -/
def indexList : Nat → List UInt8 → List Int → ErrM Compiled
  | 0, _, _ => ErrM.undef
  | n + 1, p, idxList =>
    if p.headD 0 = ch ']' then return some (.elementList idxList, p.drop 1)
    else
      readInt 204 "invalid subscript set expression" (p.drop 1) fun index p =>
        if p.headD 0 ≠ ch ',' ∧ p.headD 0 ≠ ch ']' then compileErr 212 "invalid subscript set expression"
        else indexList n p (idxList ++ [index])

/-- A subscript that starts with an index. -/
def compileIndex (p : List UInt8) : ErrM Compiled :=
  readInt 186 "invalid subscript expression" p fun i p =>
    if p.headD 0 = ch ',' then indexList (p.length + 1) p [i]
    else if p.headD 0 = ch ':' then
      sliceEnd i ((p.drop 1).headD 0 = ch ']' ∨ (p.drop 1).headD 0 = ch ':') 233 245 255 (p.drop 1)
    else if p.headD 0 = ch ']' then return some (.element i, p.drop 1)
    else compileErr 274 "invalid subscript expression"

/-- The case `'['` of `pcl_json_compile`; `p` is the text behind the bracket. -/
def compileBracket (p : List UInt8) : ErrM Compiled :=
  -- $.book[*]
  if txt "*]" <+: p then return some (.wildcardElement, p.drop 2)
  else if p.headD 0 = quote then
    -- $.book['*']
    if [quote, ch '*', quote, ch ']'] <+: p then return some (.wildcardMember, p.drop 4)
    else
      match strstr [quote, ch ']'] (p.drop 1) with
      | none => compileErr 126 "unterminated single quote"
      | some len => return some (.member (strndup (p.drop 1) len), (p.drop 1).drop (len + 2))
  -- slice with no start $.book[:2]
  else if p.headD 0 = ch ':' then
    sliceEnd 0 ((p.drop 1).headD 0 = ch ':') 148 160 170 (p.drop 1)
  else compileIndex p

/-- A round of the loop of `pcl_json_compile`. -/
def compileNode (p : List UInt8) : ErrM Compiled :=
  if p.headD 0 = ch '$' then compileErr 57 "second '$' root not allowed"
  else if p.headD 0 = ch '.' then compileDot (p.drop 1)
  else if p.headD 0 = ch '[' then compileBracket (p.drop 1)
  else do
    let _ ← errVset (loc "json_compile.c" "pcl_json_compile" 285) eSyntax 0
      (some (.ofBytes (txt "unexpected character '" ++ [p.headD 0] ++ txt "'")))
    return none

/-- The loop of `pcl_json_compile`; `root` is the list of the nodes, the last one first. -/
def compileLoop : Nat → List UInt8 → List PathNode → ErrM (Option (List PathNode))
  | 0, _, _ => ErrM.undef
  | n + 1, p, root =>
    if p.headD 0 = 0 then return some root.reverse
    else do
      match ← compileNode p with
      | none => return none
      | some (node, p) => compileLoop n p (node :: root)

/-- `pcl_json_compile`. -/
def jsonCompile (path : CStr) : ErrM (Option (List PathNode)) :=
  let p := path.bytes.dropWhile isspace
  if p.headD 0 ≠ ch '$' ∨ (p.drop 1).headD 0 ≠ ch '.' ∧ (p.drop 1).headD 0 ≠ ch '[' then
    compileErr 44 "missing '$' root"
  else compileLoop (p.length + 1) (p.drop 1) [.root]

/-! ### Matching -/

/-- The type letter of a value. -/
def Json.type : Json R → UInt8
  | .null => 0
  | .bool _ => ch 'b'
  | .int _ => ch 'i'
  | .real _ => ch 'r'
  | .str _ => ch 's'
  | .arr _ => ch 'a'
  | .obj _ => ch 'o'

/-- `pcl_htable_get` on the table of an object. -/
def objectGet (m : List (CStr × Json R)) (key : CStr) : ErrM (Option (Json R)) :=
  match OMap.find Json.keyEq m key with
  | some p => do
    let _ ← errClear
    return some p.2
  | none => do
    let _ ← setErr (loc "htable_lookup.c" "ipcl_htable_lookup" 71) eNotfound
    let _ ← trc (loc "htable_lookup.c" "pcl_htable_lookup" 43)
    trcNull (loc "htable_get.c" "pcl_htable_get" 41)

/-- `pcl_errno`. -/
def errno : ErrM Int := fun e => some (e.err, e)

/-- `pcl_json_objget`. -/
def jsonObjget (obj : Json R) (key : CStr) : ErrM (Option (Json R)) :=
  match obj with
  | .obj m => do
    match ← objectGet m key with
    | some val => return some val
    | none =>
      if (← errno) ≠ 0 then trcNull (loc "json_objget.c" "pcl_json_objget" 47)
      else setErrNull (loc "json_objget.c" "pcl_json_objget" 47) eNotfound
  | obj => do
    let _ ← errVset (loc "json_objget.c" "pcl_json_objget" 42) eType 0
      (some (.ofBytes (txt "expected type 'o', got '" ++ [obj.type] ++ txt "'")))
    return none

/-- `pcl_array_get`. -/
def arrayGet {α : Type} (arr : List α) (index : Int) : ErrM (Option α) :=
  if index < 0 ∨ index ≥ arr.length then setErrNull (loc "array_get.c" "pcl_array_get" 43) eIndex
  else do
    let _ ← errClear
    return arr[index.toNat]?

/-- The values that a function appends for the elements of a list. -/
def forEach {α β : Type} (f : α → ErrM (List β)) : List α → ErrM (List β)
  | [] => return []
  | a :: l => do
    let r ← f a
    let rs ← forEach f l
    return r ++ rs

/-- What `walk_path` does with a value it found: it appends it at the end of the path, and goes on with
the next node before. -/
def follow (walk : List PathNode → Json R → ErrM (List (Json R))) (next : List PathNode) (v : Json R) :
    ErrM (List (Json R)) :=
  if next.isEmpty then return [v] else walk next v

/-- What `walk_path` does with the element at an index. -/
def followElement (walk : List PathNode → Json R → ErrM (List (Json R))) (next : List PathNode)
    (array : List (Json R)) (index : Int) : ErrM (List (Json R)) := do
  errFreeze true
  let elem ← arrayGet array index
  errFreeze false
  match elem with
  | some elem => follow walk next elem
  | none => return []

/-- The loop over a slice. -/
def sliceLoop {β : Type} (f : Int → ErrM (List β)) (stop step : Int) : Nat → Int → ErrM (List β)
  | 0, _ => ErrM.undef
  | n + 1, i =>
    if i < stop then do
      let r ← f i
      if i + step < intMin ∨ i + step > intMax then ErrM.undef
      else
        let rs ← sliceLoop f stop step n (i + step)
        return r ++ rs
    else return []

/-- The first index of a slice of an array of `count` elements. -/
def sliceStart (start : Int) (count : Nat) : Int := if start < 0 then count + start else start

/-- The index a slice of an array of `count` elements ends before. -/
def sliceStop (stop : Int) (count : Nat) : Int :=
  if stop = 0 then count else if stop < 0 then count + stop else stop

/-- `walk_path`: the values it appends to the results. -/
def walkPath : Nat → List PathNode → Json R → ErrM (List (Json R))
  | 0, _, _ => ErrM.undef
  | _ + 1, [], _ => ErrM.undef
  | n + 1, node :: next, v =>
    match node with
    | .root => follow (walkPath n) next v
    | .member name =>
      match v with
      | .obj _ => do
        match ← jsonObjget v name with
        | some mbr => follow (walkPath n) next mbr
        | none => return []
      | _ => return []
    | .recursiveDescent =>
      match v with
      | .obj m => forEach (fun ent =>
          match next with
          | [] => ErrM.undef
          | .member name :: _ =>
            if name = ent.1 then walkPath n next v else walkPath n (node :: next) ent.2
          | _ => walkPath n (node :: next) ent.2) m
      | .arr l => forEach (fun (i, elem) =>
          match next with
          | [] => ErrM.undef
          | .element index :: _ =>
            if index = i then walkPath n next v else walkPath n (node :: next) elem
          | _ => walkPath n (node :: next) elem) (l.zipIdx.map fun p => ((p.2 : Int), p.1))
      | _ => return []
    | .wildcardMember =>
      match v with
      | .obj m => forEach (fun ent => follow (walkPath n) next ent.2) m
      | _ => return [v]
    | .element index =>
      match v with
      | .arr l => followElement (walkPath n) next l index
      | _ => return []
    | .elementList idxList =>
      match v with
      | .arr l => forEach (followElement (walkPath n) next l) idxList
      | _ => return []
    | .wildcardElement =>
      match v with
      | .arr l => forEach (follow (walkPath n) next) l
      | _ => return [v]
    | .elementSlice start stop step =>
      match v with
      | .arr l => sliceLoop (followElement (walkPath n) next l) (sliceStop stop l.length) step n
          (sliceStart start l.length)
      | _ => return []

/-- `pcl_json_match`. -/
def jsonMatch (fuel : Nat) (root : Json R) (path : List PathNode) : ErrM (List (Json R)) := walkPath fuel path root

/-- `pcl_json_query`. -/
def jsonQuery (fuel : Nat) (j : Option (Json R)) (path : Option CStr) : ErrM (Option (List (Json R))) :=
  match j, path with
  | some j, some path => do
    match ← jsonCompile path with
    | none => trcNull (loc "json_query.c" "pcl_json_query" 43)
    | some p =>
      let arr ← jsonMatch fuel j p
      return some arr
  | _, _ => setErrNull (loc "json_query.c" "pcl_json_query" 38) eInval

end Pcl

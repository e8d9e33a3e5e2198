import Pcl.Json.Path
import Pcl.Str.Utf8

/-!
# Building and reading objects

`pcl_json_str`, `pcl_json_objput` and the functions over them, and those that read a member back as an integer or a
string, with what they do to the error state. A `NULL` pointer is `none`; a function that changes an object returns
it. Integers are within `long long`.
-/

namespace Pcl
variable {R : Type}

/-- The `PCL_JSON_...` flags that decide something here. -/
structure JsonFlags where
  skipUtf8Chk : Bool
  emptyAsNull : Bool
  allowNull : Bool

/-- The check of a text, unless it is skipped. -/
def checkText (flags : JsonFlags) (s : CStr) (len : Nat) : ErrM Int :=
  if flags.skipUtf8Chk then pure 0 else utf8Check s.bytes len

/-- `pcl_json_str`. -/
def jsonStr (str : Option CStr) (flags : JsonFlags) : ErrM (Option (Json R)) :=
  match str with
  | none => if flags.allowNull then return some .null else setErrNull (loc "json_str.c" "pcl_json_str" 44) eInval
  | some str => do
    let r ← checkText flags str str.strlen
    if r < 0 then trcNull (loc "json_str.c" "pcl_json_str" 50)
    else if flags.emptyAsNull ∧ str.strlen = 0 then return some .null
    else return some (.str str)

/-- `pcl_json_int`. -/
def jsonInt (integer : Int) : ErrM (Option (Json R)) :=
  if integer = jsonInvint then setErrNull (loc "json_int.c" "pcl_json_int" 39) eInval else return some (.int integer)

/-- `pcl_json_real`. -/
def jsonReal (D : Doubles R) (real : R) : ErrM (Option (Json R)) :=
  match D.kind real with
  | .valid => return some (.real real)
  | .invreal => setErrNull (loc "json_real.c" "pcl_json_real" 40) eInval
  | .nan => do
    let _ ← setErrMsg (loc "json_real.c" "pcl_json_real" 43) eInval "NaN not supported"
    return none
  | .inf => do
    let _ ← setErrMsg (loc "json_real.c" "pcl_json_real" 46) eInval "Infinity not supported"
    return none

/-- `ipcl_htable_lookup` on the table of an object. -/
def objectLookup (m : List (CStr × Json R)) (key : CStr) : ErrM (Option (Json R)) :=
  match OMap.find Json.keyEq m key with
  | some p => return some p.2
  | none => setErrNull (loc "htable_lookup.c" "ipcl_htable_lookup" 71) eNotfound

/-- `pcl_htable_put` of a new key on the table of an object. -/
def objectPut (m : List (CStr × Json R)) (key : CStr) (value : Json R) : ErrM (Int × List (CStr × Json R)) := do
  errFreeze true
  let e ← objectLookup m key
  errFreeze false
  match e with
  | some _ =>
    let r ← setErr (loc "htable_put.c" "pcl_htable_put" 53) eExist
    return (r, m)
  | none => return (0, m ++ [(key, value)])

/-- `pcl_json_objput`. -/
def jsonObjput (obj : Option (Json R)) (key : Option CStr) (value : Option (Json R)) (flags : JsonFlags) :
    ErrM (Int × Option (Json R)) :=
  match obj, key, value with
  | some (.obj m), some key, some value => do
    let r ← checkText flags key 0
    if r < 0 then
      let r ← trc (loc "json_objput.c" "pcl_json_objput" 63)
      return (r, obj)
    else
      let (r, m) ← objectPut m key value
      if r < 0 then
        let r ← errVtrace (loc "json_objput.c" "pcl_json_objput" 79)
          (some (.ofBytes (txt "failed to put '" ++ key.bytes ++ txt "' key")))
        return (r, some (.obj m))
      else return (0, some (.obj m))
  | some v, some _, some _ => do
    let r ← errVset (loc "json_objput.c" "pcl_json_objput" 55) eType 0
      (some (.ofBytes (txt "expected type 'o', got '" ++ [v.type] ++ txt "'")))
    return (r, obj)
  | _, _, _ => do
    let r ← badArg (loc "json_objput.c" "pcl_json_objput" 47)
    return (r, obj)

/-- Put a value that was made, and trace a failure at a line. -/
def objputMade (file func : String) (line : Int) (obj : Option (Json R)) (key : CStr) (val : Json R) (flags : JsonFlags) :
    ErrM (Int × Option (Json R)) := do
  let (r, obj) ← jsonObjput obj (some key) (some val) flags
  if r < 0 then
    let r ← trc (loc file func line)
    return (r, obj)
  else return (0, obj)

/-- `pcl_json_objputint`, `pcl_json_objputreal` and `pcl_json_objputstr`: make a value, and put it. -/
def objputNew (file func : String) (obj : Option (Json R)) (key : CStr) (value : ErrM (Option (Json R)))
    (flags : JsonFlags) : ErrM (Int × Option (Json R)) := do
  match ← value with
  | none =>
    let r ← trc (loc file func 40)
    return (r, obj)
  | some val => objputMade file func 43 obj key val flags

/-- `pcl_json_objputnull`. -/
def jsonObjputnull (obj : Option (Json R)) (key : CStr) (flags : JsonFlags) : ErrM (Int × Option (Json R)) :=
  objputMade "json_objputnull.c" "pcl_json_objputnull" 38 obj key .null flags

/-- `pcl_json_objputbool`. -/
def jsonObjputbool (obj : Option (Json R)) (key : CStr) (value : Bool) (flags : JsonFlags) :
    ErrM (Int × Option (Json R)) :=
  objputMade "json_objputbool.c" "pcl_json_objputbool" 38 obj key (.bool value) flags

/-- `pcl_json_objputint`. -/
def jsonObjputint (obj : Option (Json R)) (key : CStr) (value : Int) (flags : JsonFlags) : ErrM (Int × Option (Json R)) :=
  objputNew "json_objputint.c" "pcl_json_objputint" obj key (jsonInt value) flags

/-- `pcl_json_objputreal`. -/
def jsonObjputreal (D : Doubles R) (obj : Option (Json R)) (key : CStr) (value : R) (flags : JsonFlags) :
    ErrM (Int × Option (Json R)) :=
  objputNew "json_objputreal.c" "pcl_json_objputreal" obj key (jsonReal D value) flags

/-- `pcl_json_objputstr`. -/
def jsonObjputstr (obj : Option (Json R)) (key : CStr) (value : Option CStr) (flags : JsonFlags) :
    ErrM (Int × Option (Json R)) :=
  objputNew "json_objputstr.c" "pcl_json_objputstr" obj key (jsonStr value flags) flags

/-- `pcl_json_objgetint`. -/
def jsonObjgetint (obj : Json R) (key : CStr) : ErrM Int := do
  match ← jsonObjget obj key with
  | none =>
    let _ ← trc (loc "json_objgetint.c" "pcl_json_objgetint" 40)
    return jsonInvint
  | some (.int i) => return i
  | some v =>
    let _ ← errVset (loc "json_objgetint.c" "pcl_json_objgetint" 43) eType 0
      (some (.ofBytes (txt "expected type 'i', got '" ++ [v.type] ++ txt "'")))
    return jsonInvint

/-- `pcl_json_objgetstr`. -/
def jsonObjgetstr (obj : Json R) (key : CStr) : ErrM (Option CStr) := do
  match ← jsonObjget obj key with
  | none => trcNull (loc "json_objgetstr.c" "pcl_json_objgetstr" 40)
  | some (.str s) => return some s
  | some v =>
    let _ ← errVset (loc "json_objgetstr.c" "pcl_json_objgetstr" 43) eType 0
      (some (.ofBytes (txt "expected type 's', got '" ++ [v.type] ++ txt "'")))
    return none

/-- `pcl_json_arrget` of an array. -/
def jsonArrget (l : List (Json R)) (index : Int) : ErrM (Option (Json R)) := do
  match ← arrayGet l index with
  | none => trcNull (loc "json_arrget.c" "pcl_json_arrget" 47)
  | some elem => return some elem

/-! ### What they do -/

section
variable {m : List (CStr × Json R)} {key : CStr} {value : Json R} {flags : JsonFlags} (e : ErrState)

/-- Whatever the lookup reports, the state is thawed and otherwise as before. -/
theorem objectPut_new (h : OMap.find Json.keyEq m key = none) :
    objectPut m key value e = some ((0, m ++ [(key, value)]), e.thawed) := by
  unfold objectPut objectLookup
  simp only [h, ErrM.bind_run, errFreeze_run, Option.bind_some, setErrNull_run _ _ _ (show eNotfound ≠ eOkay by decide),
    ErrState.raised, if_true]
  rfl

theorem jsonObjput_new (hflags : flags.skipUtf8Chk = true) (h : OMap.find Json.keyEq m key = none) :
    jsonObjput (some (.obj m)) (some key) (some value) flags e = some ((0, some (.obj (m ++ [(key, value)]))), e.thawed) := by
  unfold jsonObjput checkText
  simp only [hflags, if_true, ErrM.bind_run, ErrM.pure_run, Option.bind_some, Int.lt_irrefl, if_false,
    objectPut_new e h]

theorem jsonObjputint_new {i : Int} (hi : i ≠ jsonInvint) (hflags : flags.skipUtf8Chk = true)
    (h : OMap.find Json.keyEq m key = none) :
    jsonObjputint (some (.obj m)) key i flags e = some ((0, some (.obj (m ++ [(key, .int i)]))), e.thawed) := by
  unfold jsonObjputint objputNew objputMade jsonInt
  simp only [if_neg hi, ErrM.bind_run, ErrM.pure_run, Option.bind_some, jsonObjput_new e hflags h,
    Int.lt_irrefl, if_false]

/-- The value of an optional string: an absent or empty one is null. -/
def Json.ofOption (str : Option CStr) : Json R :=
  match str with
  | none => .null
  | some s => if s.strlen = 0 then .null else .str s

theorem jsonStr_unchecked (str : Option CStr) : jsonStr (R := R) str ⟨true, true, true⟩ e = some (some (.ofOption str), e) := by
  unfold jsonStr Json.ofOption
  cases str with
  | none => rfl
  | some s => by_cases hs : s.strlen = 0 <;> simp [checkText, hs]

theorem jsonObjputstr_new (str : Option CStr) (h : OMap.find Json.keyEq m key = none) :
    jsonObjputstr (some (.obj m)) key str ⟨true, true, true⟩ e =
      some ((0, some (.obj (m ++ [(key, .ofOption str)]))), e.thawed) := by
  unfold jsonObjputstr objputNew objputMade
  have hput := @jsonObjput_new R m key (.ofOption str) ⟨true, true, true⟩ e rfl h
  simp only [jsonStr_unchecked, ErrM.bind_run, Option.bind_some, hput, Int.lt_irrefl, if_false, ErrM.pure_run]

end
end Pcl

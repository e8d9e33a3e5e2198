import Pcl.Htable.Ownership
import Pcl.Json.Object
import Pcl.Lib.RefHeap

/-!
# Values in memory

The functions of `src/json` that build, change, read and free values, on a heap of counted blocks: a value is a pointer,
arrays and objects hold pointers. Null, true and false are singletons and not counted. An array is the list of its
elements; the table of an object is the one of `pcl_json_obj`, with `hash` for the hash function. A callback of a
container runs when the operation on the container is done, as it does not look at the container. The memory of the
strings, keys, arrays and tables is left out, and with it `PCL_JSON_SHALLOW`.
-/

namespace Pcl
variable {R : Type}

/-- A `pcl_json_t *`. -/
inductive JPtr where
  | null
  | bool (b : Bool)
  | block (a : Nat)
deriving DecidableEq

def JPtr.addr? : JPtr → Option Nat
  | .block a => some a
  | .null | .bool _ => none

/-- What a `pcl_json_t` holds beside its count. -/
inductive JBody (R : Type) where
  | null
  | bool (b : Bool)
  | int (i : Int)
  | real (r : R)
  | str (s : CStr)
  | arr (l : List JPtr)
  | obj (t : HTable CStr JPtr)

namespace JBody

/-- `type`. -/
def type : JBody R → UInt8
  | .null => 0
  | .bool _ => ch 'b'
  | .int _ => ch 'i'
  | .real _ => ch 'r'
  | .str _ => ch 's'
  | .arr _ => ch 'a'
  | .obj _ => ch 'o'

/-- The blocks that the elements or the members are in. -/
def kids : JBody R → List Nat
  | .arr l => l.filterMap JPtr.addr?
  | .obj t => (htableFree t).filterMap fun p => p.2.bind JPtr.addr?
  | .null | .bool _ | .int _ | .real _ | .str _ => []

end JBody

/-- The memory of the values. -/
abbrev JStore (R : Type) := RefHeap (JBody R)

namespace JStore

/-- `*j`, unless it was freed. -/
def load (h : JStore R) : JPtr → Option (JBody R)
  | .null => some .null
  | .bool b => some (.bool b)
  | .block a => (h.read a).map CountedBlock.body

/-- The container that `j` points to was changed. -/
def store (h : JStore R) (j : JPtr) (body : JBody R) : JStore R :=
  match j with
  | .block a => h.setBody a body
  | .null | .bool _ => h

/-- A result, or no defined behaviour. -/
def orUndef {α : Type} (x : Option α) : ErrM α := fun e => x.map (·, e)

/-- `pcl_json_free`, `n` calls deep at most. -/
def jsonFreeUpTo : Nat → JPtr → JStore R → Option (JStore R)
  | _, .null, h | _, .bool _, h => some h
  | 0, .block _, _ => none
  | n + 1, .block a, h =>
    (h.read a).bind fun j =>
      -- pcl_json_ref(j, -1)->nrefs > 0
      if j.count - 1 > 0 then some (h.addRefs a (-1))
      else
        let h := h.addRefs a (-1)
        let freed : Option (JStore R) := match j.body with
          | .arr l => l.foldlM (fun h elem => jsonFreeUpTo n elem h) h
          | .obj t => (htableFree t).foldlM (fun h (ent : CStr × Option JPtr) =>
              match ent.2 with
              | some value => jsonFreeUpTo n value h
              | none => some h) h
          | .null | .bool _ | .int _ | .real _ | .str _ => some h
        freed.map fun h => h.free a

/-- `pcl_json_free`: a call gives up a reference, so it is no deeper than there are references. -/
def jsonFree (h : JStore R) (j : JPtr) : Option (JStore R) := jsonFreeUpTo (h.total + 1) j h

/-- `pcl_json_ref`; an `int` that overflows is undefined behaviour. -/
def jsonRef (h : JStore R) (j : JPtr) (amt : Int) : ErrM (JStore R) :=
  match j with
  | .null | .bool _ => return h
  | .block a =>
    match h.read a with
    | none => ErrM.undef
    | some j => if j.count + amt < intMin ∨ j.count + amt > intMax then ErrM.undef else return h.addRefs a amt

/-! ### New values -/

/-- A `pcl_json_t` that was just allocated. -/
def alloc (h : JStore R) (body : JBody R) : JPtr × JStore R := (.block h.length, h ++ [some ⟨1, body⟩])

/-- `pcl_json_int`. -/
def jsonInt (h : JStore R) (integer : Int) : ErrM (Option JPtr × JStore R) :=
  if integer = jsonInvint then do
    let j ← setErrNull (loc "json_int.c" "pcl_json_int" 39) eInval
    return (j, h)
  else
    let (val, h) := h.alloc (.int integer)
    return (some val, h)

/-- `pcl_json_real`. -/
def jsonReal (kind : R → RealKind) (h : JStore R) (real : R) : ErrM (Option JPtr × JStore R) :=
  match kind real with
  | .valid =>
    let (val, h) := h.alloc (.real real)
    return (some val, h)
  | .invreal => do
    let _ ← setErr (loc "json_real.c" "pcl_json_real" 40) eInval
    return (none, h)
  | .nan => do
    let _ ← setErrMsg (loc "json_real.c" "pcl_json_real" 43) eInval "NaN not supported"
    return (none, h)
  | .inf => do
    let _ ← setErrMsg (loc "json_real.c" "pcl_json_real" 46) eInval "Infinity not supported"
    return (none, h)

/-- `pcl_json_str`. -/
def jsonStr (h : JStore R) (str : Option CStr) (flags : JsonFlags) : ErrM (Option JPtr × JStore R) :=
  match str with
  | none =>
    if flags.allowNull then return (some .null, h)
    else do
      let j ← setErrNull (loc "json_str.c" "pcl_json_str" 44) eInval
      return (j, h)
  | some str => do
    let r ← checkText flags str str.strlen
    if r < 0 then
      let j ← trcNull (loc "json_str.c" "pcl_json_str" 50)
      return (j, h)
    else if flags.emptyAsNull ∧ str.strlen = 0 then return (some .null, h)
    else
      let (val, h) := h.alloc (.str str)
      return (some val, h)

/-- `pcl_json_arr`. -/
def jsonArr (h : JStore R) : JPtr × JStore R := h.alloc (.arr [])

/-- `pcl_json_obj`. -/
def jsonObj (hash : CStr → UInt64) (h : JStore R) : ErrM (JPtr × JStore R) := do
  match ← htable 0 0 true (fun a b _ => a == b) (fun key _ => hash key) with
  | none => ErrM.undef
  | some t => return h.alloc (.obj t)

/-! ### Arrays and objects -/

/-- `if(freeval) pcl_json_free(value)`. -/
def freeVal (h : JStore R) (freeval : Bool) (value : Option JPtr) : Option (JStore R) :=
  match value with
  | some value => if freeval then h.jsonFree value else some h
  | none => some h

/-- `SETERRMSG(PCL_ETYPE, "expected type '%c', got '%c'", j->type)`. -/
def typeErr (h : JStore R) (l : Loc) (expected : Char) (j : JPtr) : ErrM Int :=
  match h.load j with
  | none => ErrM.undef
  | some body => errVset l eType 0 (some (.ofBytes (txt "expected type '" ++ [ch expected] ++ txt "', got '" ++ [body.type] ++ txt "'")))

/-- `pcl_json_arradd`. -/
def jsonArradd (h : JStore R) (arr elem : Option JPtr) (freeval : Bool) : ErrM (Int × JStore R) :=
  match arr, elem with
  | some arr, some elem =>
    match h.load arr with
    | none => ErrM.undef
    | some (.arr l) => return (0, h.store arr (.arr (l ++ [elem])))
    | some _ => do
      let h ← orUndef (h.freeVal freeval elem)
      let r ← h.typeErr (loc "json_arradd.c" "pcl_json_arradd" 53) 'a' arr
      return (r, h)
  | _, elem => do
    let h ← orUndef (h.freeVal freeval elem)
    let r ← badArg (loc "json_arradd.c" "pcl_json_arradd" 45)
    return (r, h)

/-- `pcl_json_arrremove`. -/
def jsonArrremove (h : JStore R) (arr : Option JPtr) (index : Int) : ErrM (Int × JStore R) :=
  match arr with
  | none => do
    let r ← badArg (loc "json_arrremove.c" "pcl_json_arrremove" 39)
    return (r, h)
  | some arr =>
    match h.load arr with
    | none => ErrM.undef
    | some (.arr l) =>
      match if index < 0 then none else l[index.toNat]? with
      | none => do
        let r ← setErr (loc "array_remove.c" "pcl_array_remove" 43) eIndex
        if r < 0 then
          let r ← trc (loc "json_arrremove.c" "pcl_json_arrremove" 44)
          return (r, h)
        else return (0, h)
      | some elem => do
        let h ← orUndef ((h.store arr (.arr (l.eraseIdx index.toNat))).jsonFree elem)
        return (0, h)
    | some _ => do
      let r ← h.typeErr (loc "json_arrremove.c" "pcl_json_arrremove" 42) 'a' arr
      return (r, h)

/-- The callback of `pcl_json_obj` for the entries that an operation let go. -/
def freeEntries (h : JStore R) (removed : List (CStr × Option JPtr)) : Option (JStore R) :=
  removed.foldlM (fun h ent => h.freeVal true ent.2) h

/-- `pcl_json_objput`. -/
def jsonObjput (h : JStore R) (obj : Option JPtr) (key : Option CStr) (value : Option JPtr) (flags : JsonFlags)
    (freeval : Bool) : ErrM (Int × JStore R) :=
  match obj, key, value with
  | some obj, some key, some value =>
    match h.load obj with
    | none => ErrM.undef
    | some (.obj t) => do
      let r ← checkText flags key 0
      if r < 0 then
        let h ← orUndef (h.freeVal freeval value)
        let r ← trc (loc "json_objput.c" "pcl_json_objput" 63)
        return (r, h)
      else
        let (r, t, removed) ← htablePut t (some key) (some value) true
        let h ← orUndef ((h.store obj (.obj t)).freeEntries removed)
        if r < 0 then
          let h ← orUndef (h.freeVal freeval value)
          let r ← errVtrace (loc "json_objput.c" "pcl_json_objput" 79)
            (some (.ofBytes (txt "failed to put '" ++ key.bytes ++ txt "' key")))
          return (r, h)
        else return (0, h)
    | some _ => do
      let h ← orUndef (h.freeVal freeval value)
      let r ← h.typeErr (loc "json_objput.c" "pcl_json_objput" 55) 'o' obj
      return (r, h)
  | _, _, value => do
    let h ← orUndef (h.freeVal freeval value)
    let r ← badArg (loc "json_objput.c" "pcl_json_objput" 47)
    return (r, h)

/-- `pcl_json_objremove`. -/
def jsonObjremove (h : JStore R) (obj : Option JPtr) (key : Option CStr) : ErrM (Int × JStore R) :=
  match obj with
  | none => do
    let r ← badArg (loc "json_objremove.c" "pcl_json_objremove" 39)
    return (r, h)
  | some obj =>
    match h.load obj with
    | none => ErrM.undef
    | some (.obj t) => do
      let (r, t, removed) ← htableRemove t key
      let h ← orUndef ((h.store obj (.obj t)).freeEntries removed)
      if r < 0 then
        let r ← trc (loc "json_objremove.c" "pcl_json_objremove" 45)
        return (r, h)
      else return (0, h)
    | some _ => do
      let r ← h.typeErr (loc "json_objremove.c" "pcl_json_objremove" 42) 'o' obj
      return (r, h)

/-- `pcl_json_arrget`. -/
def jsonArrget (h : JStore R) (arr : Option JPtr) (index : Int) : ErrM (Option JPtr) :=
  match arr with
  | none => setErrNull (loc "json_arrget.c" "pcl_json_arrget" 39) eInval
  | some arr =>
    match h.load arr with
    | none => ErrM.undef
    | some (.arr l) => do
      match ← arrayGet l index with
      | none => trcNull (loc "json_arrget.c" "pcl_json_arrget" 47)
      | some elem => return some elem
    | some _ => do
      let _ ← h.typeErr (loc "json_arrget.c" "pcl_json_arrget" 42) 'a' arr
      return none

/-- `pcl_json_objget`. -/
def jsonObjget (h : JStore R) (obj : Option JPtr) (key : Option CStr) : ErrM (Option JPtr) :=
  match obj, key with
  | some obj, some key =>
    match h.load obj with
    | none => ErrM.undef
    | some (.obj t) => do
      match ← htableGet t (some key) with
      | some val => return some val
      | none =>
        if (← errno) ≠ 0 then trcNull (loc "json_objget.c" "pcl_json_objget" 47)
        else setErrNull (loc "json_objget.c" "pcl_json_objget" 47) eNotfound
    | some _ => do
      let _ ← h.typeErr (loc "json_objget.c" "pcl_json_objget" 42) 'o' obj
      return none
  | _, _ => setErrNull (loc "json_objget.c" "pcl_json_objget" 39) eInval

/-! ### Freeing is releasing -/

theorem foldlM_filterMap {α : Type} (f : α → Option Nat) (rel : Nat → JStore R → Option (JStore R))
    (g : JStore R → α → Option (JStore R)) (hsome : ∀ a b h, f a = some b → g h a = rel b h)
    (hnone : ∀ a h, f a = none → g h a = some h) (l : List α) (h : JStore R) :
    l.foldlM g h = (l.filterMap f).foldlM (fun h b => rel b h) h := by
  induction l generalizing h with
  | nil => rfl
  | cons a l ih =>
    rw [List.foldlM_cons, List.filterMap_cons]
    cases hf : f a with
    | none =>
      rw [hnone a h hf]
      exact ih h
    | some b =>
      rw [hsome a b h hf, List.foldlM_cons]
      exact congrArg _ (funext fun h => ih h)

theorem jsonFreeUpTo_singleton (n : Nat) {j : JPtr} (hj : j.addr? = none) (h : JStore R) : jsonFreeUpTo n j h = some h := by
  cases j with
  | block a => cases hj
  | _ => cases n <;> rfl

/-- `pcl_json_free` gives up a reference to the block. -/
theorem jsonFreeUpTo_block (n a : Nat) (h : JStore R) :
    jsonFreeUpTo n (.block a) h = RefHeap.release JBody.kids n a h := by
  induction n generalizing a h with
  | zero => rfl
  | succ n ih =>
    have hptr (j : JPtr) (b : Nat) (h : JStore R) (hj : j.addr? = some b) :
        jsonFreeUpTo n j h = RefHeap.release JBody.kids n b h := by
      cases j with
      | block c => cases hj; exact ih b h
      | _ => cases hj
    rw [jsonFreeUpTo, RefHeap.release]
    cases hb : h.read a with
    | none => rfl
    | some j =>
      simp only [Option.bind_some]
      split
      · rfl
      · congr 1
        generalize j.body = body
        cases body with
        | arr l =>
          exact foldlM_filterMap JPtr.addr? _ _ (fun j b h hj => hptr j b h hj)
            (fun j h hj => jsonFreeUpTo_singleton n hj h) l _
        | obj t =>
          refine foldlM_filterMap (fun p : CStr × Option JPtr => p.2.bind JPtr.addr?) _ _ ?_ ?_ (htableFree t) _
          · rintro ⟨k, _ | j⟩ b h hj
            · cases hj
            · exact hptr j b h hj
          · rintro ⟨k, _ | j⟩ h hj
            · rfl
            · exact jsonFreeUpTo_singleton n hj h
        | _ => rfl

end JStore
end Pcl

import Pcl.Bytes
import Pcl.Lib.OMap

/-!
# JSON values

`tag_pcl_json`. An object is the insertion-ordered map that its hash table denotes, an array the list
of its elements. The type of `double` is a parameter; `Doubles` collects what the C library does with
it. Reference counts are left out.
-/

namespace Pcl

/-- `tag_pcl_json`. -/
inductive Json (R : Type) where
  | null
  | bool (b : Bool)
  | int (i : Int)
  | real (r : R)
  | str (s : CStr)
  | arr (l : List (Json R))
  | obj (m : List (CStr × Json R))

/-- `PCL_JSON_INVINT`. -/
def jsonInvint : Int := -2 ^ 63

/-- What `isnan`, `isinf` and the comparison with `PCL_JSON_INVREAL` say of a number. -/
inductive RealKind where
  | valid
  | invreal
  | nan
  | inf
deriving DecidableEq

/-- Floating point arithmetic of the C library. `ofDecimal neg m e` is `m * 10 ^ e` rounded, and
whether it is out of range; `format` is `printf` with `%1.15g`. -/
structure Doubles (R : Type) where
  ofDecimal : Bool → Nat → Int → R × Bool
  isZero : R → Bool
  kind : R → RealKind
  format : R → List UInt8

def Doubles.isFinite {R : Type} (D : Doubles R) (r : R) : Bool :=
  match D.kind r with
  | .nan | .inf => false
  | .valid | .invreal => true

namespace Json
variable {R : Type}

/-- Induction over a value, its elements and its members. -/
theorem ind {P : Json R → Prop} (null : P .null) (bool : ∀ b, P (.bool b)) (int : ∀ i, P (.int i))
    (real : ∀ r, P (.real r)) (str : ∀ s, P (.str s)) (arr : ∀ l, (∀ v ∈ l, P v) → P (.arr l))
    (obj : ∀ m, (∀ p ∈ m, P p.2) → P (.obj m)) (v : Json R) : P v := by
  refine Json.rec (motive_1 := P) (motive_2 := fun l => ∀ v ∈ l, P v) (motive_3 := fun m => ∀ p ∈ m, P p.2)
    (motive_4 := fun p => P p.2) null bool int real str arr obj ?_ ?_ ?_ ?_ ?_ v
  · intro v hv
    cases hv
  · intro v l hv hl w hw
    rcases List.mem_cons.1 hw with rfl | hw
    · exact hv
    · exact hl w hw
  · intro p hp
    cases hp
  · intro p m hp hm q hq
    rcases List.mem_cons.1 hq with rfl | hq
    · exact hp
    · exact hm q hq
  · intro k v hv
    exact hv

/-- Equality of keys. -/
def keyEq (a b : CStr) : Bool := a == b

theorem keyEq_equiv : OMap.IsEquiv keyEq := OMap.IsEquiv.beq

/-- `pcl_json_objput` of a key and a value on the map of an object: a present key is an error. -/
def objput (m : List (CStr × Json R)) (key : CStr) (value : Json R) : Option (List (CStr × Json R)) :=
  OMap.put keyEq m key value true

theorem objput_new {m m' : List (CStr × Json R)} {k : CStr} {v : Json R}
    (h : OMap.Distinct keyEq (m ++ (k, v) :: m')) : objput m k v = some (m ++ [(k, v)]) := by
  unfold objput OMap.put
  rw [h.find_none]

theorem objput_cases {m : List (CStr × Json R)} (k : CStr) (v : Json R) (h : OMap.Distinct keyEq m) :
    objput m k v = none ∧ (∀ m', ¬ OMap.Distinct keyEq (m ++ (k, v) :: m')) ∨
      objput m k v = some (m ++ [(k, v)]) ∧ OMap.Distinct keyEq (m ++ [(k, v)]) := by
  unfold objput OMap.put
  cases hf : OMap.find keyEq m k with
  | some p => exact .inl ⟨rfl, fun m' hd => by rw [hd.find_none] at hf; cases hf⟩
  | none => exact .inr ⟨rfl, h.append hf⟩

/-- `pcl_json_objget`. -/
def objget (m : List (CStr × Json R)) (key : CStr) : Option (Json R) := (OMap.find keyEq m key).map Prod.snd

end Json
end Pcl

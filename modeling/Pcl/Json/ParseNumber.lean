import Pcl.Json.State
import Pcl.Str.Strtol

/-!
# Number tokens

`ipcl_json_parse_number` looks for the end of the token and for the signs of a real number, and leaves
the conversion to `pcl_strtoll` and `strtod`. The number that stands for an invalid one is refused when its value is made.
-/

namespace Pcl

variable {R : Type}

/-- The digits behind an optional decimal point, and the rest of the text. -/
def scanFrac : List UInt8 → List UInt8 × List UInt8
  | c :: t => if c = ch '.' then (t.takeWhile isdigit, t.dropWhile isdigit) else ([], c :: t)
  | [] => ([], [])

/-- An optional exponent, which has to have a digit, and the rest of the text. -/
def scanExp : List UInt8 → Int × List UInt8
  | c :: t =>
    let (neg, d) := scanSign t
    if (c = ch 'e' ∨ c = ch 'E') ∧ isdigit (d.headD 0) then
      let n : Int := numeral 10 (d.takeWhile isdigit)
      (if neg then -n else n, d.dropWhile isdigit)
    else (0, c :: t)
  | [] => (0, [])

/-- What `strtod` reads from a text that is neither hexadecimal nor a name: sign, digits, the power of
ten they are scaled by, and the rest of the text. -/
def scanDecimal (s : List UInt8) : Option (Bool × Nat × Int × List UInt8) :=
  let (neg, s) := scanSign (s.dropWhile isspace)
  let whole := s.takeWhile isdigit
  let (frac, s) := scanFrac (s.dropWhile isdigit)
  if whole.isEmpty && frac.isEmpty then none
  else
    let (exp, s) := scanExp s
    some (neg, numeral 10 (whole ++ frac), exp - frac.length, s)

/-- What the scan of a number token has seen. -/
structure NumFlags where
  decimal : Bool
  exp : Bool
  expsign : Bool

/-- The scan of `ipcl_json_parse_number`: what was seen, and how far the token's end is from the end. -/
def scanNumber : List UInt8 → Int → NumFlags → Except Fault (NumFlags × Int)
  | [], left, fl => .ok (fl, left)
  | c :: rest, left, fl =>
    let throw (parts : List (List UInt8)) : Except Fault (NumFlags × Int) :=
      .error ⟨eSyntax, 0, some (.ofBytes parts.flatten)⟩
    if left ≤ 0 then .ok (fl, left)
    else if c = ch 'e' ∨ c = ch 'E' then
      if fl.exp then throw [txt "invalid number format: multiple exponents '", [c], txt "'"]
      else scanNumber rest (left - 1) { fl with exp := true }
    else if c = ch '.' then
      if fl.decimal then throw [txt "invalid number format: multiple decimal signs"]
      else scanNumber rest (left - 1) { fl with decimal := true }
    else if c = ch '-' ∨ c = ch '+' then
      if !fl.exp then throw [txt "invalid number format: sign '", [c], txt "' in wrong position"]
      else if fl.expsign then throw [txt "invalid number format: multiple exponent signs"]
      else scanNumber rest (left - 1) { fl with expsign := true }
    else if c < ch '0' ∨ c > ch '9' then .ok (fl, left)
    else scanNumber rest (left - 1) fl

/-- Go on behind a number, at the text `endptr` points to. -/
def JM.goto (rest : List UInt8) : JM Unit := fun s =>
  some (.ok () { s with rest := rest, left := s.left - (s.rest.length - rest.length : Nat) })

/-- `pcl_json_int`. -/
def JM.jsonInt (integer : Int) : JM (Json R) :=
  if integer = jsonInvint then JM.fault ⟨eInval, 0, none⟩ else pure (.int integer)

/-- `pcl_json_real`. -/
def JM.jsonReal (D : Doubles R) (real : R) : JM (Json R) :=
  match D.kind real with
  | .valid => pure (.real real)
  | .invreal => JM.fault ⟨eInval, 0, none⟩
  | .nan => JM.fault ⟨eInval, 0, some (.lit "NaN not supported")⟩
  | .inf => JM.fault ⟨eInval, 0, some (.lit "Infinity not supported")⟩

/-- `ipcl_json_parse_number`. -/
def ipclJsonParseNumber (D : Doubles R) : JM (Json R) := do
  let s ← JM.get
  let sign := if s.rest.headD 0 = ch '-' then 1 else 0
  match scanNumber (s.rest.drop sign) (s.left - sign) ⟨false, false, false⟩ with
  | .error f => JM.fault f
  | .ok (fl, left) =>
    if left = 0 then
      JM.throw [txt "unexpected end of input parsing number"]
    else if s.rest.headD 0 = ch '0' ∧ isdigit ((s.rest.drop 1).headD 0) then
      JM.throw [txt "invalid number value: begins with 0"]
    else if fl.exp || fl.decimal then
      match scanDecimal s.rest with
      | none => JM.throw [txt "invalid number value: no digits found"]
      | some (neg, m, e, rest) =>
        let (num, range) := D.ofDecimal neg m e
        if range && !D.isZero num then
          JM.fault ⟨eRange, 0, some (.lit "invalid number value")⟩
        else
          JM.goto rest
          JM.jsonReal D num
    else
      match strtoll s.rest 10 with
      | .error f => JM.fault f
      | .ok (num, rest) =>
        JM.goto rest
        JM.jsonInt num

end Pcl

import Pcl.ErrState

/-!
# Command-line options

`src/init/getopt.c` and `initopt.c` as they are built on Unix, where `pchar_t` is a signed `char`. `argc` is
the length of `argv`; `num_options` is the length of `options`. A long option's name is cut off at its '=' only
while the table is searched, so `argv` is never changed.
-/

namespace Pcl

/-- `pcl_optpolicy`. -/
inductive OptPolicy where
  | noArg
  | reqArg
  | optArg
deriving DecidableEq

/-- `pcl_option_t`. -/
structure PclOption where
  name : CStr
  policy : OptPolicy
  val : Int
deriving DecidableEq

/-- `tag_pcl_optstate`; `nextOptstr` is what is left of a sequence of short options. -/
structure OptState where
  argidx : Nat
  nextOptstr : Option (List UInt8)
  argv : List CStr
  optstr : Option CStr
  options : Option (List PclOption)

/-- What `pcl_getopt` returns and what it stores for its caller; an error stores no option. -/
structure OptResult where
  ret : Int
  value : Option (List UInt8)
  longopt : Option PclOption
deriving DecidableEq

/-- A `char` as an `int`. -/
def charInt (c : UInt8) : Int := if c < 128 then c.toNat else c.toNat - 256

def dash : UInt8 := ch '-'
def equals : UInt8 := ch '='
def colon : UInt8 := ch ':'

/-- `pcl_pcschr`: the text from the first `c` on, empty when there is none. -/
def pcschr (s : List UInt8) (c : UInt8) : List UInt8 := s.dropWhile (· ≠ c)

/-- `pcl_initopt`. -/
def initopt (argv : List CStr) (optstr : Option CStr) (options : Option (List PclOption)) : ErrM (Option OptState) :=
  if argv = [] ∨ (optstr = none ∧ options = none) then setErrNull (loc "initopt.c" "pcl_initopt" 40) eInval
  else return some ⟨1, none, argv, optstr, options⟩

namespace OptState

/-- `SETERRMSG(PCL_EINVAL, "opt[%d] ... '%Ps'", state->argidx, arg)`. -/
def fail (state : OptState) (line : Int) (what : String) (arg : List UInt8) : ErrM (OptResult × OptState) := do
  let msg := txt "opt[" ++ txt (toString state.argidx) ++ txt "] " ++ txt what ++ txt " '" ++ arg ++ txt "'"
  let r ← errVset (loc "getopt.c" "pcl_getopt" line) eInval 0 (some (.ofBytes msg))
  return (⟨r, none, none⟩, state)

/-- The argument behind the current one. -/
def following (state : OptState) : Option (List UInt8) := (state.argv[state.argidx + 1]?).map CStr.bytes

/-- A long option was found; `used` further arguments were taken for its value. -/
def foundLong (state : OptState) (lopt : PclOption) (value : Option (List UInt8)) (used : Nat) :
    ErrM (OptResult × OptState) :=
  return (⟨lopt.val, value, some lopt⟩, { state with argidx := state.argidx + used + 1 })

/-- The part of `pcl_getopt` for a long option, behind `arg += 2`. -/
def longOption (state : OptState) (options : List PclOption) (arg : List UInt8) : ErrM (OptResult × OptState) :=
  let eq := pcschr arg equals
  match options.find? fun lopt => lopt.name.bytes = arg.takeWhile (· ≠ equals) with
  | none => state.fail 92 "unknown option" arg
  | some lopt =>
    match lopt.policy, eq with
    -- Form "--path=/home"
    | .reqArg, _ :: value =>
      if value = [] then state.fail 100 "missing required argument" arg
      else state.foundLong lopt (some value) 0
    -- Form "--path /home"
    | .reqArg, [] =>
      match state.following with
      | none => state.fail 107 "missing required argument" arg
      | some value => state.foundLong lopt (some value) 1
    -- ignore empty value for optional
    | .optArg, _ :: value => state.foundLong lopt (if value = [] then none else some value) 0
    | .optArg, [] =>
      match state.following with
      | none => state.foundLong lopt none 0
      | some value =>
        if value.head? ≠ some dash then state.foundLong lopt (some value) 1 else state.foundLong lopt none 0
    | .noArg, _ => state.foundLong lopt none 0

/-- The part of `pcl_getopt` for an `arg` that starts with "--". -/
def parseLong (state : OptState) (arg : List UInt8) : ErrM (OptResult × OptState) :=
  match state.options with
  | none => state.fail 66 "missing options[] for long options" arg
  | some options =>
    -- `arg[3]` of "--" is behind the NUL
    if arg.length < 3 then ErrM.undef
    else if arg.length = 3 then state.fail 70 "stray dash found" arg
    else state.longOption options (arg.drop 2)

/-- A short option was found; `used` further arguments were taken for its value and `rest` is left of its own. -/
def foundShort (state : OptState) (opt : UInt8) (value : Option (List UInt8)) (used : Nat) (rest : List UInt8) :
    ErrM (OptResult × OptState) :=
  let state :=
    if rest = [] then { state with argidx := state.argidx + used + 1, nextOptstr := none }
    else { state with argidx := state.argidx + used, nextOptstr := some rest }
  -- map 'opt' character to a long option
  let longopt := state.options.bind fun options => options.find? fun lopt => lopt.val = charInt opt
  return (⟨charInt opt, value, longopt⟩, state)

/-- The policy of a short option, from what is behind it in `optstr`. -/
def shortPolicy : List UInt8 → OptPolicy
  | c :: marks => if c = colon then (if marks.head? = some colon then .optArg else .reqArg) else .noArg
  | [] => .noArg

/-- `ParseShortOption`, with `state->next_optstr` at `text`. -/
def parseShort (state : OptState) (text : List UInt8) : ErrM (OptResult × OptState) :=
  match text, state.optstr with
  | opt :: rest, some optstr =>
    let state := { state with nextOptstr := some rest }
    match pcschr optstr.bytes opt with
    | [] => state.fail 162 "unknown option" [opt]
    | _ :: marks =>
      match shortPolicy marks, pcschr rest equals with
      -- Form: "-O=value"
      | .reqArg, _ :: value =>
        if value = [] then state.fail 179 "missing required argument" [opt]
        else state.foundShort opt (some value) 0 []
      | .reqArg, [] =>
        -- Form: "-O value"
        if rest = [] then
          match state.following with
          | none => state.fail 188 "missing required argument" [opt]
          | some value => state.foundShort opt (some value) 1 []
        -- Form: "-Ovalue"
        else state.foundShort opt (some rest) 0 []
      -- ignore missing optional argument: ie. "-O="
      | .optArg, _ :: value => state.foundShort opt (if value = [] then none else some value) 0 []
      | .optArg, [] =>
        if rest ≠ [] then state.foundShort opt (some rest) 0 []
        else
          match state.following with
          | none => state.foundShort opt none 0 []
          | some value =>
            if value.head? ≠ some dash then state.foundShort opt (some value) 1 [] else state.foundShort opt none 0 []
      | .noArg, _ => state.foundShort opt none 0 rest
  | _, _ => ErrM.undef

end OptState

/-- `pcl_getopt`. -/
def getopt (state : OptState) : ErrM (OptResult × OptState) :=
  match state.nextOptstr with
  -- in the middle of parsing a sequence of short options
  | some text => state.parseShort text
  | none =>
    if state.argidx = state.argv.length then return (⟨0, none, none⟩, state)
    else
      match state.argv[state.argidx]? with
      | none => ErrM.undef
      | some arg =>
        if [dash, dash] <+: arg.bytes then state.parseLong arg.bytes
        else if arg.bytes.head? ≠ some dash then state.fail 140 "stray characters found" arg.bytes
        else if state.optstr = none then state.fail 147 "missing optstr for short options" arg.bytes
        else if arg.bytes.length = 1 then state.fail 151 "stray dash found" arg.bytes
        else state.parseShort (arg.bytes.drop 1)

end Pcl

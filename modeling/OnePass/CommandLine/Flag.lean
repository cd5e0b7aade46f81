import OnePass.Text.Numeral
import OnePass.Text.Quoted

namespace OnePass.CommandLine

inductive Flag where
  | out | stdout | noColor | verbose | trace | jobs | maxSteps | help | version
  deriving DecidableEq, Repr

namespace Flag

def names : Flag → List Text
  | out => ["out", "o"]
  | stdout => ["stdout"]
  | noColor => ["no-color"]
  | verbose => ["verbose"]
  | trace => ["trace"]
  | jobs => ["jobs", "j"]
  | maxSteps => ["max-steps"]
  | help => ["help", "h"]
  | version => ["version", "v"]

/-- Whether the flag stands for itself, without a value. -/
def isSwitch : Flag → Bool
  | out | jobs | maxSteps => false
  | _ => true

/-- The variable of the environment that sets the flag. -/
def envName? : Flag → Option Text
  | noColor => some "TRUPL_NO_COLOR"
  | verbose => some "TRUPL_VERBOSE"
  | _ => none

end Flag

structure Settings where
  out : Text := []
  stdout : Bool := false
  noColor : Bool := false
  verbose : Bool := false
  trace : Bool := false
  jobs : Int := 4
  maxSteps : Int := 0
  help : Bool := false
  version : Bool := false
  deriving DecidableEq, Repr

inductive UsageError where
  | undefined (name : Text)
  | malformed (arg : Text)
  | needsValue (name : Text)
  | badSwitch (value name : Text)
  | badNumber (value name : Text)
  | twoForms (name first : Text)
  deriving DecidableEq, Repr

def UsageError.message : UsageError → Text
  | undefined name => "flag provided but not defined: -" ++ name
  | malformed arg => "bad flag syntax: " ++ arg
  | needsValue name => "flag needs an argument: -" ++ name
  | badSwitch value name => "invalid boolean value " ++ value.quoted ++ " for -" ++ name ++ ": parse error"
  | badNumber value name => "invalid value " ++ value.quoted ++ " for flag -" ++ name ++ ": parse error"
  | twoForms name first => "Cannot use two forms of the same flag: " ++ name ++ " " ++ first

/-- The spellings of true and false. -/
def readSwitch (t : Text) : Option Bool :=
  if (["1", "t", "T", "true", "TRUE", "True"] : List Text).contains t then some true
  else if (["0", "f", "F", "false", "FALSE", "False"] : List Text).contains t then some false
  else none

namespace Number

/-- The value of a digit up to 35, in either case. -/
def digit? (g : Glyph) : Option Nat :=
  match g with
  | .char c =>
    if c.isDigit then some (c.toNat - 48)
    else if 'a' ≤ c ∧ c ≤ 'z' then some (c.toNat - 87)
    else if 'A' ≤ c ∧ c ≤ 'Z' then some (c.toNat - 55)
    else none
  | .stray _ => none

/-- Digits of a base; `mark` tells whether an underscore may come next. -/
def digits (base : Nat) (mark : Bool) (n : Nat) : Text → Option Nat
  | [] => some n
  | g :: t =>
    if g = .char '_' ∧ mark ∧ !t.isEmpty then digits base false n t
    else match digit? g with
      | some d => if d < base then digits base true (base * n + d) t else none
      | none => none

/-- A magnitude with the prefix of its base: 0x, 0b, 0o or a bare 0 for octal. -/
def magnitude? : Text → Option Nat
  | [] => none
  | .char '0' :: .char 'x' :: g :: t | .char '0' :: .char 'X' :: g :: t => digits 16 true 0 (g :: t)
  | .char '0' :: .char 'b' :: g :: t | .char '0' :: .char 'B' :: g :: t => digits 2 true 0 (g :: t)
  | .char '0' :: .char 'o' :: g :: t | .char '0' :: .char 'O' :: g :: t => digits 8 true 0 (g :: t)
  | .char '0' :: t => digits 8 true 0 t
  | t => digits 10 false 0 t

/-- A signed number of 64 bits. -/
def read? : Text → Option Int
  | .char '-' :: t => (magnitude? t).bind fun n => if n ≤ wordLimit then some (-(n : Int)) else none
  | .char '+' :: t => (magnitude? t).bind fun n => if n < wordLimit then some (n : Int) else none
  | t => (magnitude? t).bind fun n => if n < wordLimit then some (n : Int) else none

end Number

namespace Settings

def setSwitch (s : Settings) (f : Flag) (b : Bool) : Settings :=
  match f with
  | .stdout => { s with stdout := b }
  | .noColor => { s with noColor := b }
  | .verbose => { s with verbose := b }
  | .trace => { s with trace := b }
  | .help => { s with help := b }
  | .version => { s with version := b }
  | .out | .jobs | .maxSteps => s

def setValue (s : Settings) (f : Flag) (value : Text) : Option Settings :=
  match f with
  | .out => some { s with out := value }
  | .jobs => (Number.read? value).map fun n => { s with jobs := n }
  | .maxSteps => (Number.read? value).map fun n => { s with maxSteps := n }
  | _ => some s

/-- Settings from the environment; an empty variable is false. -/
def ofEnvironment (flags : List Flag) (env : Text → Option Text) (s : Settings) :
    Except UsageError Settings :=
  flags.foldlM (fun s f =>
    match f.envName?.bind env with
    | none => .ok s
    | some v =>
      if v.isEmpty then .ok (s.setSwitch f false)
      else match readSwitch v with
        | some b => .ok (s.setSwitch f b)
        | none => .error (.badSwitch v (f.names.headD []))) s

end Settings

/-- An argument without its leading dashes and its value. -/
def bareName (arg : Text) : Text :=
  let name := match arg with
    | .char '-' :: .char '-' :: .char '-' :: t => t
    | .char '-' :: .char '-' :: t => t
    | .char '-' :: t => t
    | t => t
  name.takeWhile (· != .char '=')

def dash : Text := "-"

def dashes : Text := "--"

/-- Whether an argument is one of the flags. -/
def isFlag (flags : List Flag) (arg : Text) : Bool :=
  arg != dash && arg != dashes && arg.head? == some (.char '-') &&
    flags.any fun f => f.names.contains (bareName arg)

/-- Arguments sorted into those that belong to flags and the rest. -/
structure Sorted where
  flags : List Text := []
  operands : List Text := []
  /-- Whether two dashes stand before the last operands. -/
  ended : Bool := false

/-- Sorts arguments. What follows a flag without a value of its own goes with it; two dashes end the
flags. -/
def Sorted.ofArgs (flags : List Flag) (mayBeValue : Bool) : List Text → Sorted
  | [] => {}
  | a :: as =>
    if mayBeValue && !isFlag flags a then
      let r := ofArgs flags false as
      { r with flags := a :: r.flags }
    else if a = dashes then { operands := as, ended := true }
    else if isFlag flags a then
      let r := ofArgs flags (!a.contains (.char '=')) as
      { r with flags := a :: r.flags }
    else
      let r := ofArgs flags false as
      { r with operands := a :: r.operands }

/-- Moves flags to the front; two dashes move in front of all operands. -/
def reorder (flags : List Flag) (args : List Text) : List Text :=
  let r := Sorted.ofArgs flags false args
  r.flags ++ (if r.ended then [dashes] else []) ++ r.operands

/-- What an argument is to the reader of flags. -/
inductive Argument where
  | operand
  | endOfFlags
  | malformed
  | flag (name : Text) (value : Option Text)

def Argument.ofText (arg : Text) : Argument :=
  let named (t : Text) : Argument :=
    match t with
    | [] | .char '-' :: _ | .char '=' :: _ => malformed
    | t => flag (t.takeWhile (· != .char '=')) (match t.dropWhile (· != .char '=') with
        | [] => none
        | _ :: v => some v)
  match arg with
  | [.char '-', .char '-'] => endOfFlags
  | .char '-' :: .char '-' :: t => named t
  | [.char '-'] => operand
  | .char '-' :: t => named t
  | _ => operand

/-- What reading flags gives, up to the first failure. -/
structure Reading where
  settings : Settings
  /-- The names that flags were given by. -/
  names : List Text := []
  rest : List Text := []
  failure : Option UsageError := none

/-- Sets a flag that was given by a name; a switch without a value is set to true. -/
def Settings.setFlag (s : Settings) (f : Flag) (name : Text) (value : Option Text) :
    Except UsageError Settings :=
  if f.isSwitch then
    match value with
    | none => .ok (s.setSwitch f true)
    | some v => match readSwitch v with
      | some b => .ok (s.setSwitch f b)
      | none => .error (.badSwitch v name)
  else match value with
    | none => .error (.needsValue name)
    | some v => match s.setValue f v with
      | some s => .ok s
      | none => .error (.badNumber v name)

/-- Goes on with the new settings, or stops at a failure. -/
def Reading.proceed (r : Reading) (s : Except UsageError Settings) (next : Settings → Reading) :
    Reading :=
  match s with
  | .ok s => next s
  | .error e => { r with failure := some e }

/-- Reads flags up to the first argument that is none. A flag that needs a value takes the next
argument if it has none of its own. -/
def readFlags (flags : List Flag) (s : Settings) (names : List Text) : List Text → Reading
  | [] => { settings := s, names }
  | a :: as =>
    let sofar : Reading := { settings := s, names }
    match Argument.ofText a with
    | .operand => { sofar with rest := a :: as }
    | .endOfFlags => { sofar with rest := as }
    | .malformed => { sofar with failure := some (.malformed a) }
    | .flag name value =>
      match flags.find? fun f => f.names.contains name with
      | none => { sofar with failure := some (.undefined name) }
      | some f =>
        match value, as with
        | none, v :: as =>
          if f.isSwitch then
            sofar.proceed (s.setFlag f name none) fun s => readFlags flags s (names ++ [name]) (v :: as)
          else
            sofar.proceed (s.setFlag f name (some v)) fun s => readFlags flags s (names ++ [name]) as
        | value, as =>
          sofar.proceed (s.setFlag f name value) fun s => readFlags flags s (names ++ [name]) as

/-- The first flag that was given by two of its names. -/
def twoForms? (flags : List Flag) (names : List Text) : Option UsageError :=
  flags.findSome? fun f =>
    match f.names.filter names.contains with
    | first :: name :: _ => some (.twoForms name first)
    | _ => none

end OnePass.CommandLine

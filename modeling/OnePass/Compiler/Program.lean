import OnePass.Compiler.Declaration

namespace OnePass.Compiler

open Assembly

namespace Pass

/-- A word for every variable of the program, then one for every spilled value. -/
def dataLines : Pass Unit := do
  let s ← get
  for name in s.symbols.storage s.program do
    put (.data name 1)
  for name in s.current.listing.spills do
    put (.data name 1)

/-- At most `n` tokens are left, the lookahead included. -/
def program (n : Nat) : Pass Unit := do
  enter .program
  if !(← at? .keyword .programKw) then unexpected (.production .program)
  advance
  let t ← expectIdentifier
  declare t externalScope .programName noPosition
  modify fun s => { s with program := t.lexeme, scope := t.lexeme }
  expect .punct .semicolon
  put (.label ("_" ++ t.lexeme))
  variableDeclList n
  procedureDeclList n
  block n
  expect .punct .semicolon
  put .halt
  dataLines

/-- Reads a first token and compiles one program. A line that the output refused is an error only if
nothing else went wrong. -/
def parse : Pass Unit := do
  advance
  program ((← get).feed.items.length + 1)
  if (← get).current.listing.refused then throw .outputFull

end Pass

namespace State

def init (feed : Feed) (output : Listing := {}) : State := { feed, main := { listing := output } }

/-- Runs one compilation from a state. -/
def parse (o : Options) (s : State) : Option CompileError × State :=
  match Pass.parse.run o s with
  | (.ok _, s) => (none, s)
  | (.error e, s) => (some e, s)

/-- Whether all input has been read. -/
def done (s : State) : Bool := s.lookahead.kind == .eof

end State

end OnePass.Compiler

namespace OnePass

open Compiler

inductive Outcome where
  | success | extraTokens | parseFailed | fatal
  deriving DecidableEq, Repr

namespace Outcome

def ofCode : Int → Outcome
  | 0 => success
  | 1 => extraTokens
  | 2 => parseFailed
  | _ => fatal

def name : Outcome → Text
  | success => "success"
  | extraTokens => "extra tokens"
  | parseFailed => "parse failed"
  | fatal => "fatal"

/-- The line shown to the user. -/
def message : Outcome → Text
  | success => "Parsing succeeded!"
  | extraTokens => "Extra tokens found at the end of program!"
  | parseFailed => "Parsing failed"
  | fatal => "Translation aborted"

def ofError : Option CompileError → Outcome
  | none => success
  | some (.extraTokens _) => extraTokens
  | some (.unexpected _ _) => parseFailed
  | some _ => fatal

end Outcome

/-- What compiling a source gives; the code is complete only on success. -/
structure Compilation where
  error : Option CompileError
  code : List Assembly.Line
  symbols : SymbolTable
  events : Array Event

namespace Compilation

def outcome (c : Compilation) : Outcome := Outcome.ofError c.error

def assembly (c : Compilation) : Text := Assembly.render c.code

end Compilation

/-- Compiles a source from a fresh state. Input after a whole program is an error of its own. -/
def compile (o : Options) (source : Text) (output : Assembly.Listing := {}) : Compilation :=
  let (error, s) := (State.init (Feed.ofSource source) output).parse o
  { error := match error with
      | none => if s.done then none else some (.extraTokens s.lookahead)
      | some e => some e
    code := s.main.listing.written.toList
    symbols := s.symbols
    events := s.events }

/-- Checks a source: its code is thrown away. -/
def check (o : Options) (source : Text) : Compilation := compile o source { keeps := false }

end OnePass

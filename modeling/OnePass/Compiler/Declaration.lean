import OnePass.Compiler.Statement

namespace OnePass.Compiler.Pass

/-- Identifiers between commas, installed one by one with their running number. -/
def identifiers (install : Nat → Token → Pass Unit) : Nat → Nat → Pass Nat
  | 0, _ => unexpected .identifier
  | n + 1, i => do
    let t ← expectIdentifier
    install i t
    if ← at? .punct .comma then
      advance
      identifiers install n (i + 1)
    else return i + 1

/-- The number of the identifier after the list. -/
def identifierList (install : Nat → Token → Pass Unit) (n i : Nat) : Pass Nat := do
  enter .identifierList
  let i ← identifiers install n i
  if !(← at? .punct .colon) then unexpected (.production .identifierListRest)
  return i

/-- Reads a type and gives it to every symbol that waits for one. -/
def standardType : Pass Unit := do
  enter .standardType
  let t ← lookahead
  let type ←
    if t.is .keyword .intKw then pure ExprType.int
    else if t.is .keyword .boolKw then pure ExprType.bool
    else unexpected (.production .standardType)
  advance
  modify fun s =>
    { s with symbols := s.symbols.patch type }.report (.patch type s.symbols.unknowns)

/-- Installs an identifier whose type is still to be read. -/
def awaitType (position : Int) (t : Token) : Pass Unit := do
  declare t (← get).scope .unknown position

def variableDecl (n : Nat) : Pass Unit := do
  enter .variableDecl
  discard <| identifierList (fun _ t => awaitType noPosition t) n 0
  expect .punct .colon
  standardType

def variableDecls : Nat → Pass Unit
  | 0 => return
  | n + 1 => do
    if (← lookahead).kind = .identifier then
      variableDecl (n + 1)
      expect .punct .semicolon
      variableDecls n

def variableDeclList (n : Nat) : Pass Unit := do
  enter .variableDeclList
  variableDecls n
  if !(← at? .keyword .procedureKw) && !(← at? .keyword .beginKw) then
    unexpected (.production .variableDeclList)

/-- Groups of formal parameters; positions run on from group to group. -/
def formals : Nat → Nat → Pass Unit
  | 0, _ => do
    enter .identifierList
    unexpected .identifier
  | n + 1, i => do
    let i ← identifierList (fun i t => awaitType i t) (n + 1) i
    expect .punct .colon
    standardType
    if ← at? .punct .semicolon then
      advance
      formals n i
    else if !(← at? .punct .rightParen) then unexpected (.production .formalListRest)

def procedureArgs (n : Nat) : Pass Unit := do
  enter .procedureArgs
  let t ← lookahead
  if t.kind = .identifier then
    enter .formalList
    formals n 0
  else if !t.is .punct .rightParen then unexpected (.production .procedureArgs)

/-- The name goes into the enclosing scope; formals, locals and body have a scope named after the
procedure. Bodies are checked and leave no code. -/
def procedureDecl (n : Nat) : Pass Unit := do
  enter .procedureDecl
  advance
  let t ← expectIdentifier
  declare t (← get).scope .procedureName noPosition
  inScope t.lexeme do
    expect .punct .leftParen
    procedureArgs n
    expect .punct .rightParen
    variableDeclList n
    suppress (block n)

def procedureDecls : Nat → Pass Unit
  | 0 => return
  | n + 1 => do
    if ← at? .keyword .procedureKw then
      procedureDecl (n + 1)
      expect .punct .semicolon
      procedureDecls n

def procedureDeclList (n : Nat) : Pass Unit := do
  enter .procedureDeclList
  procedureDecls n
  if !(← at? .keyword .beginKw) then unexpected (.production .procedureDeclList)

end OnePass.Compiler.Pass

import OnePass.Compiler.Program

/-!
Recursive descent without regard to what is left. Here productions call each other and repeat themselves as the grammar
says. A depth bounds how far the calls nest and how often a loop goes round. A run that needs more has no result; nor
has one in which a production is entered again, or a loop goes round, before another item has been taken. A run that
goes on for ever has no result at any depth.
-/

namespace OnePass.Compiler

open Assembly

/-- A compilation step that may have no result. -/
abbrev Descent := ReaderT Options (ExceptT CompileError (StateT State Option))

namespace Descent

def run {α : Type} (d : Descent α) (o : Options) (s : State) :
    Option (Except CompileError α × State) := d o s

/-- A step without calls and loops. -/
instance : MonadLift Pass Descent := ⟨fun p o s => some (p.run o s)⟩

/-- The depth is used up. -/
def exhausted {α : Type} : Descent α := fun _ _ => none

/-- How many items have been taken. -/
def taken : Descent Nat := return (← get).delivered

/-- Goes on only if more than `n` items have been taken. -/
def progress (n : Nat) : Descent Unit := fun _ s =>
  if n < s.delivered then some (.ok (), s) else none

def within {α : Type} (start : State → State) (finish : State → State → State) (d : Descent α) :
    Descent α := fun o s => (d.run o (start s)).map fun r => (r.1, finish s r.2)

def suppress {α : Type} (d : Descent α) : Descent α :=
  within (fun s => { s with scratch := {} :: s.scratch })
    (fun _ s => { s with scratch := s.scratch.tail }) d

def inScope {α : Type} (scope : Text) (d : Descent α) : Descent α :=
  within (fun s => { s with scope }) (fun outer s => { s with scope := outer.scope }) d

open Pass (lookahead at? atStmt atExpr advance expect expectIdentifier enter unexpected put)

mutual

def factor : Nat → Descent Value
  | 0 => exhausted
  | k + 1 => do
    enter .factor
    let n ← taken
    let t ← lookahead
    if t.kind = .identifier then Pass.identifierFactor t
    else if t.kind = .number then Pass.numberFactor t
    else if t.is .punct .leftParen then
      advance
      progress n
      let v ← expr k
      expect .punct .rightParen
      return { v with start := t }
    else if t.is .addop .plus || t.is .addop .minus || t.is .keyword .notKw then
      advance
      progress n
      let v ← factor k
      Pass.signed t.attr v
      return { v with start := t }
    else unexpected (.production .factor)

def factors : Nat → Value → Descent Value
  | 0, _ => exhausted
  | k + 1, left => do
    let n ← taken
    let t ← lookahead
    if t.kind = .mulop then
      advance
      let right ← factor k
      Pass.multiply t.attr left right
      progress n
      factors k left
    else return left

def term : Nat → Descent Value
  | 0 => exhausted
  | k + 1 => do
    enter .term
    let left ← factor k
    factors k left

def terms : Nat → Value → Descent Value
  | 0, _ => exhausted
  | k + 1, left => do
    let n ← taken
    let t ← lookahead
    if t.kind = .addop then
      advance
      let right ← term k
      Pass.addUp t.attr left right
      progress n
      terms k left
    else return left

def simpleExpr : Nat → Descent Value
  | 0 => exhausted
  | k + 1 => do
    enter .simpleExpr
    let left ← term k
    terms k left

def expr : Nat → Descent Value
  | 0 => exhausted
  | k + 1 => do
    enter .expr
    let left ← simpleExpr k
    let t ← lookahead
    if t.kind = .relop then
      advance
      let right ← simpleExpr k
      Pass.check .int [left, right]
      Pass.generate (Gen.compare t.attr left.id right.id)
      return { left with type := .bool }
    else return left

end

def assign (k : Nat) (t : Token) : Descent Unit := do
  let s ← get
  if !s.symbols.declared t.lexeme s.scope then Pass.fail (.notDeclared t.lexeme) t
  advance
  let v ← expr k
  let s ← get
  let type := s.symbols.typeOf t.lexeme s.scope
  if v.type ≠ type then Pass.fail (.mismatch type v.type) v.start
  Pass.consume v fun r => put (.move (.memory t.lexeme) (.register r))

def actuals (callee : Text) : Nat → Int → Descent Unit
  | 0, _ => exhausted
  | k + 1, position => do
    let n ← taken
    let v ← expr k
    let type := (← get).symbols.typeAt callee position
    if v.type ≠ type then Pass.fail (.mismatch type v.type) v.start
    Pass.generate (Gen.release v.id)
    if ← at? .punct .comma then
      advance
      progress n
      actuals callee k (position + 1)

def exprList (k : Nat) (callee : Text) : Descent Unit := do
  enter .exprList
  if !(← at? .punct .rightParen) then
    if !(← atExpr) then unexpected (.production .exprList)
    actuals callee k 0
    if !(← at? .punct .rightParen) then unexpected (.production .actualListRest)

def call (k : Nat) (t : Token) : Descent Unit := do
  let s ← get
  if !s.symbols.declared t.lexeme s.scope then Pass.fail (.notDeclared t.lexeme) t
  let type := s.symbols.typeOf t.lexeme s.program
  if type ≠ .procedureName then Pass.fail (.mismatch .procedureName type) t
  advance
  suppress (exprList k t.lexeme)
  expect .punct .rightParen

def assignOrCall (k : Nat) (t : Token) : Descent Unit := do
  enter .assignOrCall
  if ← at? .punct .assign then assign k t
  else if ← at? .punct .leftParen then call k t
  else unexpected (.production .assignOrCall)

def condition (k : Nat) : Descent Value := do
  let v ← expr k
  Pass.check .bool [v]
  return v

def printStmt (k : Nat) : Descent Unit := do
  enter .printStmt
  advance
  let v ← expr k
  if !v.type.isScalar then Pass.fail (.unprintable v.type) v.start
  Pass.consume v fun r => put (.unary .outb r)

mutual

def stmt : Nat → Descent Unit
  | 0 => exhausted
  | k + 1 => do
    enter .stmt
    let n ← taken
    let t ← lookahead
    if t.is .keyword .ifKw then ifStmt k n
    else if t.is .keyword .whileKw then whileStmt k n
    else if t.is .keyword .printKw then printStmt k
    else if t.kind = .identifier then
      advance
      assignOrCall k t
    else unexpected (.production .stmt)

/-- The statement was entered when `n` items had been taken. -/
def ifStmt : Nat → Nat → Descent Unit
  | 0, _ => exhausted
  | k + 1, n => do
    enter .ifStmt
    advance
    let v ← condition k
    expect .keyword .thenKw
    let r ← Pass.generate (Gen.materialize v.id)
    let other ← Pass.generate (Gen.newLabel "else")
    let done ← Pass.generate (Gen.newLabel "if_done")
    put (.branch .brez r other)
    Pass.generate (Gen.release v.id)
    progress n
    block k
    put (.jump done)
    put (.label other)
    if ← at? .keyword .elseKw then
      advance
      progress n
      block k
    else if !(← at? .punct .semicolon) then unexpected (.production .ifStmtRest)
    put (.label done)

def whileStmt : Nat → Nat → Descent Unit
  | 0, _ => exhausted
  | k + 1, n => do
    enter .whileStmt
    advance
    let again ← Pass.generate (Gen.newLabel "while_cond")
    let done ← Pass.generate (Gen.newLabel "while_done")
    put (.label again)
    let v ← condition k
    expect .keyword .loopKw
    Pass.consume v fun r => put (.branch .brez r done)
    progress n
    block k
    put (.jump again)
    put (.label done)

def stmts : Nat → Descent Unit
  | 0 => exhausted
  | k + 1 => do
    let n ← taken
    if ← atStmt then
      stmt k
      expect .punct .semicolon
      progress n
      stmts k

def stmtList : Nat → Descent Unit
  | 0 => exhausted
  | k + 1 => do
    enter .stmtList
    if ← atStmt then
      stmt k
      expect .punct .semicolon
    else if ← at? .punct .semicolon then advance
    else unexpected (.production .stmtList)
    stmts k
    if !(← at? .keyword .endKw) then unexpected (.production .stmtListRest)

def block : Nat → Descent Unit
  | 0 => exhausted
  | k + 1 => do
    enter .block
    expect .keyword .beginKw
    stmtList k
    expect .keyword .endKw

end

def identifiers (install : Nat → Token → Pass Unit) : Nat → Nat → Descent Nat
  | 0, _ => exhausted
  | k + 1, i => do
    let n ← taken
    let t ← expectIdentifier
    install i t
    if ← at? .punct .comma then
      advance
      progress n
      identifiers install k (i + 1)
    else return i + 1

def identifierList (install : Nat → Token → Pass Unit) (k i : Nat) : Descent Nat := do
  enter .identifierList
  let i ← identifiers install k i
  if !(← at? .punct .colon) then unexpected (.production .identifierListRest)
  return i

def variableDecl (k : Nat) : Descent Unit := do
  enter .variableDecl
  discard <| identifierList (fun _ t => Pass.awaitType noPosition t) k 0
  expect .punct .colon
  Pass.standardType

def variableDecls : Nat → Descent Unit
  | 0 => exhausted
  | k + 1 => do
    let n ← taken
    if (← lookahead).kind = .identifier then
      variableDecl k
      expect .punct .semicolon
      progress n
      variableDecls k

def variableDeclList (k : Nat) : Descent Unit := do
  enter .variableDeclList
  variableDecls k
  if !(← at? .keyword .procedureKw) && !(← at? .keyword .beginKw) then
    unexpected (.production .variableDeclList)

def formals : Nat → Nat → Descent Unit
  | 0, _ => exhausted
  | k + 1, i => do
    let n ← taken
    let i ← identifierList (fun i t => Pass.awaitType i t) k i
    expect .punct .colon
    Pass.standardType
    if ← at? .punct .semicolon then
      advance
      progress n
      formals k i
    else if !(← at? .punct .rightParen) then unexpected (.production .formalListRest)

def procedureArgs (k : Nat) : Descent Unit := do
  enter .procedureArgs
  let t ← lookahead
  if t.kind = .identifier then
    enter .formalList
    formals k 0
  else if !t.is .punct .rightParen then unexpected (.production .procedureArgs)

def procedureDecl (k : Nat) : Descent Unit := do
  enter .procedureDecl
  advance
  let t ← expectIdentifier
  Pass.declare t (← get).scope .procedureName noPosition
  inScope t.lexeme do
    expect .punct .leftParen
    procedureArgs k
    expect .punct .rightParen
    variableDeclList k
    suppress (block k)

def procedureDecls : Nat → Descent Unit
  | 0 => exhausted
  | k + 1 => do
    let n ← taken
    if ← at? .keyword .procedureKw then
      procedureDecl k
      expect .punct .semicolon
      progress n
      procedureDecls k

def procedureDeclList (k : Nat) : Descent Unit := do
  enter .procedureDeclList
  procedureDecls k
  if !(← at? .keyword .beginKw) then unexpected (.production .procedureDeclList)

def program (k : Nat) : Descent Unit := do
  enter .program
  if !(← at? .keyword .programKw) then unexpected (.production .program)
  advance
  let t ← expectIdentifier
  Pass.declare t externalScope .programName noPosition
  modify fun s => { s with program := t.lexeme, scope := t.lexeme }
  expect .punct .semicolon
  put (.label ("_" ++ t.lexeme))
  variableDeclList k
  procedureDeclList k
  block k
  expect .punct .semicolon
  put .halt
  Pass.dataLines

/-- A call up to its last step, which asks the output. -/
def translate (k : Nat) : Descent Unit := do
  advance
  program k

def parse (k : Nat) : Descent Unit := do
  translate k
  if (← get).current.listing.refused then throw .outputFull

end Descent

end OnePass.Compiler

import OnePass.Compiler.Expression

namespace OnePass.Compiler.Pass

open Assembly

def atStmt : Pass Bool := do
  let t ← lookahead
  return t.kind == .identifier || t.is .keyword .ifKw || t.is .keyword .whileKw ||
    t.is .keyword .printKw

/-- Statements, each closed by a semicolon. -/
def stmtsWith (stmt : Pass Unit) : Nat → Pass Unit
  | 0 => return
  | n + 1 => do
    if ← atStmt then
      stmt
      expect .punct .semicolon
      stmtsWith stmt n

/-- A list starts with a statement or with a lone semicolon. -/
def stmtListWith (stmt : Pass Unit) (n : Nat) : Pass Unit := do
  enter .stmtList
  if ← atStmt then
    stmt
    expect .punct .semicolon
  else if ← at? .punct .semicolon then advance
  else unexpected (.production .stmtList)
  stmtsWith stmt n
  if !(← at? .keyword .endKw) then unexpected (.production .stmtListRest)

def blockWith (stmt : Pass Unit) (n : Nat) : Pass Unit := do
  enter .block
  expect .keyword .beginKw
  stmtListWith stmt n
  expect .keyword .endKw

/-- Uses up a value: brings it into a register, lets `f` emit code for it and releases it. -/
def consume (v : Value) (f : Int → Pass Unit) : Pass Unit := do
  let r ← generate (Gen.materialize v.id)
  f r
  generate (Gen.release v.id)

def assign (n : Nat) (t : Token) : Pass Unit := do
  let s ← get
  if !s.symbols.declared t.lexeme s.scope then fail (.notDeclared t.lexeme) t
  advance
  let v ← expr n
  let s ← get
  let type := s.symbols.typeOf t.lexeme s.scope
  if v.type ≠ type then fail (.mismatch type v.type) v.start
  consume v fun r => put (.move (.memory t.lexeme) (.register r))

/-- Actual parameters, each checked against the formal one at its position. -/
def actuals (n : Nat) (callee : Text) : Nat → Int → Pass Unit
  | 0, _ => discard (expr n)
  | m + 1, position => do
    let v ← expr n
    let type := (← get).symbols.typeAt callee position
    if v.type ≠ type then fail (.mismatch type v.type) v.start
    generate (Gen.release v.id)
    if ← at? .punct .comma then
      advance
      actuals n callee m (position + 1)

def exprList (n : Nat) (callee : Text) : Pass Unit := do
  enter .exprList
  if !(← at? .punct .rightParen) then
    if !(← atExpr) then unexpected (.production .exprList)
    actuals n callee n 0
    if !(← at? .punct .rightParen) then unexpected (.production .actualListRest)

/-- A call is checked and leaves no code. -/
def call (n : Nat) (t : Token) : Pass Unit := do
  let s ← get
  if !s.symbols.declared t.lexeme s.scope then fail (.notDeclared t.lexeme) t
  let type := s.symbols.typeOf t.lexeme s.program
  if type ≠ .procedureName then fail (.mismatch .procedureName type) t
  advance
  suppress (exprList n t.lexeme)
  expect .punct .rightParen

def assignOrCall (n : Nat) (t : Token) : Pass Unit := do
  enter .assignOrCall
  if ← at? .punct .assign then assign n t
  else if ← at? .punct .leftParen then call n t
  else unexpected (.production .assignOrCall)

def condition (n : Nat) : Pass Value := do
  let v ← expr n
  check .bool [v]
  return v

def ifStmtWith (block : Pass Unit) (n : Nat) : Pass Unit := do
  enter .ifStmt
  advance
  let v ← condition n
  expect .keyword .thenKw
  let r ← generate (Gen.materialize v.id)
  let other ← generate (Gen.newLabel "else")
  let done ← generate (Gen.newLabel "if_done")
  put (.branch .brez r other)
  generate (Gen.release v.id)
  block
  put (.jump done)
  put (.label other)
  if ← at? .keyword .elseKw then
    advance
    block
  else if !(← at? .punct .semicolon) then unexpected (.production .ifStmtRest)
  put (.label done)

def whileStmtWith (block : Pass Unit) (n : Nat) : Pass Unit := do
  enter .whileStmt
  advance
  let again ← generate (Gen.newLabel "while_cond")
  let done ← generate (Gen.newLabel "while_done")
  put (.label again)
  let v ← condition n
  expect .keyword .loopKw
  consume v fun r => put (.branch .brez r done)
  block
  put (.jump again)
  put (.label done)

def printStmt (n : Nat) : Pass Unit := do
  enter .printStmt
  advance
  let v ← expr n
  if !v.type.isScalar then fail (.unprintable v.type) v.start
  consume v fun r => put (.unary .outb r)

/-- At most `n` tokens are left, the lookahead included. -/
def stmt : Nat → Pass Unit
  | 0 => do
    enter .stmt
    unexpected (.production .stmt)
  | n + 1 => do
    enter .stmt
    let t ← lookahead
    if t.is .keyword .ifKw then ifStmtWith (blockWith (stmt n) n) (n + 1)
    else if t.is .keyword .whileKw then whileStmtWith (blockWith (stmt n) n) (n + 1)
    else if t.is .keyword .printKw then printStmt (n + 1)
    else if t.kind = .identifier then
      advance
      assignOrCall (n + 1) t
    else unexpected (.production .stmt)

def block (n : Nat) : Pass Unit := blockWith (stmt n) n

end OnePass.Compiler.Pass

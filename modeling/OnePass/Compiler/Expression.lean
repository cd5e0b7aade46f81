import OnePass.Compiler.State

namespace OnePass.Compiler.Pass

/-- Whether an expression can begin here. -/
def atExpr : Pass Bool := do
  let t ← lookahead
  return t.kind == .identifier || t.kind == .number || t.is .punct .leftParen ||
    t.is .addop .plus || t.is .addop .minus || t.is .keyword .notKw

/-- A signed factor; the sign tells the type of the operand. -/
def signed (sign : Attr) (v : Value) : Pass Unit := do
  match sign with
  | .plus => check .int [v]
  | .minus =>
    check .int [v]
    let r ← generate (Gen.materialize v.id)
    put (.unary .neg r)
  | .notKw =>
    check .bool [v]
    let r ← generate (Gen.materialize v.id)
    put (.unary .not r)
  | _ => return

def multiply (op : Attr) (left right : Value) : Pass Unit := do
  match op with
  | .times =>
    check .int [left, right]
    discard <| generate (Gen.combine .mul left.id right.id)
  | .slash =>
    check .int [left, right]
    discard <| generate (Gen.combine .div left.id right.id)
  | .and =>
    check .bool [left, right]
    discard <| generate (Gen.combine .mul left.id right.id)
  | _ => return

def addUp (op : Attr) (left right : Value) : Pass Unit := do
  match op with
  | .plus =>
    check .int [left, right]
    discard <| generate (Gen.combine .add left.id right.id)
  | .minus =>
    check .int [left, right]
    discard <| generate (Gen.combine .sub left.id right.id)
  | .or =>
    check .bool [left, right]
    generate (Gen.disjoin left.id right.id)
  | _ => return

/-- Operators of one kind and the operands between them, taken from the left. -/
def chain (kind : Kind) (operand : Pass Value) (apply : Attr → Value → Value → Pass Unit) :
    Nat → Value → Pass Value
  | 0, left => return left
  | n + 1, left => do
    let t ← lookahead
    if t.kind = kind then
      advance
      let right ← operand
      apply t.attr left right
      chain kind operand apply n left
    else return left

def termWith (factor : Pass Value) (n : Nat) : Pass Value := do
  enter .term
  let left ← factor
  chain .mulop factor multiply n left

def simpleExprWith (factor : Pass Value) (n : Nat) : Pass Value := do
  enter .simpleExpr
  let left ← termWith factor n
  chain .addop (termWith factor n) addUp n left

def exprWith (factor : Pass Value) (n : Nat) : Pass Value := do
  enter .expr
  let left ← simpleExprWith factor n
  let t ← lookahead
  if t.kind = .relop then
    advance
    let right ← simpleExprWith factor n
    check .int [left, right]
    generate (Gen.compare t.attr left.id right.id)
    return { left with type := .bool }
  else return left

def identifierFactor (t : Token) : Pass Value := do
  let s ← get
  if s.symbols.declared t.lexeme s.scope then
    advance
    let id ← generate (Gen.newValue (.memory t.lexeme))
    let s ← get
    return ⟨id, s.symbols.typeOf t.lexeme s.scope, t⟩
  else fail (.notDeclared t.lexeme) t

def numberFactor (t : Token) : Pass Value := do
  match Numeral.readWord t.lexeme with
  | .ok w =>
    advance
    let id ← generate (Gen.newValue (.immediate w))
    return ⟨id, .int, t⟩
  | .error e => throw (.internal (.numeral t.lexeme e))

/-- At most `n` tokens are left, the lookahead included; each call within takes one first. -/
def factor : Nat → Pass Value
  | 0 => do
    enter .factor
    unexpected (.production .factor)
  | n + 1 => do
    enter .factor
    let t ← lookahead
    if t.kind = .identifier then identifierFactor t
    else if t.kind = .number then numberFactor t
    else if t.is .punct .leftParen then
      advance
      let v ← exprWith (factor n) n
      expect .punct .rightParen
      return { v with start := t }
    else if t.is .addop .plus || t.is .addop .minus || t.is .keyword .notKw then
      advance
      let v ← factor n
      signed t.attr v
      return { v with start := t }
    else unexpected (.production .factor)

def expr (n : Nat) : Pass Value := exprWith (factor n) n

end OnePass.Compiler.Pass

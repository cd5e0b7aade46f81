import OnePass.Proofs.Compiler.Success
import OnePass.Proofs.Source.Syntax

namespace OnePass.Source

open Compiler Assembly

/-- Code for a signed value, in place. -/
def Sign.lower (s : Sign) (v : Nat) : Gen Unit :=
  match s with
  | plus => pure ()
  | minus => do Gen.put (.unary .neg (← Gen.materialize v))
  | not => do Gen.put (.unary .not (← Gen.materialize v))

/-- Code for an operation on two values; the result is the left one. -/
def Operator.lower (op : Operator) (l r : Nat) : Gen Unit :=
  match op with
  | times | and => discard (Gen.combine .mul l r)
  | slash => discard (Gen.combine .div l r)
  | plus => discard (Gen.combine .add l r)
  | minus => discard (Gen.combine .sub l r)
  | or => Gen.disjoin l r
  | op => Gen.compare op.attr l r

/-- Code for an expression, and the number of its value. -/
def Expr.lower : Expr → Gen Nat
  | var x => Gen.newValue (.memory x)
  | num n => Gen.newValue (.immediate (Int64.ofNat n))
  | sign s e => do
    let v ← e.lower
    s.lower v
    return v
  | binary op a b => do
    let l ← a.lower
    let r ← b.lower
    op.lower l r
    return l

/-- Brings a value into a register, lets `f` emit code for it and releases it. -/
def consume (v : Nat) (f : Int → Line) : Gen Unit := do
  let r ← Gen.materialize v
  Gen.put (f r)
  Gen.release v

/-- Code for actual parameters, one after the other; each value is given up at once. -/
def lowerActuals : List Expr → Gen Unit
  | [] => return
  | e :: es => do
    Gen.release (← e.lower)
    lowerActuals es

def Stmt.lower : Stmt → Gen Unit
  | skip => return
  | seq a b => do
    a.lower
    b.lower
  | assign x e => do consume (← e.lower) fun r => .move (.memory x) (.register r)
  | call _ _ => return
  | ite c a b => do
    let v ← c.lower
    let r ← Gen.materialize v
    let other ← Gen.newLabel "else"
    let done ← Gen.newLabel "if_done"
    Gen.put (.branch .brez r other)
    Gen.release v
    a.lower
    Gen.put (.jump done)
    Gen.put (.label other)
    b.lower
    Gen.put (.label done)
  | loop c s => do
    let again ← Gen.newLabel "while_cond"
    let done ← Gen.newLabel "while_done"
    Gen.put (.label again)
    consume (← c.lower) fun r => .branch .brez r done
    s.lower
    Gen.put (.jump again)
    Gen.put (.label done)
  | print e => do consume (← e.lower) fun r => .unary .outb r

/-- The entry label, the main block and a halt. -/
def Program.lower (p : Program) : Gen Unit := do
  Gen.put (.label ("_" ++ p.name))
  p.body.lower
  Gen.put .halt

/-- The code with a word of data for each name after it. -/
def withData (g : Generator) (names : List Text) : Generator :=
  { g with listing := names.foldl (fun l x => l.put (.data x 1)) g.listing }

end OnePass.Source

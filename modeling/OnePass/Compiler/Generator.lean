import OnePass.Assembly.Listing
import OnePass.Token.Basic

namespace OnePass.Compiler

open Assembly

/-- Values are kept apart by number. A value moves from its register to a word of memory when the register is
needed for another. -/
structure Generator where
  listing : Listing := {}
  pool : RegisterPool := {}
  /-- Where each value is. -/
  operands : Array Operand := #[]
  /-- The values that hold a register, the newest first. -/
  live : List Nat := []
  deriving Repr

/-- The state survives a failure. -/
abbrev Gen := ExceptT RegisterError (StateM Generator)

namespace Gen

def put (l : Line) : Gen Unit := modify fun g => { g with listing := g.listing.put l }

def newLabel (stem : String) : Gen Text :=
  modifyGet fun g =>
    let r := g.listing.newLabel stem
    (r.1, { g with listing := r.2 })

def newSpill : Gen Text :=
  modifyGet fun g =>
    let r := g.listing.newSpill
    (r.1, { g with listing := r.2 })

/-- A value that stands at an operand. -/
def newValue (o : Operand) : Gen Nat :=
  modifyGet fun g => (g.operands.size, { g with operands := g.operands.push o })

def operand (v : Nat) : Gen Operand := do
  return (← get).operands[v]?.getD (.immediate 0)

def setOperand (v : Nat) (o : Operand) : Gen Unit :=
  modify fun g => { g with operands := g.operands.setIfInBounds v o }

/-- Frees the register of a value that holds one. -/
def release (v : Nat) : Gen Unit := do
  match ← operand v with
  | .register r =>
    let g ← get
    match g.pool.free r with
    | .ok pool => set { g with pool, live := g.live.erase v }
    | .error e => throw e
  | _ => return

/-- Moves a value from its register to a fresh word of memory. -/
def spill (v : Nat) : Gen Unit := do
  match ← operand v with
  | .register r =>
    let name ← newSpill
    put (.move (.memory name) (.register r))
    release v
    setOperand v (.memory name)
  | _ => return

/-- A free register; if there is none, the newest value gives up its own. -/
def allocate : Gen Int := do
  let g ← get
  if !g.pool.available then
    match g.live with
    | v :: _ => spill v
    | [] => pure ()
  let g ← get
  match g.pool.allocate with
  | .ok (r, pool) =>
    set { g with pool }
    return r
  | .error e => throw e

/-- Brings a value into a register. -/
def materialize (v : Nat) : Gen Int := do
  match ← operand v with
  | .register r => return r
  | o =>
    let r ← allocate
    put (.move (.register r) o)
    setOperand v (.register r)
    modify fun g => { g with live := v :: g.live }
    return r

/-- The result is in the left value's register. -/
def combine (m : Mnemonic) (left right : Nat) : Gen Int := do
  let r ← materialize left
  put (.binary m r (← operand right))
  release right
  return r

/-- Strict disjunction of 0 and 1: their sum, cut down to 1. -/
def disjoin (left right : Nat) : Gen Unit := do
  let r ← combine .add left right
  let done ← newLabel "done"
  put (.branch .brez r done)
  put (.move (.register r) (.immediate 1))
  put (.label done)

/-- The tests on a difference that refute a comparison. -/
def refutations : Attr → List Mnemonic
  | .equal => [.brne, .brpo]
  | .notEqual => [.brez]
  | .greater => [.brne, .brez]
  | .greaterEqual => [.brne]
  | .less => [.brez, .brpo]
  | .lessEqual => [.brpo]
  | _ => []

/-- Leaves 1 in the left value's register if the comparison holds of the difference, else 0. -/
def compare (op : Attr) (left right : Nat) : Gen Unit := do
  let r ← combine .sub left right
  let no ← newLabel "false"
  let done ← newLabel "done"
  for m in refutations op do
    put (.branch m r no)
  put (.move (.register r) (.immediate 1))
  put (.jump done)
  put (.label no)
  put (.move (.register r) (.immediate 0))
  put (.label done)

end Gen

end OnePass.Compiler

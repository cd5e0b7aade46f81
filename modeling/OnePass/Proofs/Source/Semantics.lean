import OnePass.Proofs.Source.Syntax
import Mathlib.Logic.Function.Basic

namespace OnePass.Source

/-- The values of all variables. -/
abbrev Store := Text → Word

/-- What a relational operator asks of the wrapped difference of its operands. -/
def Operator.holds (op : Operator) (d : Word) : Bool :=
  match op with
  | .equal => d = 0
  | .notEqual => d ≠ 0
  | .greater => 0 < d
  | .greaterEqual => 0 ≤ d
  | .less => d < 0
  | .lessEqual => d ≤ 0
  | _ => false

/-- The word of a truth value. -/
def truth (b : Bool) : Word := if b then 1 else 0

/-- The value of an operation, unless it divides by zero. -/
def Operator.apply (op : Operator) (x y : Word) : Option Word :=
  match op with
  | .times => some (x * y)
  | .slash => if y = 0 then none else some (x / y)
  | .and => some (truth (x ≠ 0 && y ≠ 0))
  | .plus => some (x + y)
  | .minus => some (x - y)
  | .or => some (truth (x ≠ 0 || y ≠ 0))
  | op => some (truth (op.holds (x - y)))

def Sign.apply (s : Sign) (x : Word) : Word :=
  match s with
  | plus => x
  | minus => -x
  | not => truth (x = 0)

/-- Both operands are evaluated, the left one first. -/
def Expr.eval (σ : Store) : Expr → Option Word
  | var x => some (σ x)
  | num n => some (Int64.ofNat n)
  | sign s e => (e.eval σ).map s.apply
  | binary op a b => do op.apply (← a.eval σ) (← b.eval σ)

/-- The type of the operands of an operator. -/
def Operator.operandType : Operator → ExprType
  | and | or => .bool
  | _ => .int

def Operator.resultType : Operator → ExprType
  | times | slash | plus | minus => .int
  | _ => .bool

/-- The type that a sign takes and gives. -/
def Sign.type : Sign → ExprType
  | plus | minus => .int
  | not => .bool

/-- The type of an identifier, if the scope declares it. -/
def lookUp (t : SymbolTable) (scope name : Text) : Option ExprType :=
  if t.declared name scope then some (t.typeOf name scope) else none

/-- The type of an expression whose operands have the types that their operators ask for. -/
def Expr.type? (t : SymbolTable) (scope : Text) : Expr → Option ExprType
  | var x => lookUp t scope x
  | num _ => some .int
  | sign s e => if e.type? t scope = some s.type then some s.type else none
  | binary op a b =>
    if a.type? t scope = some op.operandType ∧ b.type? t scope = some op.operandType then
      some op.resultType
    else none

/-- Every actual parameter has the type of the formal one at its position. -/
def ActualsTyped (t : SymbolTable) (scope callee : Text) : Int → List Expr → Prop
  | _, [] => True
  | i, e :: es =>
    e.type? t scope = some (t.typeAt callee i) ∧ ActualsTyped t scope callee (i + 1) es

/-- The rules on declarations and types that a statement keeps in a scope of a program. -/
def Stmt.Typed (t : SymbolTable) (program scope : Text) : Stmt → Prop
  | skip => True
  | seq a b => a.Typed t program scope ∧ b.Typed t program scope
  | assign x e => ∃ type, lookUp t scope x = some type ∧ e.type? t scope = some type
  | call p es =>
    t.declared p scope = true ∧ t.typeOf p program = .procedureName ∧ ActualsTyped t scope p 0 es
  | ite c a b =>
    c.type? t scope = some .bool ∧ a.Typed t program scope ∧ b.Typed t program scope
  | loop c s => c.type? t scope = some .bool ∧ s.Typed t program scope
  | print e => ∃ type, e.type? t scope = some type ∧ type.isScalar = true

/-- The variables of an expression. -/
def Expr.names : Expr → List Text
  | var x => [x]
  | num _ => []
  | sign _ e => e.names
  | binary _ a b => a.names ++ b.names

/-- The variables that a statement reads or writes; a call evaluates nothing. -/
def Stmt.names : Stmt → List Text
  | skip => []
  | seq a b => a.names ++ b.names
  | assign x e => x :: e.names
  | call _ _ => []
  | ite c a b => c.names ++ (a.names ++ b.names)
  | loop c s => c.names ++ s.names
  | print e => e.names

/-- How a run ends. -/
inductive Ending where
  | normal (σ : Store)
  | divideByZero

/-- A statement started in a store prints values and ends. A call does nothing. -/
inductive Stmt.Runs : Stmt → Store → List Word → Ending → Prop where
  | skip {σ : Store} : Runs .skip σ [] (.normal σ)
  | seq {a b : Stmt} {σ σ' : Store} {out out' : List Word} {r : Ending}
      (ha : Runs a σ out (.normal σ')) (hb : Runs b σ' out' r) :
      Runs (.seq a b) σ (out ++ out') r
  | seqAbort {a b : Stmt} {σ : Store} {out : List Word} (ha : Runs a σ out .divideByZero) :
      Runs (.seq a b) σ out .divideByZero
  | assign {x : Text} {e : Expr} {σ : Store} {w : Word} (he : e.eval σ = some w) :
      Runs (.assign x e) σ [] (.normal (Function.update σ x w))
  | assignAbort {x : Text} {e : Expr} {σ : Store} (he : e.eval σ = none) :
      Runs (.assign x e) σ [] .divideByZero
  | call {p : Text} {es : List Expr} {σ : Store} : Runs (.call p es) σ [] (.normal σ)
  | iteTrue {c : Expr} {a b : Stmt} {σ : Store} {w : Word} {out : List Word} {r : Ending}
      (hc : c.eval σ = some w) (hw : w ≠ 0) (ha : Runs a σ out r) : Runs (.ite c a b) σ out r
  | iteFalse {c : Expr} {a b : Stmt} {σ : Store} {out : List Word} {r : Ending}
      (hc : c.eval σ = some 0) (hb : Runs b σ out r) : Runs (.ite c a b) σ out r
  | iteAbort {c : Expr} {a b : Stmt} {σ : Store} (hc : c.eval σ = none) :
      Runs (.ite c a b) σ [] .divideByZero
  | loopDone {c : Expr} {s : Stmt} {σ : Store} (hc : c.eval σ = some 0) :
      Runs (.loop c s) σ [] (.normal σ)
  | loopMore {c : Expr} {s : Stmt} {σ σ' : Store} {w : Word} {out out' : List Word} {r : Ending}
      (hc : c.eval σ = some w) (hw : w ≠ 0) (hs : Runs s σ out (.normal σ'))
      (hl : Runs (.loop c s) σ' out' r) : Runs (.loop c s) σ (out ++ out') r
  | loopBodyAbort {c : Expr} {s : Stmt} {σ : Store} {w : Word} {out : List Word}
      (hc : c.eval σ = some w) (hw : w ≠ 0) (hs : Runs s σ out .divideByZero) :
      Runs (.loop c s) σ out .divideByZero
  | loopAbort {c : Expr} {s : Stmt} {σ : Store} (hc : c.eval σ = none) :
      Runs (.loop c s) σ [] .divideByZero
  | print {e : Expr} {σ : Store} {w : Word} (he : e.eval σ = some w) :
      Runs (.print e) σ [w] (.normal σ)
  | printAbort {e : Expr} {σ : Store} (he : e.eval σ = none) :
      Runs (.print e) σ [] .divideByZero

/-- A whole program runs its main block with every variable at zero. -/
def Program.Runs (p : Program) (out : List Word) (r : Ending) : Prop :=
  p.body.Runs (fun _ => 0) out r

/-- The text of printed values: each in decimal, with a line end. -/
def printed (out : List Word) : Text := out.flatMap fun w => Text.ofWord w ++ "\n"

/-- Variables of type `bool` hold truth values. -/
def Store.Boolean (σ : Store) (t : SymbolTable) (scope : Text) : Prop :=
  ∀ x, lookUp t scope x = some .bool → σ x = 0 ∨ σ x = 1

theorem declared_of_lookUp {t : SymbolTable} {scope x : Text} {type : ExprType}
    (h : lookUp t scope x = some type) : t.declared x scope = true := by
  simp only [lookUp, Option.ite_none_right_eq_some] at h
  exact h.1

/-- The variables of an expression that has a type are declared. -/
theorem Expr.declared_of_type? {t : SymbolTable} {scope : Text} {e : Expr} {type : ExprType}
    (h : e.type? t scope = some type) {x : Text} (hx : x ∈ e.names) :
    t.declared x scope = true := by
  induction e generalizing type with
  | var y =>
    rw [List.mem_singleton.1 hx]
    exact declared_of_lookUp h
  | num n => cases hx
  | sign s e ih =>
    simp only [type?, Option.ite_none_right_eq_some] at h
    exact ih h.1 hx
  | binary op a b iha ihb =>
    simp only [type?, Option.ite_none_right_eq_some] at h
    rcases List.mem_append.1 hx with hx | hx
    · exact iha h.1.1 hx
    · exact ihb h.1.2 hx

theorem Stmt.Typed.declared {t : SymbolTable} {program scope : Text} {c : Stmt}
    (h : c.Typed t program scope) {x : Text} (hx : x ∈ c.names) : t.declared x scope = true := by
  induction c with
  | skip => cases hx
  | call p es => cases hx
  | seq a b iha ihb =>
    rcases List.mem_append.1 hx with hx | hx
    · exact iha h.1 hx
    · exact ihb h.2 hx
  | assign y e =>
    obtain ⟨type, hy, he⟩ := h
    rcases List.mem_cons.1 hx with rfl | hx
    · exact declared_of_lookUp hy
    · exact Expr.declared_of_type? he hx
  | ite c a b iha ihb =>
    rcases List.mem_append.1 hx with hx | hx
    · exact Expr.declared_of_type? h.1 hx
    · rcases List.mem_append.1 hx with hx | hx
      · exact iha h.2.1 hx
      · exact ihb h.2.2 hx
  | loop c s ih =>
    rcases List.mem_append.1 hx with hx | hx
    · exact Expr.declared_of_type? h.1 hx
    · exact ih h.2 hx
  | print e =>
    obtain ⟨type, he, -⟩ := h
    exact Expr.declared_of_type? he hx

theorem truth_boolean (b : Bool) : truth b = 0 ∨ truth b = 1 := by
  cases b
  · exact .inl rfl
  · exact .inr rfl

theorem Operator.apply_boolean {op : Operator} (h : op.resultType = .bool) {x y w : Word}
    (hw : op.apply x y = some w) : w = 0 ∨ w = 1 := by
  cases op
  case times | slash | plus | minus => cases h
  all_goals
    cases hw
    exact truth_boolean _

/-- An expression of type `bool` has a truth value. -/
theorem Expr.eval_boolean {t : SymbolTable} {scope : Text} {σ : Store}
    (hσ : σ.Boolean t scope) {e : Expr} (he : e.type? t scope = some .bool) {w : Word}
    (hw : e.eval σ = some w) : w = 0 ∨ w = 1 := by
  cases e with
  | var x =>
    cases hw
    exact hσ x he
  | num n => simp [type?] at he
  | sign s e =>
    simp only [type?, Option.ite_none_right_eq_some] at he
    cases s with
    | plus => simp [Sign.type] at he
    | minus => simp [Sign.type] at he
    | not =>
      obtain ⟨v, -, rfl⟩ := Option.map_eq_some_iff.1 hw
      exact truth_boolean _
  | binary op a b =>
    simp only [type?, Option.ite_none_right_eq_some, Option.some.injEq] at he
    simp only [eval, Option.bind_eq_bind, Option.bind_eq_some_iff] at hw
    obtain ⟨x, -, y, -, hxy⟩ := hw
    exact Operator.apply_boolean he.2 hxy

end OnePass.Source

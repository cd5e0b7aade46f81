import OnePass.Text.Numeral
import OnePass.Text.Column

namespace OnePass

/-- The type of a symbol or an expression. -/
inductive ExprType where
  | int | bool | programName | procedureName
  | unknown
  | noType
  | garbage
  | other (code : Int)
  deriving DecidableEq, Repr

namespace ExprType

def known : List ExprType :=
  [int, bool, programName, procedureName, unknown, noType, garbage]

def ofCode (n : Int) : ExprType :=
  if n < 0 then other n else known[n.toNat]?.getD (other n)

def name : ExprType → Text
  | int => "INT_T"
  | bool => "BOOL_T"
  | programName => "PROGRAM_T"
  | procedureName => "PROCEDURE_T"
  | unknown => "UNKNOWN_T"
  | noType => "NO_T"
  | garbage => "GARBAGE_T"
  | other n => "ExprType(" ++ Text.ofInt n ++ ")"

/-- Values of this type fit a memory word and can be printed. -/
def isScalar (t : ExprType) : Bool := t == int || t == bool

end ExprType

/-- The position of what is no formal parameter. -/
def noPosition : Int := -1

/-- One declaration; formal parameters of a procedure have positions 0, 1, 2, … -/
structure Symbol where
  id : Text
  scope : Text
  position : Int := noPosition
  type : ExprType
  deriving DecidableEq, Repr

/-- Declarations in the order of their installation. -/
structure SymbolTable where
  symbols : List Symbol := []
  deriving DecidableEq, Repr

namespace SymbolTable

def length (t : SymbolTable) : Nat := t.symbols.length

def install (t : SymbolTable) (s : Symbol) : SymbolTable := ⟨t.symbols ++ [s]⟩

def find? (t : SymbolTable) (id scope : Text) : Option Symbol :=
  t.symbols.find? fun s => s.id == id && s.scope == scope

def declared (t : SymbolTable) (id scope : Text) : Bool := (t.find? id scope).isSome

/-- The type of an identifier in a scope; garbage if it is not declared there. -/
def typeOf (t : SymbolTable) (id scope : Text) : ExprType :=
  match t.find? id scope with
  | some s => s.type
  | none => .garbage

/-- The type of a procedure's formal parameter; garbage if it has none at that position. -/
def typeAt (t : SymbolTable) (scope : Text) (position : Int) : ExprType :=
  match t.symbols.find? fun s => s.scope == scope && s.position == position with
  | some s => s.type
  | none => .garbage

def unknowns (t : SymbolTable) : Nat := t.symbols.countP fun s => s.type == .unknown

/-- Gives every symbol of unknown type the type that was read. -/
def patch (t : SymbolTable) (type : ExprType) : SymbolTable :=
  ⟨t.symbols.map fun s => if s.type = .unknown then { s with type } else s⟩

/-- The identifiers of a scope that need a memory word. -/
def storage (t : SymbolTable) (scope : Text) : List Text :=
  (t.symbols.filter fun s => s.scope == scope && s.position == noPosition && s.type.isScalar).map
    Symbol.id

end SymbolTable

def Symbol.row (s : Symbol) : Text :=
  "  " ++ s.id.padRight 20 ++ "  Scope: " ++ s.scope.padRight 12 ++ " Position: " ++
    (Text.ofInt s.position).padLeft 2 ++ "  Type: " ++ s.type.name ++ "\n"

/-- The table as a listing. -/
def SymbolTable.dump (t : SymbolTable) : Text :=
  if t.symbols.isEmpty then "Symbols: (empty)\n"
  else "Symbols:\n" ++ t.symbols.flatMap Symbol.row

end OnePass

import OnePass.Compiler.Production
import OnePass.Register
import OnePass.Symbol
import OnePass.Text.Quoted
import OnePass.Token.Scanner

namespace OnePass.Compiler

/-- A broken rule on declarations or types. -/
inductive SemanticCause where
  | alreadyDeclared (id : Text)
  | notDeclared (id : Text)
  | mismatch (expected found : ExprType)
  | unprintable (found : ExprType)
  deriving DecidableEq, Repr

inductive SemanticKind where
  | alreadyDeclared | notDeclared | typeMismatch
  | other (code : Int)
  deriving DecidableEq, Repr

namespace SemanticKind

def known : List SemanticKind := [alreadyDeclared, notDeclared, typeMismatch]

def ofCode (n : Int) : SemanticKind :=
  if n < 0 then other n else known[n.toNat]?.getD (other n)

def text : SemanticKind → Text
  | alreadyDeclared => "already declared"
  | notDeclared => "not declared"
  | typeMismatch => "type mismatch"
  | other n => "SemanticKind(" ++ Text.ofInt n ++ ")"

end SemanticKind

namespace SemanticCause

def kind : SemanticCause → SemanticKind
  | alreadyDeclared _ => .alreadyDeclared
  | notDeclared _ => .notDeclared
  | mismatch _ _ | unprintable _ => .typeMismatch

def message : SemanticCause → Text
  | alreadyDeclared id => "The identifier " ++ id ++ " has already been declared."
  | notDeclared id => "The identifier " ++ id ++ " has not been declared."
  | mismatch e f => "Type error: expected " ++ e.name ++ " found " ++ f.name ++ "."
  | unprintable f =>
    "Type error: expected " ++ ExprType.int.name ++ " or " ++ ExprType.bool.name ++ ", found " ++
      f.name ++ "."

end SemanticCause

/-- A fault of the compiler's own resources. -/
inductive InternalCause where
  | register (e : RegisterError)
  | numeral (lexeme : Text) (e : NumeralError)
  deriving DecidableEq, Repr

def InternalCause.message : InternalCause → Text
  | register e => e.message
  | numeral t e =>
    "strconv.Atoi: parsing " ++ t.quoted ++ ": " ++
      Text.ofString (match e with
        | .malformed => "invalid syntax"
        | .outOfRange => "value out of range")

end OnePass.Compiler

namespace OnePass

open Compiler

inductive CompileError where
  | lexical (e : LexError)
  | unexpected (expected : Expectation) (found : Token)
  | extraTokens (found : Token)
  | semantic (cause : SemanticCause) (found : Token)
  | internal (cause : InternalCause)
  /-- The output refused a line. -/
  | outputFull
  deriving DecidableEq, Repr

/-- What a full output says. -/
def outputFullMessage : Text := "disk full"

def LexError.message (e : LexError) : Text := "Invalid character " ++ quoteChar e.char ++ "."

namespace CompileError

def message : CompileError → Text
  | lexical e => e.message
  | unexpected expected found => "Expected: " ++ expected.text ++ ", found: " ++ found.text
  | extraTokens found =>
    "extra tokens found at the end of program, starting with " ++ found.text
  | semantic cause _ => cause.message
  | internal cause => "internal error: " ++ cause.message
  | outputFull => outputFullMessage

/-- The token an error points at. -/
def token? : CompileError → Option Token
  | unexpected _ t | extraTokens t | semantic _ t => some t
  | lexical _ | internal _ | outputFull => none

/-- Line and column; a token without a line has none. -/
def position? (e : CompileError) : Option (Int × Int) :=
  match e with
  | lexical e => some (e.line, e.col)
  | e => match e.token? with
    | some t => if 0 < t.line then some (t.line, t.col) else none
    | none => none

end CompileError

end OnePass

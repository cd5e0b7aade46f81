import OnePass.Text.Numeral

namespace OnePass

/-- The category of a token; a number outside the list keeps its code. -/
inductive Kind where
  | eof | identifier | number | keyword | punct | relop | addop | mulop
  | other (code : Int)
  deriving DecidableEq, Repr

/-- What distinguishes the tokens of one category; identifiers and numbers have `none`. -/
inductive Attr where
  | none
  | programKw | procedureKw | intKw | boolKw | beginKw | endKw | ifKw | thenKw | elseKw
  | whileKw | loopKw | printKw | notKw
  | semicolon | colon | comma | assign | leftParen | rightParen
  | equal | notEqual | greater | greaterEqual | less | lessEqual
  | plus | minus | or | times | slash | and
  | other (code : Int)
  deriving DecidableEq, Repr

namespace Kind

def known : List Kind :=
  [eof, identifier, number, keyword, punct, relop, addop, mulop]

def ofCode (n : Int) : Kind :=
  if n < 0 then other n else known[n.toNat]?.getD (other n)

def name : Kind → Text
  | eof => "EOF"
  | identifier => "ID"
  | number => "NUM"
  | keyword => "KEYWORD"
  | punct => "PUNC"
  | relop => "RELOP"
  | addop => "ADDOP"
  | mulop => "MULOP"
  | other n => "Kind(" ++ Text.ofInt n ++ ")"

end Kind

namespace Attr

def known : List Attr :=
  [none, programKw, procedureKw, intKw, boolKw, beginKw, endKw, ifKw, thenKw, elseKw, whileKw,
    loopKw, printKw, notKw, semicolon, colon, comma, assign, leftParen, rightParen, equal, notEqual,
    greater, greaterEqual, less, lessEqual, plus, minus, or, times, slash, and]

def ofCode (n : Int) : Attr :=
  if n < 0 then other n else known[n.toNat]?.getD (other n)

/-- How a word or sign is written in a source. -/
def spelling (a : Attr) : List Char :=
  String.toList <| match a with
    | programKw => "program"
    | procedureKw => "procedure"
    | intKw => "int"
    | boolKw => "bool"
    | beginKw => "begin"
    | endKw => "end"
    | ifKw => "if"
    | thenKw => "then"
    | elseKw => "else"
    | whileKw => "while"
    | loopKw => "loop"
    | printKw => "print"
    | notKw => "not"
    | semicolon => ";"
    | colon => ":"
    | comma => ","
    | assign => ":="
    | leftParen => "("
    | rightParen => ")"
    | equal => "="
    | notEqual => "<>"
    | greater => ">"
    | greaterEqual => ">="
    | less => "<"
    | lessEqual => "<="
    | plus => "+"
    | minus => "-"
    | or => "or"
    | times => "*"
    | slash => "/"
    | and => "and"
    | none | other _ => ""

def text : Attr → Text
  | other n => "Attr(" ++ Text.ofInt n ++ ")"
  | a => Text.ofChars a.spelling

end Attr

/-- Lines and columns count from 1. -/
structure Token where
  kind : Kind
  attr : Attr := .none
  lexeme : Text := []
  line : Int := 0
  col : Int := 0
  deriving DecidableEq, Repr

namespace Token

def is (t : Token) (k : Kind) (a : Attr) : Bool := t.kind == k && t.attr == a

/-- A token as messages quote it. -/
def text (t : Token) : Text :=
  match t.kind with
  | .eof => "EOF"
  | .identifier | .number => t.kind.name ++ ":" ++ t.lexeme
  | k => k.name ++ ":" ++ t.attr.text

end Token

end OnePass

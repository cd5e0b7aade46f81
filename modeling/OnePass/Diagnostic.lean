import OnePass.Compiler.Error
import OnePass.Text.Blank
import OnePass.Text.Column

namespace OnePass

/-- Lines and columns count from 1; a line outside the source shows no excerpt. -/
structure Diagnostic where
  classification : Text
  filename : Text
  lines : List Text
  line : Int := 0
  col : Int := 0
  width : Int := 1
  description : Text
  deriving DecidableEq, Repr

inductive Paint where
  | redBold | red | blue

/-- A text in a colour, if colours are on. -/
def Paint.apply (p : Paint) (colors : Bool) (t : Text) : Text :=
  if colors then
    match p with
    | redBold => "\x1b[31;1m" ++ t ++ "\x1b[0;22m"
    | red => "\x1b[31m" ++ t ++ "\x1b[0m"
    | blue => "\x1b[34m" ++ t ++ "\x1b[0m"
  else t

namespace CompileError

def classification : CompileError → Text
  | lexical _ => "lexical error"
  | unexpected _ _ | extraTokens _ => "syntax error"
  | semantic c _ => "semantic error (" ++ c.kind.text ++ ")"
  | internal _ | outputFull => "internal error"

/-- The carets under a token: one for each byte of its lexeme, at least one. -/
def width (e : CompileError) : Nat :=
  match e.token? with
  | some t => max 1 t.lexeme.size
  | none => 1

end CompileError

namespace Diagnostic

def ofError (filename source : Text) (e : CompileError) : Diagnostic where
  classification := e.classification
  filename
  lines := source.lines
  line := (e.position?.getD (0, 0)).1
  col := (e.position?.getD (0, 0)).2
  width := e.width
  description := e.message

/-- An error of no known place. -/
def plain (filename source description : Text) : Diagnostic where
  classification := "internal error"
  filename
  lines := source.lines
  description

/-- Blanks up to a column, with the tabs of the line above. -/
def indent (source : Text) (n : Nat) : Text :=
  ((source.take n).map fun g => if g = .char '\t' then .char '\t' else .char ' ') ++
    Text.spaces (n - source.length)

/-- The line without carriage returns at its end. -/
def stripReturns (t : Text) : Text := (t.reverse.dropWhile (· == .char '\r')).reverse

/-- The source line that the diagnostic is about. -/
def excerpt? (d : Diagnostic) : Option Text :=
  if 0 < d.line then d.lines[d.line.toNat - 1]?.map stripReturns else none

def heading (d : Diagnostic) (colors : Bool) : Text :=
  Paint.redBold.apply colors ("error: " ++ d.classification)

/-- The message without an excerpt. -/
def renderPlain (d : Diagnostic) (colors : Bool) : Text :=
  d.heading colors ++ "\n  " ++ Paint.blue.apply colors "-->" ++ " " ++ d.filename ++ "\n" ++
    Paint.red.apply colors d.description

/-- The line of carets, after its margin. -/
def underline (d : Diagnostic) (colors : Bool) (source : Text) : Text :=
  indent source (d.col - 1).toNat ++
    Paint.red.apply colors (List.replicate d.width.toNat (.char '^'))

def renderExcerpt (d : Diagnostic) (colors : Bool) (source : Text) : Text :=
  let number := Text.ofInt d.line
  let margin := Text.spaces number.length
  let bar := Paint.blue.apply colors "|"
  d.heading colors ++ "\n " ++ margin ++ Paint.blue.apply colors "-->" ++ " " ++ d.filename ++ ":" ++
    number ++ ":" ++ Text.ofInt d.col ++ "\n" ++
    Paint.blue.apply colors (" " ++ margin ++ " |") ++ "\n " ++
    Paint.blue.apply colors number ++ " " ++ bar ++ " " ++ source ++ "\n " ++
    margin ++ " " ++ bar ++ " " ++ d.underline colors source ++ " " ++
    Paint.red.apply colors d.description

/-- The whole message; a negative number of carets cannot be drawn. -/
def render? (d : Diagnostic) (colors : Bool) : Option Text :=
  match d.excerpt? with
  | none => some (d.renderPlain colors)
  | some source => if d.width < 0 then none else some (d.renderExcerpt colors source)

/-- The message for an error of the compiler. -/
def report (filename source : Text) (e : CompileError) (colors : Bool) : Text :=
  ((ofError filename source e).render? colors).getD []

end Diagnostic

end OnePass

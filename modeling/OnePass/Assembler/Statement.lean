import OnePass.Assembler.Error
import OnePass.Text.Blank
import OnePass.Text.Digit
import OnePass.Text.Letter
import OnePass.Text.LowerCase

namespace OnePass.Assembler

/-- The words of a line; the mnemonic is in lower case. -/
structure Statement where
  labels : List Text := []
  mnemonic : Option Text := none
  operands : List Text := []
  deriving DecidableEq, Repr

/-- A letter or an underscore. -/
def isNameStart (g : Glyph) : Bool := g.isLetter || g == .char '_'

def isNamePart (g : Glyph) : Bool := isNameStart g || g.isDigit

def isName : Text → Bool
  | [] => false
  | g :: t => isNameStart g && t.all isNamePart

/-- Cuts a line at its first semicolon or double slash. -/
def stripComment : Text → Text
  | [] => []
  | .char ';' :: _ => []
  | .char '/' :: .char '/' :: _ => []
  | g :: t => g :: stripComment t

def isGap (g : Glyph) : Bool := g == .char ' ' || g == .char '\t'

/-- Takes labels off the front of a line; `before` is the part read so far, backwards. A colon after
more than one word ends the labels. -/
def splitLabels (before : Text) : Text → Except Cause (List Text × Text)
  | [] => .ok ([], before.reverse)
  | g :: t =>
    if g = .char ':' then
      let name := Text.trim before.reverse
      if name.isEmpty then .error .emptyLabel
      else if name.any isGap then .ok ([], before.reverse ++ g :: t)
      else if isName name then (splitLabels [] t).map fun r => (name :: r.1, r.2)
      else .error (.invalidLabel name)
    else splitLabels (g :: before) t

/-- Blanks and commas stand between the words of an instruction. -/
def isSeparator (g : Glyph) : Bool := g.isBlank || g == .char ','

def Statement.ofWords (labels : List Text) : List Text → Statement
  | [] => { labels }
  | w :: ws => { labels, mnemonic := some w.lower, operands := ws }

def Statement.read (line : Text) : Except Cause Statement := do
  let (labels, rest) ← splitLabels [] (stripComment line)
  return Statement.ofWords labels (Text.runs isSeparator [] rest)

end OnePass.Assembler

import OnePass.Text.Blank
import OnePass.Text.Quoted

namespace OnePass

structure LogRecord where
  message : Text
  fields : List (Text × Text) := []
  deriving DecidableEq, Repr

namespace LogRecord

/-- A glyph that cannot stand in a bare value. -/
def needsQuote : Glyph → Bool
  | .stray _ => true
  | .char c =>
    if c.toNat < 0x80 then c == '"' || c == '=' || c == ' ' || c.toNat < 0x20
    else c == '�' || (Glyph.char c).isBlank || !printable c

/-- A value as it stands in a log line. -/
def valueText (t : Text) : Text :=
  if t.isEmpty || t.any needsQuote then t.quoted else t

def fieldText (f : Text × Text) : Text := " " ++ valueText f.1 ++ "=" ++ valueText f.2

def line (r : LogRecord) : Text :=
  "level=DEBUG msg=" ++ valueText r.message ++ r.fields.flatMap fieldText ++ "\n"

end LogRecord

end OnePass

import OnePass.Text.Numeral
import OnePass.Text.Printable

namespace OnePass

namespace Quoted

/-- Lower-case hexadecimal digits, filled up with zeros to `width`. -/
def hex (width n : Nat) : Text :=
  let ds := Nat.toDigits 16 n
  Text.ofChars (List.replicate (width - ds.length) '0' ++ ds)

/-- A character inside a quotation with the given mark. -/
def escape (mark c : Char) : Text :=
  if c = mark ∨ c = '\\' then Text.ofChars ['\\', c]
  else if printable c then [.char c]
  else match c.toNat with
    | 0x07 => "\\a"
    | 0x08 => "\\b"
    | 0x0c => "\\f"
    | 0x0a => "\\n"
    | 0x0d => "\\r"
    | 0x09 => "\\t"
    | 0x0b => "\\v"
    | n =>
      if n < 0x80 then "\\x" ++ hex 2 n
      else if n < 0x10000 then "\\u" ++ hex 4 n
      else "\\U" ++ hex 8 n

def escapeGlyph (mark : Char) : Glyph → Text
  | .char c => escape mark c
  | .stray b => "\\x" ++ hex 2 b.toNat

end Quoted

/-- A character in single quotes. -/
def quoteChar (c : Char) : Text := "'" ++ Quoted.escape '\'' c ++ "'"

/-- A text in double quotes. -/
def Text.quoted (t : Text) : Text := "\"" ++ t.flatMap (Quoted.escapeGlyph '"') ++ "\""

end OnePass

import OnePass.Text.Glyph

namespace OnePass

/-- White space of any script. -/
def Glyph.isBlank : Glyph → Bool
  | .char c =>
    let n := c.toNat
    (0x09 ≤ n && n ≤ 0x0d) || n == 0x20 || n == 0x85 || n == 0xa0 || n == 0x1680 ||
      (0x2000 ≤ n && n ≤ 0x200a) || n == 0x2028 || n == 0x2029 || n == 0x202f || n == 0x205f ||
      n == 0x3000
  | .stray _ => false

namespace Text

/-- A text without the blanks at its two ends. -/
def trim (t : Text) : Text := (t.dropWhile Glyph.isBlank).reverse.dropWhile Glyph.isBlank |>.reverse

/-- The maximal runs without a mark, in order. -/
def runs (mark : Glyph → Bool) : Text → Text → List Text
  | word, [] => if word.isEmpty then [] else [word.reverse]
  | word, g :: t =>
    if mark g then
      if word.isEmpty then runs mark [] t else word.reverse :: runs mark [] t
    else runs mark (g :: word) t

/-- The pieces between separators; one more than there are separators. -/
def splitAt (sep : Glyph) : Text → List Text
  | [] => [[]]
  | g :: t =>
    if g = sep then [] :: splitAt sep t
    else match splitAt sep t with
      | [] => [[g]]
      | w :: ws => (g :: w) :: ws

/-- The lines of a text; a final line end leaves an empty last line. -/
def lines (t : Text) : List Text := splitAt (.char '\n') t

end Text

end OnePass

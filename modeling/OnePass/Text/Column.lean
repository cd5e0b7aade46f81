import OnePass.Text.Glyph

namespace OnePass

namespace Text

def spaces (n : Nat) : Text := List.replicate n (.char ' ')

def padRight (width : Nat) (t : Text) : Text := t ++ spaces (width - t.length)

def padLeft (width : Nat) (t : Text) : Text := spaces (width - t.length) ++ t

/-- Texts with a separator between them. -/
def join (sep : Text) : List Text → Text
  | [] => []
  | [t] => t
  | t :: ts => t ++ sep ++ join sep ts

end Text

end OnePass

import OnePass.Token.Scanner

namespace OnePass

/-- Items in order, then the final token for ever. -/
structure Feed where
  items : List Item
  final : Token
  deriving Repr

namespace Feed

def ofSource (source : Text) : Feed :=
  let s := (Cursor.ofText source).items
  ⟨s.1, s.2⟩

/-- Replays the tokens; the end of input has no place. -/
def ofTokens (tokens : List Token) : Feed := ⟨tokens.map .ok, { kind := .eof }⟩

def next (f : Feed) : Item × Feed :=
  match f.items with
  | [] => (.ok f.final, f)
  | i :: is => (i, { f with items := is })

end Feed

end OnePass

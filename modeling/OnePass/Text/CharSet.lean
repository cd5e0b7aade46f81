import OnePass.Text.Glyph

namespace OnePass

/-- The code points where membership changes, in rising order: a character belongs to the set iff
an odd number of bounds lie at or below it. -/
structure CharSet where
  bounds : Array Nat

def CharSet.contains (s : CharSet) (c : Char) : Bool :=
  s.bounds.foldl (fun inside b => if b ≤ c.toNat then !inside else inside) false

end OnePass

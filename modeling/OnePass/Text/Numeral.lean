import OnePass.Text.Glyph

namespace OnePass

/-- A signed machine word; its arithmetic wraps. -/
abbrev Word := Int64

/-- The size of the least word, one more than the greatest: 2^63. -/
def wordLimit : Nat := 9223372036854775808

namespace Text

def ofNat (n : Nat) : Text := ofChars (Nat.toDigits 10 n)

def ofInt : Int → Text
  | .ofNat n => ofNat n
  | .negSucc n => .char '-' :: ofNat (n + 1)

def ofWord (w : Word) : Text := ofInt w.toInt

end Text

inductive NumeralError where
  | malformed
  | outOfRange
  deriving DecidableEq, Repr

/-- The value of an ASCII decimal digit. -/
def Glyph.digit? : Glyph → Option Nat
  | .char c => if c.isDigit then some (c.toNat - 48) else none
  | .stray _ => none

namespace Numeral

/-- Digits read from the left onto `n`: the first foreign character, or the first digit that takes
the value to 2^64, decides the error. -/
def magnitude (n : Nat) : Text → Except NumeralError Nat
  | [] => .ok n
  | g :: t =>
    match g.digit? with
    | none => .error .malformed
    | some d => if 10 * n + d < 2 * wordLimit then magnitude (10 * n + d) t else .error .outOfRange

/-- A magnitude of at least one digit, at most `bound`. -/
def bounded (bound : Nat) (t : Text) : Except NumeralError Nat :=
  if t.isEmpty then .error .malformed
  else match magnitude 0 t with
    | .error e => .error e
    | .ok n => if n ≤ bound then .ok n else .error .outOfRange

/-- An optional sign, then decimal digits. -/
def readInt : Text → Except NumeralError Int
  | .char '-' :: t => (bounded wordLimit t).map fun n : Nat => -(n : Int)
  | .char '+' :: t => (bounded (wordLimit - 1) t).map fun n : Nat => (n : Int)
  | t => (bounded (wordLimit - 1) t).map fun n : Nat => (n : Int)

def readWord (t : Text) : Except NumeralError Word := (readInt t).map Int64.ofInt

end Numeral

end OnePass

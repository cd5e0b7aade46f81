namespace OnePass

/-- One unit of text. -/
inductive Glyph where
  | char (c : Char)
  | stray (b : UInt8)
  deriving DecidableEq, Repr

abbrev Text := List Glyph

namespace Glyph

/-- The character a reader sees: a stray byte shows as the replacement character. -/
def toChar : Glyph → Char
  | char c => c
  | stray _ => '�'

def bytes : Glyph → List UInt8
  | char c => String.utf8EncodeChar c
  | stray b => [b]

end Glyph

namespace Text

def ofString (s : String) : Text := s.toList.map Glyph.char

instance : Coe String Text := ⟨ofString⟩

/-- The characters of a text, one for each glyph. -/
def chars (t : Text) : List Char := t.map Glyph.toChar

def ofChars (cs : List Char) : Text := cs.map Glyph.char

/-- The bytes of a text, as a file holds them. -/
def bytes (t : Text) : List UInt8 := t.flatMap Glyph.bytes

/-- Length in bytes. -/
def size (t : Text) : Nat := t.bytes.length

/-- The text from byte `i` on. -/
def readFrom (b : ByteArray) (i : Nat) : Text :=
  if h : i < b.size then
    match b.utf8DecodeChar? i with
    | some c => .char c :: readFrom b (i + c.utf8Size)
    | none => .stray b[i] :: readFrom b (i + 1)
  else []
termination_by b.size - i
decreasing_by
  · have := c.utf8Size_pos
    omega
  · omega

/-- Bytes as text: whole UTF-8 sequences are characters, every other byte stands alone. -/
def ofBytes (b : ByteArray) : Text := readFrom b 0

/-- The text as a string, unless one of its bytes is outside UTF-8. -/
def toString? (t : Text) : Option String :=
  String.fromUTF8? t.bytes.toByteArray

end Text

theorem Text.chars_ofChars (cs : List Char) : (Text.ofChars cs).chars = cs := by
  induction cs with
  | nil => rfl
  | cons c cs ih => simpa [Text.ofChars, Text.chars, Glyph.toChar] using ih

end OnePass

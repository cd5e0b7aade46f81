import OnePass.Token.Basic

namespace OnePass

structure Pos where
  line : Int := 1
  col : Int := 1
  deriving DecidableEq, Repr

namespace Pos

/-- The place after a character. -/
def next (p : Pos) (c : Char) : Pos :=
  if c = '\n' then ⟨p.line + 1, 1⟩ else ⟨p.line, p.col + 1⟩

def past (p : Pos) (cs : List Char) : Pos := cs.foldl next p

theorem past_append (p : Pos) (a b : List Char) : p.past (a ++ b) = (p.past a).past b := by
  simp [past]

end Pos

/-- A character that begins no token. -/
structure LexError where
  char : Char
  line : Int
  col : Int
  deriving DecidableEq, Repr

namespace Scanner

def isSpace (c : Char) : Bool := c == ' ' || c == '\t' || c == '\n' || c == '\r'

def isLower (c : Char) : Bool := 'a' ≤ c && c ≤ 'z'

def isDigit (c : Char) : Bool := '0' ≤ c && c ≤ '9'

def isWordPart (c : Char) : Bool := isLower c || isDigit c

/-- Words that are no identifiers. -/
def reserved : List (Kind × Attr) :=
  [(.keyword, .programKw), (.keyword, .procedureKw), (.keyword, .intKw), (.keyword, .boolKw),
    (.keyword, .beginKw), (.keyword, .endKw), (.keyword, .ifKw), (.keyword, .thenKw),
    (.keyword, .elseKw), (.keyword, .whileKw), (.keyword, .loopKw), (.keyword, .printKw),
    (.keyword, .notKw), (.addop, .or), (.mulop, .and)]

/-- Signs, the longer ones first. -/
def signs : List (Kind × Attr) :=
  [(.punct, .assign), (.relop, .notEqual), (.relop, .lessEqual), (.relop, .greaterEqual),
    (.punct, .semicolon), (.punct, .comma), (.punct, .leftParen), (.punct, .rightParen),
    (.punct, .colon), (.relop, .equal), (.relop, .less), (.relop, .greater), (.addop, .plus),
    (.addop, .minus), (.mulop, .times), (.mulop, .slash)]

structure Lexeme where
  kind : Kind
  attr : Attr
  chars : List Char
  deriving DecidableEq, Repr

def word (w : List Char) : Lexeme :=
  match reserved.find? fun r => r.2.spelling = w with
  | some r => ⟨r.1, r.2, w⟩
  | none => ⟨.identifier, .none, w⟩

/-- The longest lexeme at the head of the characters. -/
def lexeme? (cs : List Char) : Option Lexeme :=
  match cs with
  | [] => none
  | c :: _ =>
    if isLower c then some (word (cs.takeWhile isWordPart))
    else if isDigit c then some ⟨.number, .none, cs.takeWhile isDigit⟩
    else (signs.find? fun s => s.2.spelling.isPrefixOf cs).map fun s => ⟨s.1, s.2, s.2.spelling⟩

theorem word_chars (w : List Char) : (word w).chars = w := by
  unfold word
  split <;> rfl

theorem lexeme?_ne_nil {cs : List Char} {l : Lexeme} (h : lexeme? cs = some l) : l.chars ≠ [] := by
  cases cs with
  | nil => simp [lexeme?] at h
  | cons c cs =>
    simp only [lexeme?] at h
    split at h
    · rename_i hc
      have hp : isWordPart c = true := by simp [isWordPart, hc]
      cases h
      simp [word_chars, hp]
    · split at h
      · rename_i hd
        cases h
        simp [hd]
      · obtain ⟨s, hs, rfl⟩ := Option.map_eq_some_iff.1 h
        have hm := List.mem_of_find?_eq_some hs
        have hall : ∀ s ∈ signs, s.2.spelling ≠ [] := by decide
        exact hall s hm

end Scanner

/-- What is left of a source, and where it starts. -/
structure Cursor where
  rest : List Char
  pos : Pos := {}
  deriving DecidableEq, Repr

abbrev Item := Except LexError Token

namespace Cursor

def ofText (t : Text) : Cursor := ⟨t.chars, {}⟩

/-- Passes blanks and comments; a comment runs from a number sign to the end of its line. -/
def skipGap (comment : Bool) : List Char → Pos → Cursor
  | [], p => ⟨[], p⟩
  | c :: cs, p =>
    if comment && c != '\n' then skipGap true cs (p.next c)
    else if Scanner.isSpace c then skipGap false cs (p.next c)
    else if c = '#' then skipGap true cs (p.next c)
    else ⟨c :: cs, p⟩

def skip (u : Cursor) : Cursor := skipGap false u.rest u.pos

def endToken (u : Cursor) : Token := { kind := .eof, line := u.pos.line, col := u.pos.col }

/-- The item at the head of the rest, and what follows it. -/
def item (u : Cursor) (c : Char) (cs : List Char) : Item × Cursor :=
  match Scanner.lexeme? (c :: cs) with
  | some l =>
    (.ok ⟨l.kind, l.attr, Text.ofChars l.chars, u.pos.line, u.pos.col⟩,
      ⟨(c :: cs).drop l.chars.length, u.pos.past l.chars⟩)
  | none => (.error ⟨c, u.pos.line, u.pos.col⟩, ⟨cs, u.pos.next c⟩)

/-- One call: the next token or lexical error; end of input again and again once it is reached. -/
def next (u : Cursor) : Item × Cursor :=
  match u.skip.rest with
  | [] => (.ok u.skip.endToken, u.skip)
  | c :: cs => u.skip.item c cs

theorem skipGap_length_le (b : Bool) (cs : List Char) (p : Pos) :
    (skipGap b cs p).rest.length ≤ cs.length := by
  induction cs generalizing b p with
  | nil => simp [skipGap]
  | cons c cs ih =>
    simp only [skipGap]
    split
    · exact Nat.le_succ_of_le (ih _ _)
    · split
      · exact Nat.le_succ_of_le (ih _ _)
      · split
        · exact Nat.le_succ_of_le (ih _ _)
        · simp

theorem item_length_lt (u : Cursor) (c : Char) (cs : List Char) :
    (u.item c cs).2.rest.length < (c :: cs).length := by
  unfold item
  split
  · rename_i l hl
    have hpos : 0 < l.chars.length := List.length_pos_iff.2 (Scanner.lexeme?_ne_nil hl)
    simp only [List.length_drop, List.length_cons]
    omega
  · simp

/-- Every item up to the end of input, and the token that stands there. -/
def items (u : Cursor) : List Item × Token :=
  match _h : u.skip.rest with
  | [] => ([], u.skip.endToken)
  | c :: cs =>
    let r := u.skip.item c cs
    let s := items r.2
    (r.1 :: s.1, s.2)
termination_by u.rest.length
decreasing_by
  have h1 := skipGap_length_le false u.rest u.pos
  have h2 := item_length_lt u.skip c cs
  have h3 : (skipGap false u.rest u.pos).rest = c :: cs := _h
  rw [h3] at h1
  exact Nat.lt_of_lt_of_le h2 h1

/-- The first `n` answers of a cursor. -/
def take : Nat → Cursor → List Item
  | 0, _ => []
  | n + 1, u => u.next.1 :: take n u.next.2

end Cursor

/-- All tokens of a source with the end of input last, or its first lexical error. -/
def lex (source : Text) : Except LexError (List Token) := do
  let s := (Cursor.ofText source).items
  let tokens ← s.1.mapM id
  return tokens ++ [s.2]

end OnePass

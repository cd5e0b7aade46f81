import OnePass.Proofs.Source.Places
import OnePass.Proofs.Token.Rescanning

namespace OnePass

namespace Scanner

/-- What stands between lexemes: a blank, or a comment with the end of its line. -/
inductive Filler where
  | blank (c : Char) (h : isSpace c = true)
  | comment (body : Text) (h : '\n' ∉ body.chars)

def Filler.text : Filler → Text
  | blank c _ => [.char c]
  | comment body _ => .char '#' :: (body ++ [.char '\n'])

/-- Fillers one after the other, at least one. -/
structure Separator where
  fillers : List Filler
  nonempty : fillers ≠ []

def Separator.text (s : Separator) : Text := s.fillers.flatMap Filler.text

/-- The lexemes of tokens in their order. Before the last `n + 1` of them stands the `n`-th separator. -/
def writeOut (separators : Nat → Separator) : List Token → Text
  | [] => []
  | [t] => t.lexeme
  | t :: u :: ts => t.lexeme ++ ((separators ts.length).text ++ writeOut separators (u :: ts))

theorem chars_comment (body : Text) :
    Text.chars (.char '#' :: (body ++ [.char '\n'])) = '#' :: (body.chars ++ ['\n']) := by
  simp [Text.chars, Glyph.toChar]

/-- A filler in front of a gap makes a longer gap. -/
theorem Filler.gap (f : Filler) {gap after : List Char} (h : Gap gap after) :
    Gap (f.text.chars ++ gap) after := by
  cases f with
  | blank c hc =>
    have hblank := Cursor.isSpace_iff.1 hc
    exact .blank (by tauto) h
  | comment body hbody =>
    rw [text, chars_comment, List.cons_append, List.append_assoc, List.singleton_append]
    refine .comment hbody ?_ (.blank (.inr (.inr (.inr rfl))) h)
    intro c hc
    cases hc
    rfl

theorem gap_fillers (fs : List Filler) (after : List Char) :
    Gap (Text.chars (fs.flatMap Filler.text)) after := by
  induction fs with
  | nil => exact .nil after
  | cons f fs ih =>
    rw [List.flatMap_cons, Text.chars, List.map_append]
    exact f.gap ih

theorem Filler.head (f : Filler) :
    ∃ c cs, f.text.chars = c :: cs ∧ (isSpace c = true ∨ c = '#') := by
  cases f with
  | blank c hc => exact ⟨c, [], rfl, .inl hc⟩
  | comment body _ => exact ⟨'#', _, chars_comment body, .inr rfl⟩

theorem Separator.head (s : Separator) :
    ∃ c cs, s.text.chars = c :: cs ∧ (isSpace c = true ∨ c = '#') := by
  obtain ⟨f, fs, hfillers⟩ := List.exists_cons_of_ne_nil s.nonempty
  obtain ⟨c, cs, hc, hblank⟩ := f.head
  refine ⟨c, cs ++ Text.chars (fs.flatMap Filler.text), ?_, hblank⟩
  rw [text, hfillers, List.flatMap_cons, Text.chars, List.map_append]
  exact congrArg (· ++ _) hc

/-- Neither a blank nor the beginning of a comment goes on with a word, a number or a sign. -/
theorem not_continues {c : Char} (hc : isSpace c = true ∨ c = '#') :
    isLower c = false ∧ isDigit c = false ∧ ∀ s ∈ signs, c ∉ s.2.spelling := by
  rcases hc with hc | rfl
  · rcases Cursor.isSpace_iff.1 hc with rfl | rfl | rfl | rfl <;> exact ⟨rfl, rfl, by decide⟩
  · exact ⟨rfl, rfl, by decide⟩

theorem Lexeme.longest_nil (l : Lexeme) : l.Longest [] := by
  constructor <;> simp

/-- In front of a separator a lexeme is as long as it can be. -/
theorem Lexeme.longest_separator (l : Lexeme) (s : Separator) (after : List Char) :
    l.Longest (s.text.chars ++ after) := by
  obtain ⟨c, cs, hs, hblank⟩ := s.head
  obtain ⟨hlower, hdigit, hsign⟩ := not_continues hblank
  have hhead : ∀ d, (s.text.chars ++ after).head? = some d → d = c := by
    intro d hd
    rw [hs] at hd
    cases hd
    rfl
  refine ⟨fun _ d hd => ?_, fun _ d hd => ?_, fun d hd r hr hspell => ?_⟩
  · rw [hhead d hd]
    exact ⟨hlower, hdigit⟩
  · rw [hhead d hd]
    exact hdigit
  · refine hsign r hr ?_
    rw [hspell, hhead d hd]
    exact List.mem_append_right _ List.mem_cons_self

end Scanner

open Scanner

/-- The lexeme of the token is one of its kind and attribute. -/
def Token.Spelled (t : Token) : Prop :=
  ∃ l : Lexeme, l.Valid ∧ t.kind = l.kind ∧ t.attr = l.attr ∧ t.lexeme = Text.ofChars l.chars

theorem Scanner.Tiled.spelled {before cs : List Char} {is : List Item} (h : Tiled before cs is)
    {t : Token} (ht : Except.ok t ∈ is) : t.Spelled := by
  induction h with
  | done => cases ht
  | item _ hi _ ih =>
    rcases List.mem_cons.1 ht with rfl | ht
    · cases hi with
      | token hl _ => exact ⟨_, hl, rfl, rfl, rfl⟩
    · exact ih ht

/-- A spelled token that is written somewhere is covered there by a token that is alike. -/
theorem Token.Spelled.covers {t : Token} (h : t.Spelled) (before : List Char) {after : List Char}
    (hlong : ∀ l : Lexeme, l.Longest after) :
    ∃ u, Covers before after t.lexeme.chars (.ok u) ∧ t.Alike u := by
  obtain ⟨l, hl, hkind, hattr, hlexeme⟩ := h
  rw [hlexeme, Text.chars_ofChars]
  exact ⟨_, .token hl (hlong l), hkind, hattr, hlexeme⟩

/-- Spelled tokens that are written out tile the text, also behind a gap. -/
theorem exists_tiled_writeOut (separators : Nat → Separator) {ts : List Token}
    (h : ∀ t ∈ ts, t.Spelled) (before : List Char) {gap : List Char}
    (hgap : Gap gap (writeOut separators ts).chars) :
    ∃ us : List Token, Tiled before (gap ++ (writeOut separators ts).chars) (us.map .ok) ∧
      List.Forall₂ Token.Alike ts us := by
  induction ts generalizing before gap with
  | nil =>
    refine ⟨[], ?_, .nil⟩
    rw [writeOut, Text.chars, List.map_nil, List.append_nil]
    exact .done hgap
  | cons t ts ih =>
    obtain ⟨ht, hts⟩ := List.forall_mem_cons.1 h
    cases ts with
    | nil =>
      obtain ⟨u, hu, hsame⟩ := ht.covers (before ++ gap) Lexeme.longest_nil
      refine ⟨[u], ?_, .cons hsame .nil⟩
      have hgap' : Gap gap (t.lexeme.chars ++ []) := by
        rw [List.append_nil]
        exact hgap
      have htiled : Tiled before (gap ++ t.lexeme.chars ++ []) [.ok u] := .item hgap' hu (.done (.nil []))
      rw [List.append_nil] at htiled
      exact htiled
    | cons v ts =>
      have hchars : (writeOut separators (t :: v :: ts)).chars = t.lexeme.chars ++
          ((separators ts.length).text.chars ++ (writeOut separators (v :: ts)).chars) := by
        rw [writeOut, Text.chars, List.map_append, List.map_append]
        rfl
      obtain ⟨u, hu, hsame⟩ := ht.covers (before ++ gap) fun l =>
        l.longest_separator (separators ts.length) (writeOut separators (v :: ts)).chars
      obtain ⟨us, hus, hrest⟩ := ih hts (before ++ gap ++ t.lexeme.chars)
        (gap_fillers (separators ts.length).fillers _)
      refine ⟨u :: us, ?_, .cons hsame hrest⟩
      rw [hchars] at hgap ⊢
      rw [← List.append_assoc]
      exact .item hgap hu hus

/-- Writing out the tokens of a source and scanning the text gives the same kinds, attributes and lexemes again,
whatever blanks and comments separate the lexemes. -/
theorem lex_writeOut {source : Text} {ts : List Token} (h : lex source = .ok ts)
    (separators : Nat → Separator) :
    ∃ us, lex (writeOut separators (ts.filter (·.kind ≠ .eof))) = .ok us ∧
      List.Forall₂ Token.Alike ts us := by
  obtain ⟨vs, e, hitems, rfl⟩ := items_of_lex h
  obtain ⟨htiled, -, hlast⟩ := (Cursor.ofText source).items_tiled [] rfl
  rw [hitems] at htiled hlast
  have hend : e.kind = .eof := congrArg Token.kind hlast
  have htokens : (vs ++ [e]).filter (·.kind ≠ .eof) = vs := by
    have hvs : vs.filter (·.kind ≠ .eof) = vs := by
      refine List.filter_eq_self.2 fun t ht => ?_
      simpa using Cursor.kind_ne_eof_of_tiled htiled (List.mem_map_of_mem ht)
    rw [List.filter_append, hvs]
    simp [hend]
  have hspelled : ∀ t ∈ vs, t.Spelled := fun t ht => htiled.spelled (List.mem_map_of_mem ht)
  obtain ⟨us, hus, hsame⟩ := exists_tiled_writeOut separators hspelled [] (.nil _)
  have hagain : (Cursor.ofText (writeOut separators vs)).items.1 = us.map .ok :=
    Cursor.items_of_tiled hus
  have hlast' := ((Cursor.ofText (writeOut separators vs)).items_tiled [] rfl).2.2
  have hends : e.Alike (Cursor.ofText (writeOut separators vs)).items.2 := by
    rw [hlast', show e = _ from hlast]
    exact ⟨rfl, rfl, rfl⟩
  rw [htokens]
  exact ⟨_, lex_of_items (Prod.ext hagain rfl), List.rel_append hsame (.cons hends .nil)⟩

/-- A source with words that differ from keywords by one character, and signs that begin like others. -/
def crampedSource : Text := "programs:=x1<>0 or(ifs<=7)>3<end0"

/-- A blank, and a comment with a stray byte and signs in it. -/
def commented : Separator :=
  ⟨[.blank ' ' rfl, .comment [.char '=', .stray 255, .char '#', .char '>'] (by decide), .blank '\t' rfl],
    by simp⟩

theorem lex_writeOut_cramped :
    ∃ ts us, lex crampedSource = .ok ts ∧
      ts.map Token.lexeme = ["programs", ":=", "x1", "<>", "0", "or", "(", "ifs", "<=", "7", ")", ">", "3", "<",
        "end0", ""] ∧
      lex (writeOut (fun _ => commented) (ts.filter (·.kind ≠ .eof))) = .ok us ∧
      List.Forall₂ Token.Alike ts us := by
  have hlexemes : (lex crampedSource).map (List.map Token.lexeme) = .ok ["programs", ":=", "x1", "<>", "0", "or",
      "(", "ifs", "<=", "7", ")", ">", "3", "<", "end0", ""] := by decide +kernel
  cases hlex : lex crampedSource with
  | error e =>
    rw [hlex] at hlexemes
    cases hlexemes
  | ok ts =>
    rw [hlex] at hlexemes
    obtain ⟨us, hus, hsame⟩ := lex_writeOut hlex fun _ => commented
    exact ⟨ts, us, rfl, Except.ok.inj hlexemes, hus, hsame⟩

end OnePass

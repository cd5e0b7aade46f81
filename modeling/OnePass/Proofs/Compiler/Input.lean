import OnePass.Proofs.Compiler.Success
import OnePass.Proofs.Source.Syntax

namespace OnePass

/-- A lower-case letter, then lower-case letters and digits. -/
def Text.IsIdentifier (x : Text) : Prop :=
  ∃ c cs, x = Text.ofChars (c :: cs) ∧ Scanner.isLower c = true ∧
    ∀ d ∈ cs, Scanner.isWordPart d = true

/-- A token as the scanner makes it: a word, a numeral, or a reserved word or sign. -/
def Token.Scanned (t : Token) : Prop :=
  (t.kind = .identifier ∧ t.lexeme.IsIdentifier) ∨
    (t.kind = .number ∧ ∃ c cs, t.lexeme = Text.ofChars (c :: cs) ∧
      ∀ d ∈ c :: cs, Scanner.isDigit d = true) ∨
    (t.kind, t.attr) ∈ Scanner.reserved ++ Scanner.signs

theorem Token.Scanned.kind_ne_eof {t : Token} (h : t.Scanned) : t.kind ≠ .eof := by
  intro hk
  rcases h with ⟨h, -⟩ | ⟨h, -⟩ | h
  · rw [hk] at h
    cases h
  · rw [hk] at h
    cases h
  · rw [hk] at h
    simp [Scanner.reserved, Scanner.signs] at h

theorem Token.Scanned.isIdentifier {t : Token} (h : t.Scanned) (hk : t.kind = .identifier) :
    t.lexeme.IsIdentifier := by
  rcases h with ⟨-, h⟩ | ⟨h, -⟩ | h
  · exact h
  · rw [hk] at h
    cases h
  · rw [hk] at h
    simp [Scanner.reserved, Scanner.signs] at h

namespace Scanner

/-- What the scanner takes for a lexeme becomes a scanned token. -/
theorem scanned_of_lexeme? {cs : List Char} {l : Lexeme} (h : lexeme? cs = some l) (p : Pos) :
    Token.Scanned ⟨l.kind, l.attr, Text.ofChars l.chars, p.line, p.col⟩ := by
  cases cs with
  | nil => simp [lexeme?] at h
  | cons c cs =>
    simp only [lexeme?] at h
    split at h
    · rename_i hc
      cases h
      have hp : isWordPart c = true := by simp [isWordPart, hc]
      unfold word
      split
      · rename_i r hr
        exact .inr (.inr (List.mem_append_left _ (List.mem_of_find?_eq_some hr)))
      · refine .inl ⟨rfl, c, cs.takeWhile isWordPart, ?_, hc, ?_⟩
        · simp [hp]
        · intro d hd
          exact List.all_eq_true.1 List.all_takeWhile d hd
    · split at h
      · rename_i hd
        cases h
        refine .inr (.inl ⟨rfl, c, cs.takeWhile isDigit, by simp [hd], ?_⟩)
        intro d hm
        rcases List.mem_cons.1 hm with rfl | hm
        · exact hd
        · exact List.all_eq_true.1 List.all_takeWhile d hm
      · obtain ⟨s, hs, rfl⟩ := Option.map_eq_some_iff.1 h
        exact .inr (.inr (List.mem_append_right _ (List.mem_of_find?_eq_some hs)))

end Scanner

namespace Cursor

/-- The items of a source are scanned tokens and errors, and the end of input closes them. -/
theorem items_scanned (u : Cursor) :
    (∀ t, .ok t ∈ u.items.1 → t.Scanned) ∧ u.items.2.kind = .eof := by
  induction h : u.rest.length using Nat.strongRecOn generalizing u with
  | _ n ih =>
    rw [items]
    split
    · exact ⟨by simp, rfl⟩
    · rename_i c cs hrest
      have hlt : (u.skip.item c cs).2.rest.length < n := by
        have h1 := skipGap_length_le false u.rest u.pos
        have h2 := item_length_lt u.skip c cs
        have h3 : (skipGap false u.rest u.pos).rest = c :: cs := hrest
        rw [h3] at h1
        omega
      obtain ⟨hitems, hfinal⟩ := ih _ hlt _ rfl
      refine ⟨fun t ht => ?_, hfinal⟩
      rcases List.mem_cons.1 ht with ht | ht
      · unfold item at ht
        split at ht
        · rename_i l hl
          cases ht
          exact Scanner.scanned_of_lexeme? hl _
        · cases ht
      · exact hitems t ht

end Cursor

namespace Compiler

open Assembly

namespace State

/-- The lookahead and the items after it, up to the end of input. -/
def input (s : State) : List Item :=
  if s.lookahead.kind = .eof then [] else .ok s.lookahead :: s.feed.items

/-- Tokens come from the scanner, and the feed ends with the end of input. -/
structure Fed (s : State) : Prop where
  final : s.feed.final.kind = .eof
  items : ∀ t, .ok t ∈ s.feed.items → t.Scanned
  lookahead : s.lookahead.kind = .eof ∨ s.lookahead.Scanned

theorem Fed.scanned {s : State} (h : s.Fed) (hk : s.lookahead.kind ≠ .eof) :
    s.lookahead.Scanned := h.lookahead.resolve_left hk

end State

theorem Token.is_iff {t : Token} {k : Kind} {a : Attr} :
    t.is k a = true ↔ t.kind = k ∧ t.attr = a := by
  simp [Token.is]

open Source

/-- The sign of a token that may stand before a factor. -/
theorem exists_sign {t : Token} (h : (t.is .addop .plus || t.is .addop .minus ||
    t.is .keyword .notKw) = true) : ∃ sg : Sign, t.is sg.kind sg.attr = true ∧ t.attr = sg.attr := by
  simp only [Bool.or_eq_true] at h
  rcases h with (h | h) | h
  · exact ⟨.plus, h, (Token.is_iff.1 h).2⟩
  · exact ⟨.minus, h, (Token.is_iff.1 h).2⟩
  · exact ⟨.not, h, (Token.is_iff.1 h).2⟩

/-- The operator of a scanned token. -/
theorem exists_operator {t : Token} (ht : t.Scanned)
    (hk : t.kind = .mulop ∨ t.kind = .addop ∨ t.kind = .relop) :
    ∃ op : Operator, op.kind = t.kind ∧ op.attr = t.attr := by
  have hm : (t.kind, t.attr) ∈ Scanner.reserved ++ Scanner.signs := by
    rcases ht with ⟨h, -⟩ | ⟨h, -⟩ | h
    · rw [h] at hk
      simp at hk
    · rw [h] at hk
      simp at hk
    · exact h
  have hall : ∀ p ∈ Scanner.reserved ++ Scanner.signs,
      p.1 = .mulop ∨ p.1 = .addop ∨ p.1 = .relop →
        (p.1, p.2) ∈ [Operator.times, .slash, .and, .plus, .minus, .or, .equal, .notEqual,
          .greater, .greaterEqual, .less, .lessEqual].map fun op => (op.kind, op.attr) := by
    decide
  obtain ⟨op, -, hop⟩ := List.mem_map.1 (hall _ hm hk)
  exact ⟨op, (Prod.mk.inj hop).1, (Prod.mk.inj hop).2⟩

end Compiler

end OnePass

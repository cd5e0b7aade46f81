import OnePass.Proofs.Compiler.Termination
import OnePass.Proofs.Pipeline.Diagnostics
import OnePass.Proofs.Pipeline.Registers
import OnePass.Proofs.Pipeline.Writer

namespace OnePass

open Compiler Compiler.Intake Scanner

theorem Scanner.StandsAt.positive {source cs : List Char} {line col : Int} (h : StandsAt source cs line col) :
    1 ≤ line ∧ 1 ≤ col := by
  obtain ⟨-, before, -, -, rfl, rfl⟩ := h
  constructor
  · unfold lineAfter
    omega
  · unfold columnAfter
    omega

namespace Compiler

/-- The first step of a call replaces the lookahead. -/
theorem State.parse_lookahead (o : Options) (s : State) (u : Token) :
    ({ s with lookahead := u }.parse o).1 = (s.parse o).1 ∧
      ((s.parse o).1 = none → ({ s with lookahead := u }.parse o).2 = (s.parse o).2) := by
  have hnext : ({ s with lookahead := u } : State).feed = s.feed := rfl
  unfold State.parse
  rw [Pass.parse, Pass.run_bind, Pass.run_bind, Pass.run_advance_reclaim, Pass.run_advance_reclaim, hnext]
  cases s.feed.next with
  | mk item feed =>
    cases item with
    | ok t => exact ⟨rfl, fun _ => rfl⟩
    | error e => exact ⟨rfl, fun h => by cases h⟩

namespace Likeness

/-- One run beside itself: every token has a line. -/
def numbered : Likeness :=
  sameOutput (fun t u => t = u ∧ 0 < t.line) Eq (congrArg Token.kind ·.1) (congrArg Token.attr ·.1)
    (congrArg Token.lexeme ·.1)

theorem numbered_feed (source : Text) :
    numbered.Feed (Feed.ofSource source) (Feed.ofSource source) := by
  obtain ⟨hitems, hfinal⟩ := ofSource_stands source
  constructor
  · refine List.forall₂_same.2 fun i hi => ?_
    have hstands := hitems i hi
    cases i with
    | ok t => exact .ok ⟨rfl, hstands.1.positive.1⟩
    | error e => exact .error rfl
  · exact ⟨rfl, hfinal.1.positive.1⟩

end Likeness

section Ends

variable {o : Options} {source : Text} {s : State}

theorem error_of_none (h : (State.init (Feed.ofSource source)).parse o = (none, s)) :
    (compile o source).error = if s.done then none else some (.extraTokens s.lookahead) := by
  unfold compile
  rw [h]

theorem error_of_some {e : CompileError}
    (h : (State.init (Feed.ofSource source)).parse o = (some e, s)) :
    (compile o source).error = some e := by
  unfold compile
  rw [h]

end Ends

/-- An error about a token is about one of the source. -/
theorem line_pos {o : Options} {source : Text} {e : CompileError} {t : Token}
    (he : (compile o source).error = some e) (ht : e.token? = some t) : 0 < t.line := by
  let s : State := State.init (Feed.ofSource source)
  have hfeed := Likeness.numbered_feed source
  -- the lookahead of a new translator has no line, but it is never looked at
  have hstart : Likeness.numbered.State 0 { s with lookahead := s.feed.final }
      { s with lookahead := s.feed.final } :=
    { feed := hfeed
      delivered := rfl
      lookahead := hfeed.final
      symbols := rfl
      main := ⟨rfl, rfl, rfl, rfl⟩
      scratch := rfl
      depth := rfl
      program := rfl
      scope := rfl
      events := .nil }
  obtain ⟨herror, hstate⟩ := Likeness.parse_alike (congrArg Assembly.Listing.refused) o hstart
  obtain ⟨hsame, hend⟩ := State.parse_lookahead o s s.feed.final
  rw [hsame] at herror
  cases hparse : s.parse o with
  | mk r s' =>
    rw [hparse] at hend herror
    cases r with
    | none =>
      rw [hend rfl] at hstate
      rw [error_of_none hparse] at he
      split at he
      · cases he
      · cases he
        cases ht
        exact hstate.lookahead.2
    | some e' =>
      rw [error_of_some hparse] at he
      cases he
      cases herror with
      | some h =>
        cases h with
        | unexpected h | extraTokens h | semantic h =>
          cases ht
          exact h.2
        | lexical _ | internal | outputFull => cases ht

/-- The output takes every line: a call that gets through fails at most for what follows the program. -/
theorem error_of_translated {o : Options} {source : Text} {s : State}
    (h : Pass.translate.run o (State.init (Feed.ofSource source)) = (.ok (), s)) :
    (compile o source).error = if s.done then none else some (.extraTokens s.lookahead) := by
  have hwriting := (State.parse_through Assembly.Listing.transparent_discard o
    (State.writing_init (Feed.ofSource source))).1
  have hstate : ((State.init (Feed.ofSource source)).parse o).2 = s := by
    have hlast := Descent.state_parse o (State.init (Feed.ofSource source))
    rw [h] at hlast
    unfold State.parse
    cases hrun : Pass.parse.run o (State.init (Feed.ofSource source)) with
    | mk r s' =>
      rw [hrun] at hlast
      cases r <;> exact hlast
  rw [hstate] at hwriting
  obtain ⟨hscratch, -, -, hrefused⟩ := hwriting
  apply error_of_none
  rw [State.parse_of_ok h hscratch, hrefused]
  rfl

/-- A number of the source that cannot be read is too large. -/
theorem overlong_of_stops {source : Text} {i j : Intake} {x : NumeralError}
    (hfeed : i.feed = Feed.ofSource source) (hi : i.lookahead.kind ≠ .number) (hsteps : Steps i j)
    (hk : j.lookahead.kind = .number) (hx : Numeral.readWord j.lookahead.lexeme = .error x) :
    .ok j.lookahead ∈ (Feed.ofSource source).items ∧
      wordLimit ≤ Nat.ofDigitChars 10 j.lookahead.lexeme.chars 0 ∧ x = .outOfRange := by
  obtain ⟨hscanned, hfinal⟩ := (Cursor.ofText source).items_scanned
  have hmem : .ok j.lookahead ∈ (Feed.ofSource source).items := by
    rcases hsteps.lookahead_mem with h | h | h
    · exact absurd (h ▸ hk) hi
    · exact hfeed ▸ h
    · have hend : j.lookahead.kind = .eof := by
        rw [h, hfeed]
        exact hfinal
      rw [hk] at hend
      cases hend
  have hread := Pass.readWord_lexeme (hscanned _ hmem) hk
  rw [hx] at hread
  split at hread
  · cases hread
  · cases hread
    exact ⟨hmem, by omega, rfl⟩

/-- What the errors of a compilation are about. -/
theorem error_cases {trace : Bool} {source : Text} {e : CompileError}
    (he : (compile { trace } source).error = some e) :
    (∃ x, e = .lexical x) ∨ (∃ t, e.token? = some t) ∨
      ∃ t, .ok t ∈ (Feed.ofSource source).items ∧ t.kind = .number ∧
        wordLimit ≤ Nat.ofDigitChars 10 t.lexeme.chars 0 ∧
        e = .internal (.numeral t.lexeme .outOfRange) := by
  have hfinal := (Cursor.ofText source).items_scanned.2
  have hopen : ({ kind := .other 0 } : Token).kind ≠ .eof := by simp
  have htook := (Descent.translate_follows { trace } (State.init (Feed.ofSource source)) hfinal hopen (Nat.le_refl _)).2
  cases hrun : Pass.translate.run { trace } (State.init (Feed.ofSource source)) with
  | mk r s =>
    rw [hrun] at htook
    cases htook with
    | ok _ =>
      rw [error_of_translated hrun] at he
      split at he
      · cases he
      · cases he
        exact .inr (.inl ⟨_, rfl⟩)
    | @error e' j s hsteps hstops =>
      have hparse := error_of_some (State.parse_of_error hrun)
      rw [hparse] at he
      cases he
      generalize s.intake = l at hstops
      cases hstops with
      | lexical _ _ => exact .inl ⟨_, rfl⟩
      | plain hplain =>
        rcases hplain with htoken | ⟨x, rfl⟩
        · exact .inr (.inl htoken)
        · exact absurd hparse (error_ne_register trace source x)
      | numeral hk hx =>
        obtain ⟨hmem, hlarge, rfl⟩ := overlong_of_stops rfl (by simp) hsteps hk hx
        exact .inr (.inr ⟨_, hmem, hk, hlarge, rfl⟩)

end Compiler

variable {trace : Bool} {source : Text} {e : CompileError}

/-- An error of a source has a place, or it is about a number of the source that is no machine word: that is the
only way in which a source is taken for a fault of the compiler. -/
theorem errors_located
    (h : (compile { trace } source).error = some e ∨ (check { trace } source).error = some e) :
    (∃ line col, e.position? = some (line, col) ∧ 1 ≤ line ∧ 1 ≤ col) ∨
      ∃ t, .ok t ∈ (Feed.ofSource source).items ∧ t.kind = .number ∧
        wordLimit ≤ Nat.ofDigitChars 10 t.lexeme.chars 0 ∧
        e = .internal (.numeral t.lexeme .outOfRange) := by
  have he : (compile { trace } source).error = some e := by
    rcases h with h | h
    · exact h
    · rwa [check_eq] at h
  have hplace : ∀ {line col : Int}, e.position? = some (line, col) →
      ∃ line col, e.position? = some (line, col) ∧ 1 ≤ line ∧ 1 ≤ col := by
    intro line col hp
    obtain ⟨cs, hstands, -⟩ := stands_of_position he hp
    exact ⟨line, col, hp, hstands.positive⟩
  rcases error_cases he with ⟨x, rfl⟩ | ⟨t, ht⟩ | hlarge
  · exact .inl (hplace rfl)
  · have hp := position_of_token ht
    rw [if_pos (line_pos he ht)] at hp
    exact .inl (hplace hp)
  · exact .inr hlarge

/-- A number one above the largest machine word. -/
def overlong : Text := "program p; begin print 9223372036854775808; end;"

theorem compile_overlong :
    (compile {} overlong).error = some (.internal (.numeral "9223372036854775808" .outOfRange)) := by
  decide +kernel

/-- A variable that is not declared. -/
def undeclared : Text := "program p;\nbegin\n  x := 1;\nend;"

theorem compile_undeclared :
    (compile {} undeclared).error =
      some (.semantic (.notDeclared "x") ⟨.identifier, .none, "x", 3, 3⟩) := by
  decide +kernel

theorem errors_located_overlong_undeclared :
    ((compile {} overlong).error = some (.internal (.numeral "9223372036854775808" .outOfRange)) ∧
      ∃ t, .ok t ∈ (Feed.ofSource overlong).items ∧ t.kind = .number ∧
        wordLimit ≤ Nat.ofDigitChars 10 t.lexeme.chars 0 ∧ t.lexeme = Text.ofString "9223372036854775808") ∧
    (check {} undeclared).error =
        some (.semantic (.notDeclared "x") ⟨.identifier, .none, "x", 3, 3⟩) ∧
      ∃ line col, (CompileError.semantic (.notDeclared "x")
          ⟨.identifier, .none, "x", 3, 3⟩).position? = some (line, col) ∧ 1 ≤ line ∧ 1 ≤ col := by
  have hcheck : (check {} undeclared).error =
      some (.semantic (.notDeclared "x") ⟨.identifier, .none, "x", 3, 3⟩) := by
    rw [check_eq]
    exact compile_undeclared
  refine ⟨⟨compile_overlong, ?_⟩, hcheck, ?_⟩
  · rcases errors_located (.inl compile_overlong) with ⟨line, col, hp, -⟩ | ⟨t, hmem, hk, hlarge, he⟩
    · cases hp
    · have hlexeme : Text.ofString "9223372036854775808" = t.lexeme := by
        injection he with he
        injection he
      exact ⟨t, hmem, hk, hlarge, hlexeme.symm⟩
  · rcases errors_located (.inr hcheck) with hplace | ⟨t, -, -, -, he⟩
    · exact hplace
    · cases he

/-- A source alone is taken for a fault of the compiler, and the error has no place. -/
theorem overlong_internal :
    (compile {} overlong).error = some (.internal (.numeral "9223372036854775808" .outOfRange)) ∧
      (check {} overlong).error = some (.internal (.numeral "9223372036854775808" .outOfRange)) ∧
      (CompileError.internal (.numeral "9223372036854775808" .outOfRange)).position? = none := by
  refine ⟨compile_overlong, ?_, rfl⟩
  rw [check_eq]
  exact compile_overlong

end OnePass

import OnePass.Proofs.Pipeline.Acceptance
import OnePass.Proofs.Pipeline.Sentences

namespace OnePass.Compiler

open Assembly Source Source.Grammar

variable {trace : Bool} {source : Text} {ts : List Token} {e : Token}

/-- A source is compiled exactly if its program keeps the rules. -/
theorem success_iff {p : Program} (hlex : lex source = .ok (ts ++ [e])) (hp : ProgramDerives ts p) :
    (compile { trace } source).outcome = .success ↔ p.WellFormed := by
  have hdecides : Pass.parse.Decides trace (State.init (Feed.ofSource source)) p.Fits
      fun _ s => s.done = true ∧ ∃ g, Pass.HasRead s ts p g := Pass.parse_reads hlex hp
  rw [Program.wellFormed_iff hp.introduces.known]
  constructor
  · intro h
    obtain ⟨hparse, -⟩ := parse_of_success h
    cases hrun : Pass.parse.run { trace } (State.init (Feed.ofSource source)) with
    | mk r s =>
      cases r with
      | ok u => exact hdecides.holds u s hrun
      | error c => simp [State.parse, hrun] at hparse
  · intro h
    obtain ⟨_, s, hrun, hdone, -⟩ := hdecides.gives h
    have herror := (error_of_run hrun).2
    simp [Compilation.outcome, herror, hdone, Outcome.ofError]

/-- The checks of a compilation decide the rules on declarations and types. A source whose tokens derive from
the grammar denotes one program, and it is compiled exactly if this program keeps the rules. -/
theorem compile_checks (hlex : lex source = .ok (ts ++ [e]))
    (hts : ts.map Token.terminal ∈ grammar.language) :
    ∃ p, (∀ p', Denotes source p' ↔ p' = p) ∧
      ((compile { trace } source).outcome = .success ↔ p.WellFormed) := by
  obtain ⟨p, hp⟩ := exists_program hts
  have hdenotes : Denotes source p := ⟨ts, e, hlex, hp⟩
  refine ⟨p, fun p' => ⟨fun hp' => hp'.unique hdenotes, ?_⟩, success_iff hlex hp⟩
  intro heq
  rw [heq]
  exact hdenotes

/-- A call with more actual parameters than the procedure has formal ones. -/
def surplusActual : Text := "program p; procedure q(a: int) begin ; end; begin q(1, 2); end;"

def surplusActualTokens : List Token :=
  [⟨.keyword, .programKw, "program", 1, 1⟩, ⟨.identifier, .none, "p", 1, 9⟩,
    ⟨.punct, .semicolon, ";", 1, 10⟩, ⟨.keyword, .procedureKw, "procedure", 1, 12⟩,
    ⟨.identifier, .none, "q", 1, 22⟩, ⟨.punct, .leftParen, "(", 1, 23⟩,
    ⟨.identifier, .none, "a", 1, 24⟩, ⟨.punct, .colon, ":", 1, 25⟩,
    ⟨.keyword, .intKw, "int", 1, 27⟩, ⟨.punct, .rightParen, ")", 1, 30⟩,
    ⟨.keyword, .beginKw, "begin", 1, 32⟩, ⟨.punct, .semicolon, ";", 1, 38⟩,
    ⟨.keyword, .endKw, "end", 1, 40⟩, ⟨.punct, .semicolon, ";", 1, 43⟩,
    ⟨.keyword, .beginKw, "begin", 1, 45⟩, ⟨.identifier, .none, "q", 1, 51⟩,
    ⟨.punct, .leftParen, "(", 1, 52⟩, ⟨.number, .none, "1", 1, 53⟩, ⟨.punct, .comma, ",", 1, 54⟩,
    ⟨.number, .none, "2", 1, 56⟩, ⟨.punct, .rightParen, ")", 1, 57⟩,
    ⟨.punct, .semicolon, ";", 1, 58⟩, ⟨.keyword, .endKw, "end", 1, 60⟩,
    ⟨.punct, .semicolon, ";", 1, 63⟩]

theorem compile_checks_surplusActual :
    lex surplusActual = .ok (surplusActualTokens ++ [⟨.eof, .none, [], 1, 64⟩]) ∧
      surplusActualTokens.map Token.terminal ∈ grammar.language ∧
      (compile {} surplusActual).outcome = .fatal ∧
      ∃ p, (∀ p', Denotes surplusActual p' ↔ p' = p) ∧
        ((compile {} surplusActual).outcome = .success ↔ p.WellFormed) := by
  have hlex : lex surplusActual = .ok (surplusActualTokens ++ [⟨.eof, .none, [], 1, 64⟩]) := by
    decide +kernel
  have hts : surplusActualTokens.map Token.terminal ∈ grammar.language :=
    mem_language_of_accepts (n := 100) (by decide +kernel)
  exact ⟨hlex, hts, by decide +kernel, compile_checks hlex hts⟩

end OnePass.Compiler

import OnePass.Proofs.Pipeline.StaticSemantics
import OnePass.Proofs.Source.Clearing

namespace OnePass.Compiler

open Source

variable {trace : Bool} {source source' : Text} {ts us ts' : List Token} {e e' : Token}

/-- A compilation that ends well has read a program from all the tokens. -/
theorem hasRead_of_success (hlex : lex source = .ok (ts ++ [e]))
    (h : (compile { trace } source).outcome = .success) :
    ∃ p g, Pass.HasRead (finalState { trace } source) ts p g := by
  obtain ⟨hparse, hdone⟩ := parse_of_success h
  obtain ⟨ts₁, p, g, e₁, hlex₁, hread⟩ := parse_sound hparse hdone
  have hsame : ts ++ [e] = ts₁ ++ [e₁] := by
    rw [hlex] at hlex₁
    exact Except.ok.inj hlex₁
  obtain ⟨rfl, -⟩ := List.append_inj' hsame rfl
  exact ⟨p, g, hread⟩

/-- What a compilation that ends well leaves depends on the declarations and the main block only. -/
theorem output_eq_of_hasRead {s s' : State} {p p' : Program} {g g' : Generator}
    (h : Pass.HasRead s ts p g) (h' : Pass.HasRead s' ts' p' g') (hname : p'.name = p.name)
    (hentries : p'.entries = p.entries) (hlower : p'.lower = p.lower) :
    s'.symbols = s.symbols ∧ s'.main = s.main := by
  have hsymbols : s'.symbols = s.symbols := by rw [h'.symbols, h.symbols, hentries]
  have hgen : g' = g := by
    have hl := h'.lower
    rw [hlower] at hl
    have hboth := Eq.trans (Eq.symm hl) h.lower
    exact congrArg Prod.snd hboth
  refine ⟨hsymbols, ?_⟩
  rw [h'.main, h.main, hsymbols, hname, hgen]

/-- Clearing keeps a source compilable, and its compilation the same: text for text and symbol for symbol. The
cleared source may be laid out in any way. -/
theorem compile_clears (hlex : lex source = .ok (ts ++ [e]))
    (hsuccess : (compile { trace } source).outcome = .success) (hclears : Clears ts us)
    (hlaid : Relaid us ts') (hlex' : lex source' = .ok (ts' ++ [e'])) :
    (compile { trace } source').outcome = .success ∧
      (compile { trace } source').assembly = (compile { trace } source).assembly ∧
      (compile { trace } source').symbols = (compile { trace } source).symbols := by
  obtain ⟨p, g, hread⟩ := hasRead_of_success hlex hsuccess
  obtain ⟨p', hcleared, hstrip⟩ := hread.derives.clears hclears
  have hp' : ProgramDerives ts' p' := hcleared.relaid hlaid
  have hwell : p'.WellFormed :=
    hstrip.wellFormed ((success_iff hlex hread.derives).1 hsuccess)
  have hsuccess' : (compile { trace } source').outcome = .success :=
    (success_iff hlex' hp').2 hwell
  obtain ⟨p₁, g', hread'⟩ := hasRead_of_success hlex' hsuccess'
  obtain rfl := hread'.derives.unique hp'
  obtain ⟨hsymbols, hmain⟩ :=
    output_eq_of_hasRead hread hread' hstrip.name hstrip.entries hstrip.lower
  have hcode : (compile { trace } source').code = (compile { trace } source).code :=
    congrArg (fun g => g.listing.written.toList) hmain
  exact ⟨hsuccess', congrArg Assembly.render hcode, hsymbols⟩

def printingProcedure : Text := "program p; procedure q(a: int) begin print a; end; begin q(1); end;"

def printingProcedureTokens : List Token :=
  [⟨.keyword, .programKw, "program", 1, 1⟩, ⟨.identifier, .none, "p", 1, 9⟩,
    ⟨.punct, .semicolon, ";", 1, 10⟩, ⟨.keyword, .procedureKw, "procedure", 1, 12⟩,
    ⟨.identifier, .none, "q", 1, 22⟩, ⟨.punct, .leftParen, "(", 1, 23⟩,
    ⟨.identifier, .none, "a", 1, 24⟩, ⟨.punct, .colon, ":", 1, 25⟩,
    ⟨.keyword, .intKw, "int", 1, 27⟩, ⟨.punct, .rightParen, ")", 1, 30⟩,
    ⟨.keyword, .beginKw, "begin", 1, 32⟩, ⟨.keyword, .printKw, "print", 1, 38⟩,
    ⟨.identifier, .none, "a", 1, 44⟩, ⟨.punct, .semicolon, ";", 1, 45⟩,
    ⟨.keyword, .endKw, "end", 1, 47⟩, ⟨.punct, .semicolon, ";", 1, 50⟩,
    ⟨.keyword, .beginKw, "begin", 1, 52⟩, ⟨.identifier, .none, "q", 1, 58⟩,
    ⟨.punct, .leftParen, "(", 1, 59⟩, ⟨.number, .none, "1", 1, 60⟩,
    ⟨.punct, .rightParen, ")", 1, 61⟩, ⟨.punct, .semicolon, ";", 1, 62⟩,
    ⟨.keyword, .endKw, "end", 1, 64⟩, ⟨.punct, .semicolon, ";", 1, 67⟩]

def clearedProcedure : Text := "program p; procedure q(a: int) begin ; end; begin q(); end;"

def clearedProcedureTokens : List Token :=
  [⟨.keyword, .programKw, "program", 1, 1⟩, ⟨.identifier, .none, "p", 1, 9⟩,
    ⟨.punct, .semicolon, ";", 1, 10⟩, ⟨.keyword, .procedureKw, "procedure", 1, 12⟩,
    ⟨.identifier, .none, "q", 1, 22⟩, ⟨.punct, .leftParen, "(", 1, 23⟩,
    ⟨.identifier, .none, "a", 1, 24⟩, ⟨.punct, .colon, ":", 1, 25⟩,
    ⟨.keyword, .intKw, "int", 1, 27⟩, ⟨.punct, .rightParen, ")", 1, 30⟩,
    ⟨.keyword, .beginKw, "begin", 1, 32⟩, ⟨.punct, .semicolon, ";", 1, 38⟩,
    ⟨.keyword, .endKw, "end", 1, 40⟩, ⟨.punct, .semicolon, ";", 1, 43⟩,
    ⟨.keyword, .beginKw, "begin", 1, 45⟩, ⟨.identifier, .none, "q", 1, 51⟩,
    ⟨.punct, .leftParen, "(", 1, 52⟩, ⟨.punct, .rightParen, ")", 1, 53⟩,
    ⟨.punct, .semicolon, ";", 1, 54⟩, ⟨.keyword, .endKw, "end", 1, 56⟩,
    ⟨.punct, .semicolon, ";", 1, 59⟩]

theorem compile_clears_printingProcedure :
    lex printingProcedure = .ok (printingProcedureTokens ++ [⟨.eof, .none, [], 1, 68⟩]) ∧
      (compile {} printingProcedure).outcome = .success ∧
      (∃ us, Clears printingProcedureTokens us ∧ Relaid us clearedProcedureTokens) ∧
      lex clearedProcedure = .ok (clearedProcedureTokens ++ [⟨.eof, .none, [], 1, 60⟩]) ∧
      (compile {} clearedProcedure).outcome = .success ∧
      (compile {} clearedProcedure).assembly = (compile {} printingProcedure).assembly ∧
      (compile {} clearedProcedure).symbols = (compile {} printingProcedure).symbols := by
  have hlex : lex printingProcedure = .ok (printingProcedureTokens ++ [⟨.eof, .none, [], 1, 68⟩]) := by
    decide +kernel
  have hlex' : lex clearedProcedure = .ok (clearedProcedureTokens ++ [⟨.eof, .none, [], 1, 60⟩]) := by
    decide +kernel
  have hsuccess : (compile {} printingProcedure).outcome = .success := by decide +kernel
  have hvar : ExprForm.expr.Derives [⟨.identifier, .none, "a", 1, 44⟩] (.var "a") :=
    .plain (.simple (.term (.identifier rfl) .termDone) .simpleDone)
  have hone : ExprForm.expr.Derives [⟨.number, .none, "1", 1, 60⟩] (.num 1) :=
    .plain (.simple (.term (.number rfl) .termDone) .simpleDone)
  have hheading : Heading ((printingProcedureTokens.drop 3).take 7) :=
    .mk rfl rfl rfl (.some (.last (.mk (.last rfl) rfl (.int rfl)))) rfl .none
  have hbody : StmtForm.block.Derives ((printingProcedureTokens.drop 10).take 5)
      (.seq (.print (.var "a")) .skip) :=
    .block rfl (.first (.print rfl hvar) rfl .done) rfl
  obtain ⟨us, hclears, hlaid⟩ :
      ∃ us, Clears printingProcedureTokens us ∧ Relaid us clearedProcedureTokens :=
    ⟨_, .keep _ (.keep _ (.keep _ (.body (b := ⟨.keyword, .beginKw, "begin", 0, 0⟩)
      (s := ⟨.punct, .semicolon, ";", 0, 0⟩) (e := ⟨.keyword, .endKw, "end", 0, 0⟩) hheading hbody rfl rfl
      rfl (.keep _ (.keep _ (.actuals rfl rfl (.some (.last hone)) rfl (.keep _ (.keep _ (.keep _
      .nil))))))))), by decide⟩
  exact ⟨hlex, hsuccess, ⟨us, hclears, hlaid⟩, hlex', compile_clears hlex hsuccess hclears hlaid hlex'⟩

end OnePass.Compiler

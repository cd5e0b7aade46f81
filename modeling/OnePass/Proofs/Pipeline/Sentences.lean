import OnePass.Proofs.Pipeline.Output

namespace OnePass

open Source ContextFreeGrammar Source.Grammar

namespace Compiler

/-- How many tokens a compilation has taken when it ends; the lookahead is not among them. -/
def tokensTaken (o : Options) (source : Text) : Nat := (finalState o source).delivered - 1

/-- The tokens that were read, and those that are left. -/
theorem Reads.split {s s' : State} {ts us : List Token} (h : Reads s us s')
    (hs : s.input = ts.map .ok) : ∃ vs, ts = us ++ vs ∧ s'.input = vs.map .ok := by
  rw [h.input] at hs
  obtain ⟨us', vs, hts, hus, hvs⟩ := List.map_eq_append_iff.1 hs.symm
  have hinj : Function.Injective (Except.ok : Token → Item) := fun _ _ h => Except.ok.inj h
  refine ⟨vs, ?_, hvs.symm⟩
  rw [hts, hinj.list_map hus]

variable {trace : Bool} {source : Text} {ts : List Token} {e : Token}

/-- What a compilation answers, by the end of its run. -/
theorem error_of_run {r : Except CompileError Unit} {s : State}
    (h : Pass.parse.run { trace } (State.init (Feed.ofSource source)) = (r, s)) :
    finalState { trace } source = s ∧
      (compile { trace } source).error =
        match r with
        | .ok _ => if s.done then none else some (.extraTokens s.lookahead)
        | .error e => some e := by
  cases r with
  | ok _ => simp [finalState, compile, State.parse, h]
  | error e => simp [finalState, compile, State.parse, h]

theorem State.input_eq_nil {s : State} {vs : List Token} (h : s.input = vs.map .ok)
    (hk : s.lookahead.kind = .eof) : vs = [] := by
  rw [State.input, if_pos hk] at h
  exact List.map_eq_nil_iff.1 h.symm

theorem State.input_eq_cons {s : State} {vs : List Token} (h : s.input = vs.map .ok)
    (hk : s.lookahead.kind ≠ .eof) : ∃ vs', vs = s.lookahead :: vs' := by
  rw [State.input, if_neg hk] at h
  obtain ⟨v, vs', hvs, hv, -⟩ := List.map_eq_cons_iff.1 h.symm
  rw [Except.ok.inj hv] at hvs
  exact ⟨vs', hvs⟩

theorem State.ahead_of_input {s : State} {vs : List Token} (h : s.input = vs.map .ok) :
    s.lookahead.ahead = (vs.map Token.terminal).head? := by
  rw [s.ahead_eq_head?, h]
  cases vs <;> rfl

/-- What is known when a compilation of the tokens `ts` ends in `s`. -/
structure Stops (trace : Bool) (source : Text) (ts : List Token) (e : Token) (s : State)
    (us vs : List Token) : Prop where
  split : ts = us ++ vs
  taken : us.length = tokensTaken { trace } source
  left : s.input = vs.map .ok
  atEnd : s.lookahead.kind = .eof → s.lookahead = e

theorem Stops.next {s : State} {us vs : List Token} (h : Stops trace source ts e s us vs) :
    ∃ rest, ts ++ [e] = us ++ s.lookahead :: rest := by
  rw [h.split]
  by_cases hk : s.lookahead.kind = .eof
  · have hvs := State.input_eq_nil h.left hk
    refine ⟨[], ?_⟩
    rw [hvs, List.append_nil, h.atEnd hk]
  · obtain ⟨vs', hvs⟩ := State.input_eq_cons h.left hk
    refine ⟨vs' ++ [e], ?_⟩
    rw [hvs, List.append_assoc, List.cons_append]

theorem stops_of_fits {r : Except CompileError Unit} {s : State} (hlex : lex source = .ok (ts ++ [e]))
    (hrun : Pass.parse.run { trace } (State.init (Feed.ofSource source)) = (r, s)) :
    match r with
    | .ok _ => ∃ us vs, Stops trace source ts e s us vs ∧
        Scans table [sub .program] (us.map Token.terminal) s.lookahead.ahead
    | .error c => c.foreign = true ∨ (∃ x, c = .unexpected x s.lookahead) ∧
        ∃ us vs, Stops trace source ts e s us vs ∧
          Sticks table [sub .program] (us.map Token.terminal) s.lookahead.ahead := by
  have hsource := ofSource_of_lex hlex
  obtain ⟨hts, hfinal⟩ := scanned_of_lex hlex
  have hfinalState := (error_of_run hrun).1
  obtain ⟨s0, hfirst, hs0⟩ := @Pass.advance_first trace ts e hfinal hts
  have hfits := Pass.parse_fits hfirst hs0
  rw [← hsource, hrun] at hfits
  have hstops : ∀ us, Reads s0 us s → ∃ vs, Stops trace source ts e s us vs := by
    intro us hread
    obtain ⟨vs, hsplit, hleft⟩ := hread.split hs0.input
    refine ⟨vs, hsplit, ?_, hleft, fun hk => ?_⟩
    · rw [tokensTaken, hfinalState, hread.delivered, hs0.delivered]
      omega
    · rw [hread.ready.atEnd hk, hread.final, hs0.final]
  cases r with
  | ok _ =>
    obtain ⟨us, hread, hscans⟩ := hfits
    obtain ⟨vs, hvs⟩ := hstops us hread
    exact ⟨us, vs, hvs, hscans⟩
  | error c =>
    refine hfits.imp_right fun ⟨hx, us, hread, hsticks⟩ => ⟨hx, ?_⟩
    obtain ⟨vs, hvs⟩ := hstops us hread
    exact ⟨us, vs, hvs, hsticks⟩

/-- A whole program has been read: it is a sentence, and nothing longer is. -/
theorem Stops.sentence {s : State} {us vs : List Token} (h : Stops trace source ts e s us vs)
    (hs : Scans table [sub .program] (us.map Token.terminal) s.lookahead.ahead) :
    us.map Token.terminal ∈ grammar.language ∧
      (ts.map Token.terminal ∈ grammar.language → vs = []) := by
  refine ⟨mem_language_iff.2 hs.yields, fun hmem => ?_⟩
  have hwhole := scans_of_mem hmem
  rw [h.split, List.map_append] at hwhole
  rw [State.ahead_of_input h.left] at hs
  exact List.map_eq_nil_iff.1 (hs.unique Option.or_none.symm hwhole)

/-- A token that does not fit has been found. -/
theorem Stops.not_sentence {s : State} {us vs : List Token} (h : Stops trace source ts e s us vs)
    (hs : Sticks table [sub .program] (us.map Token.terminal) s.lookahead.ahead) :
    ts.map Token.terminal ∉ grammar.language := by
  rw [h.split, List.map_append]
  exact (viable_of_sticks hs).2 _ (State.ahead_of_input h.left).symm

theorem outcome_of_foreign {c : CompileError} (h : c.foreign = true) :
    Outcome.ofError (some c) = .fatal := by
  cases c with
  | unexpected x f => cases h
  | extraTokens f => cases h
  | _ => rfl

/-- A compilation recognises the grammar and stops at the first token that no sentence allows. Success
means that the tokens are a sentence. Extra tokens begin behind a sentence. A failed parse stops
behind the beginning of a sentence, at a token (or the end of input) with which no sentence goes on.
And no sentence fails to parse or has extra tokens. -/
theorem compile_recognises (hlex : lex source = .ok (ts ++ [e])) :
    ((compile { trace } source).outcome = .success →
      ts.map Token.terminal ∈ grammar.language) ∧
    ((compile { trace } source).outcome = .extraTokens →
      ∃ us f rest, ts = us ++ f :: rest ∧ us.length = tokensTaken { trace } source ∧
        (compile { trace } source).error = some (.extraTokens f) ∧
        us.map Token.terminal ∈ grammar.language) ∧
    ((compile { trace } source).outcome = .parseFailed →
      ∃ us f rest x, ts ++ [e] = us ++ f :: rest ∧ us.length = tokensTaken { trace } source ∧
        (compile { trace } source).error = some (.unexpected x f) ∧
        (∃ w, us.map Token.terminal ++ w ∈ grammar.language) ∧
        ∀ w, w.head? = f.ahead → us.map Token.terminal ++ w ∉ grammar.language) ∧
    (ts.map Token.terminal ∈ grammar.language →
      (compile { trace } source).outcome ≠ .parseFailed ∧
        (compile { trace } source).outcome ≠ .extraTokens) := by
  unfold Compilation.outcome
  cases hrun : Pass.parse.run { trace } (State.init (Feed.ofSource source)) with
  | mk r s =>
    have hend := stops_of_fits hlex hrun
    have herror := (error_of_run hrun).2
    cases r with
    | ok _ =>
      obtain ⟨us, vs, hstops, hscans⟩ := hend
      obtain ⟨hus, hwhole⟩ := hstops.sentence hscans
      by_cases hk : s.lookahead.kind = .eof
      · have hvs := State.input_eq_nil hstops.left hk
        have hnone : (compile { trace } source).error = none := by
          simpa [State.done, hk] using herror
        rw [hnone]
        have hts : ts = us := by rw [hstops.split, hvs, List.append_nil]
        simp [Outcome.ofError, hts, hus]
      · obtain ⟨vs', hvs⟩ := State.input_eq_cons hstops.left hk
        have hextra : (compile { trace } source).error = some (.extraTokens s.lookahead) := by
          simpa [State.done, hk] using herror
        rw [hextra]
        have hts : ts = us ++ s.lookahead :: vs' := by rw [hstops.split, hvs]
        have hnot : ts.map Token.terminal ∉ grammar.language := by
          intro hmem
          rw [hwhole hmem] at hvs
          cases hvs
        refine ⟨?_, ?_, ?_, fun h => absurd h hnot⟩
        · intro h
          cases h
        · intro _
          exact ⟨us, s.lookahead, vs', hts, hstops.taken, rfl, hus⟩
        · intro h
          cases h
    | error c =>
      rw [herror]
      rcases hend with hforeign | ⟨⟨x, hx⟩, us, vs, hstops, hsticks⟩
      · simp [outcome_of_foreign hforeign]
      · subst hx
        obtain ⟨rest, hnext⟩ := hstops.next
        obtain ⟨hviable, hnot⟩ := viable_of_sticks hsticks
        refine ⟨?_, ?_, ?_, fun h => absurd h (hstops.not_sentence hsticks)⟩
        · intro h
          cases h
        · intro h
          cases h
        · intro _
          exact ⟨us, s.lookahead, rest, x, hnext, hstops.taken, rfl, hviable, hnot⟩

/-- A group of variables without its colon. -/
def colonMissing : Text := "program p; x int;"

def colonMissingTokens : List Token :=
  [⟨.keyword, .programKw, "program", 1, 1⟩, ⟨.identifier, .none, "p", 1, 9⟩,
    ⟨.punct, .semicolon, ";", 1, 10⟩, ⟨.identifier, .none, "x", 1, 12⟩,
    ⟨.keyword, .intKw, "int", 1, 14⟩, ⟨.punct, .semicolon, ";", 1, 17⟩]

theorem compile_recognises_colonMissing :
    lex colonMissing = .ok (colonMissingTokens ++ [⟨.eof, .none, [], 1, 18⟩]) ∧
      (compile {} colonMissing).outcome = .parseFailed ∧
      ∃ us f rest x, colonMissingTokens ++ [⟨.eof, .none, [], 1, 18⟩] = us ++ f :: rest ∧
        us.length = tokensTaken {} colonMissing ∧
        (compile {} colonMissing).error = some (.unexpected x f) ∧
        (∃ w, us.map Token.terminal ++ w ∈ grammar.language) ∧
        ∀ w, w.head? = f.ahead → us.map Token.terminal ++ w ∉ grammar.language := by
  have hlex : lex colonMissing = .ok (colonMissingTokens ++ [⟨.eof, .none, [], 1, 18⟩]) := by
    decide +kernel
  have hfailed : (compile {} colonMissing).outcome = .parseFailed := by decide +kernel
  exact ⟨hlex, hfailed, (compile_recognises hlex).2.2.1 hfailed⟩

end Compiler

end OnePass

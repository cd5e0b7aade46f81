import OnePass.Proofs.Compiler.Composition

namespace OnePass.Compiler.Pass

open Source ContextFreeGrammar Source.Grammar Recognises

variable {α : Type} {n m : Nat} {t : Token} {rest : List (Part Terminal Nonterminal)}

/-- An operator of the lookahead, as the grammar writes it. -/
theorem ahead_operator (ht : t.Plausible) (hk : t.kind = .mulop ∨ t.kind = .addop ∨ t.kind = .relop) :
    ∃ op : Operator, op.kind = t.kind ∧ t.ahead = some (.word op.kind op.attr) := by
  have hscanned : t.Scanned := by
    refine ht.resolve_left fun h => ?_
    rw [h] at hk
    simp at hk
  obtain ⟨op, hkind, hattr⟩ := exists_operator hscanned hk
  refine ⟨op, hkind, Token.ahead_word.2 ⟨?_, ?_⟩⟩
  · rw [hkind, hattr]
    exact Token.is_iff.2 ⟨rfl, rfl⟩
  · rw [hkind]
    rcases hk with hk | hk | hk <;> rw [hk] <;> decide

/-- A chain of operators of one kind: `N` is the rest of the chain and `M` stands for the operators. -/
structure Chains (kind : Kind) (N M : Nonterminal) (operand : Part Terminal Nonterminal) :
    Prop where
  isOperator : kind = .mulop ∨ kind = .addop ∨ kind = .relop
  more : ∀ op : Operator, op.kind = kind → choose table N (some (.word op.kind op.attr)) =
    some [.nonterminal M, operand, .nonterminal N]
  word : ∀ op : Operator, op.kind = kind → choose table M (some (.word op.kind op.attr)) =
    some [.terminal (.word op.kind op.attr)]
  announced : ∀ a ∈ announced table N, ∃ b, a = .word kind b
  done : choose table N none = some []

theorem chains_term : Chains .mulop .termRest .mulop (sub .factor) where
  isOperator := .inl rfl
  more op h := by
    cases op <;> cases h <;> rfl
  word op h := by
    cases op <;> cases h <;> rfl
  announced := by
    have h : announced table .termRest = mulops := rfl
    simp [h, mulops]
  done := rfl

theorem chains_simpleExpr : Chains .addop .simpleExprRest .addop (sub .term) where
  isOperator := .inr (.inl rfl)
  more op h := by
    cases op <;> cases h <;> rfl
  word op h := by
    cases op <;> cases h <;> rfl
  announced := by
    have h : announced table .simpleExprRest = addops := rfl
    simp [h, addops]
  done := rfl

theorem ahead_ne_word {kind : Kind} {b : Attr} (h : t.kind ≠ kind) :
    t.ahead ≠ some (.word kind b) :=
  fun ha => h (Token.is_iff.1 (Token.ahead_word.1 ha).1).1

theorem recognises_chain {kind : Kind} {N M : Nonterminal} {operand : Part Terminal Nonterminal}
    {p : Pass Value} {apply : Attr → Value → Value → Pass Unit} (hc : Chains kind N M operand)
    (hp : ∀ t, Recognises n t [operand] p) (ha : ∀ a v w, Quiet (apply a v w)) (hm : m ≤ n)
    (v : Value) (t : Token) : Recognises m t [.nonterminal N] (chain kind p apply m v) := by
  have hdone : ∀ {m : Nat} {t : Token}, t.kind ≠ kind →
      Recognises m t [.nonterminal N] (pure v : Pass Value) := by
    intro m t hk
    refine at_default _ rfl (fun a ha => ?_) [] hc.done (Quiet.of_pure v).recognises
    obtain ⟨b, rfl⟩ := hc.announced a ha
    exact ahead_ne_word hk
  induction m generalizing t with
  | zero =>
    refine of_plausible fun _ hend => hdone ?_
    rw [hend rfl]
    rcases hc.isOperator with h | h | h <;> rw [h] <;> decide
  | succ m ih =>
    refine of_plausible fun ht _ => of_lookahead ?_
    by_cases hk : t.kind = kind
    · rw [if_pos hk]
      obtain ⟨op, hop, hahead⟩ := ahead_operator ht (hk ▸ hc.isOperator)
      have hop := hop.trans hk
      refine expand (hahead ▸ hc.more op hop) ?_
      refine expand (hahead ▸ hc.word op hop) ?_
      refine shift hahead fun _ => ?_
      refine seq ((hp _).mono (by omega)) fun w _ => ?_
      exact (ha _ _ _).seq fun _ => ih (by omega) _
    · rw [if_neg hk]
      exact hdone hk

theorem recognises_termWith {factor : Pass Value} (h : ∀ t, Recognises n t [sub .factor] factor)
    (t : Token) : Recognises n t [sub .term] (termWith factor n) := by
  refine at_rule [sub .factor, .nonterminal .termRest] rfl rfl ?_
  refine (Quiet.of_enter _).seq fun _ => ?_
  refine seq (h t) fun v u => ?_
  exact recognises_chain chains_term h quiet_multiply le_rfl v u

theorem recognises_simpleExprWith {factor : Pass Value}
    (h : ∀ t, Recognises n t [sub .factor] factor) (t : Token) :
    Recognises n t [sub .simpleExpr] (simpleExprWith factor n) := by
  refine at_rule [sub .term, .nonterminal .simpleExprRest] rfl rfl ?_
  refine (Quiet.of_enter _).seq fun _ => ?_
  refine seq (recognises_termWith h t) fun v u => ?_
  exact recognises_chain chains_simpleExpr (recognises_termWith h) quiet_addUp
    le_rfl v u

theorem recognises_exprWith {factor : Pass Value} (h : ∀ t, Recognises n t [sub .factor] factor)
    (t : Token) : Recognises n t [sub .expr] (exprWith factor n) := by
  refine at_rule [sub .simpleExpr, .nonterminal .exprRest] rfl rfl ?_
  refine (Quiet.of_enter _).seq fun _ => ?_
  refine seq (recognises_simpleExprWith h t) fun v u => ?_
  refine of_plausible fun hu _ => of_lookahead ?_
  by_cases hk : u.kind = .relop
  · rw [if_pos hk]
    obtain ⟨op, hop, hahead⟩ := ahead_operator hu (.inr (.inr hk))
    have hop := hop.trans hk
    have hmore : choose table .exprRest u.ahead = some [.nonterminal .relop, sub .simpleExpr] := by
      rw [hahead]
      cases op <;> cases hop <;> rfl
    have hword : choose table .relop u.ahead = some [.terminal (.word op.kind op.attr)] := by
      rw [hahead]
      cases op <;> cases hop <;> rfl
    refine expand hmore (expand hword (shift hahead fun w => ?_))
    refine seq ((recognises_simpleExprWith h w).mono (by omega)) fun v' _ => ?_
    refine Quiet.recognises (Quiet.of_check.bind fun _ => Quiet.of_generate.bind fun _ => ?_)
    exact .of_pure _
  · rw [if_neg hk]
    refine at_default relops rfl (fun a ha => ?_) [] rfl
      (Quiet.of_pure v).recognises
    have hword : ∀ a ∈ relops, ∃ b, a = .word .relop b := by simp [relops]
    obtain ⟨b, rfl⟩ := hword a ha
    exact ahead_ne_word hk

theorem recognises_identifierFactor (h : t.kind = .identifier) :
    Recognises n t [identifier] (identifierFactor t) := by
  refine Quiet.of_get.seq fun s => ?_
  split
  · refine shift (Token.ahead_identifier.2 h) fun _ => Quiet.recognises ?_
    exact Quiet.of_generate.bind fun _ => Quiet.of_get.bind fun _ => .of_pure _
  · exact of_throw rfl

theorem recognises_numberFactor (h : t.kind = .number) :
    Recognises n t [number] (numberFactor t) := by
  unfold numberFactor
  split
  · refine shift (Token.ahead_number.2 h) fun _ => Quiet.recognises ?_
    exact Quiet.of_generate.bind fun _ => .of_pure _
  · exact of_throw rfl

theorem recognises_factor (n : Nat) (t : Token) : Recognises n t [sub .factor] (factor n) := by
  induction n generalizing t with
  | zero =>
    refine (Quiet.of_enter _).seq fun _ => of_plausible fun _ hend => ?_
    refine stuck exprFirst rfl (fun a _ => ?_) rfl
    simp [Token.ahead, hend rfl]
  | succ n ih =>
    refine (Quiet.of_enter _).seq fun _ => of_lookahead ?_
    by_cases hid : t.kind = .identifier
    · rw [if_pos hid]
      exact at_identifier hid [identifier] rfl (recognises_identifierFactor hid)
    rw [if_neg hid]
    by_cases hnum : t.kind = .number
    · rw [if_pos hnum]
      have hc : choose table (.production .factor) t.ahead = some [number] := by
        rw [Token.ahead_number.2 hnum]
        rfl
      exact expand hc (recognises_numberFactor hnum)
    rw [if_neg hnum]
    by_cases hparen : t.is .punct .leftParen = true
    · rw [if_pos hparen]
      refine at_word hparen (by decide) [punct .leftParen, sub .expr, punct .rightParen] rfl ?_
      refine shift (Token.ahead_word.2 ⟨hparen, by decide⟩) fun u => ?_
      refine seq (recognises_exprWith ih u) fun v _ => ?_
      exact seq (of_expect (by decide)) fun _ _ => (Quiet.of_pure _).recognises
    rw [if_neg hparen]
    split
    · rename_i hsign
      obtain ⟨sg, hsg, -⟩ := exists_sign hsign
      have hkind : sg.kind ≠ .eof ∧ sg.kind ≠ .identifier ∧ sg.kind ≠ .number := by
        cases sg <;> decide
      have hword : choose table .sign (some (.word sg.kind sg.attr)) =
          some [.terminal (.word sg.kind sg.attr)] := by
        cases sg <;> rfl
      refine at_word hsg hkind [.nonterminal .sign, sub .factor] ?_ ?_
      · cases sg <;> rfl
      refine at_word hsg hkind _ hword ?_
      refine shift (Token.ahead_word.2 ⟨hsg, hkind⟩) fun u => ?_
      exact seq (ih u) fun v _ => (quiet_signed.bind fun _ => .of_pure _).recognises
    · rename_i hsign
      simp only [Bool.or_eq_true, not_or] at hsign
      refine stuck exprFirst rfl ?_ rfl
      simp [exprFirst, signs, Token.ahead_identifier, Token.ahead_number, Token.ahead_word, hid,
        hnum, hparen, hsign]

theorem recognises_expr (n : Nat) (t : Token) : Recognises n t [sub .expr] (expr n) :=
  recognises_exprWith (recognises_factor n) t

theorem recognises_condition (n : Nat) (t : Token) : Recognises n t [sub .expr] (condition n) :=
  seq (recognises_expr n t) fun _ _ =>
    (Quiet.of_check.bind fun _ => .of_pure _).recognises

theorem recognises_suppress {form : List (Part Terminal Nonterminal)} {p : Pass α}
    (h : Recognises n t form p) : Recognises n t form (suppress p) :=
  .within (fun _ => ⟨rfl, rfl, rfl⟩) (fun _ _ => ⟨rfl, rfl, rfl⟩) h

theorem recognises_assign {x : Token} (h : t.is .punct .assign = true) :
    Recognises n t [punct .assign, sub .expr] (assign n x) := by
  refine Quiet.of_get.seq fun s => ?_
  dsimp only
  split
  · exact of_throw rfl
  · refine shift (Token.ahead_word.2 ⟨h, by decide⟩) fun u => ?_
    refine seq ((recognises_expr n u).mono (by omega)) fun v _ => ?_
    refine Quiet.recognises (Quiet.of_get.bind fun _ => ?_)
    split
    · exact .of_fail _ _
    · exact quiet_consume fun _ => .of_generate

theorem discard_bind {β : Type} {p : Pass α} {f : Unit → Pass β} :
    (discard p >>= f) = p >>= fun _ => f () := by
  change ((p >>= fun _ => pure ()) >>= f) = _
  simp only [bind_assoc, pure_bind]

/-- A list of actual parameters, and what stands behind it: the check that the list may end there belongs to the
empty alternative of the same nonterminal. -/
theorem recognises_actuals {callee : Text} {k : Unit → Pass α}
    (hk : ∀ t : Token, ¬t.is .punct .comma = true →
      Recognises n t [sub .actualListRest] (k ())) (hm : m ≤ n) (i : Int) (t : Token) :
    Recognises m t [sub .expr, sub .actualListRest] (actuals n callee m i >>= k) := by
  induction m generalizing i t with
  | zero =>
    rw [actuals, discard_bind]
    refine seq ((recognises_expr n t).mono hm) fun _ u => of_plausible fun _ hend => ?_
    refine (hk u fun h => ?_).mono hm
    rw [(Token.is_iff.1 h).1] at hend
    simp at hend
  | succ m ih =>
    rw [actuals]
    simp only [bind_assoc, at_bind]
    refine seq ((recognises_expr n t).mono hm) fun v u => ?_
    refine Quiet.of_get.seq fun s => ?_
    split
    · exact of_throw rfl
    · simp only [bind_assoc]
      refine Quiet.of_generate.seq fun _ => of_lookahead ?_
      by_cases hcomma : u.is .punct .comma = true
      · rw [if_pos hcomma, bind_assoc]
        refine at_word hcomma (by decide) [punct .comma, sub .expr, sub .actualListRest] rfl ?_
        exact shift (Token.ahead_word.2 ⟨hcomma, by decide⟩) fun u => ih (by omega) _ u
      · rw [if_neg hcomma, pure_bind]
        exact (hk u hcomma).mono hm

/-- Opening a nonterminal at any of several tokens. -/
theorem at_any {N : Nonterminal} {p : Pass α} {as : List Terminal} (h : ∃ a ∈ as, t.ahead = some a)
    (w : List (Part Terminal Nonterminal)) (hc : ∀ a ∈ as, choose table N (some a) = some w)
    (hp : Recognises n t (w ++ rest) p) : Recognises n t (.nonterminal N :: rest) p := by
  obtain ⟨a, ha, hahead⟩ := h
  refine expand ?_ hp
  rw [hahead]
  exact hc a ha

theorem ahead_ne_of_append {as : List Terminal} {k : Kind} {b : Attr}
    (h : ∀ a ∈ as, t.ahead ≠ some a) (hb : ¬t.is k b = true) :
    ∀ a ∈ as ++ [.word k b], t.ahead ≠ some a := by
  intro a ha
  rcases List.mem_append.1 ha with ha | ha
  · exact h a ha
  · rw [List.mem_singleton.1 ha]
    exact fun h => hb (Token.ahead_word.1 h).1

/-- The empty alternative of a nonterminal, where only one token may follow. -/
theorem recognises_close {N : Nonterminal} {e : Expectation} {p : Pass α} (as : List Terminal)
    {k : Kind} {b : Attr} (hk : k ≠ .eof ∧ k ≠ .identifier ∧ k ≠ .number)
    (has : announced table N = as ++ [.word k b]) (h : ∀ a ∈ as, t.ahead ≠ some a)
    (hempty : choose table N (some (.word k b)) = some []) (hnone : choose table N none = none)
    (hp : Quiet p) :
    Recognises n t [.nonterminal N] (if (!t.is k b) = true then unexpected e else p) := by
  by_cases hb : t.is k b = true
  · simp only [hb]
    exact at_word hb hk [] hempty hp.recognises
  · simp only [hb, Bool.not_false, if_true]
    exact stuck _ has (ahead_ne_of_append h hb) hnone

theorem atExpr_bind {f : Bool → Pass α} :
    (atExpr >>= f) = lookahead >>= fun t => f (t.kind == .identifier || t.kind == .number ||
      t.is .punct .leftParen || t.is .addop .plus || t.is .addop .minus ||
      t.is .keyword .notKw) := by
  rw [atExpr, bind_assoc]
  simp only [pure_bind]

theorem atStmt_bind {f : Bool → Pass α} :
    (atStmt >>= f) = lookahead >>= fun t => f (t.kind == .identifier || t.is .keyword .ifKw ||
      t.is .keyword .whileKw || t.is .keyword .printKw) := by
  rw [atStmt, bind_assoc]
  simp only [pure_bind]

theorem atExpr_iff : (t.kind == .identifier || t.kind == .number || t.is .punct .leftParen ||
    t.is .addop .plus || t.is .addop .minus || t.is .keyword .notKw) = true ↔
      ∃ a ∈ exprFirst, t.ahead = some a := by
  simp [exprFirst, signs, Token.ahead_identifier, Token.ahead_number, Token.ahead_word, or_assoc]

theorem atStmt_iff : (t.kind == .identifier || t.is .keyword .ifKw || t.is .keyword .whileKw ||
    t.is .keyword .printKw) = true ↔ ∃ a ∈ stmtFirst, t.ahead = some a := by
  simp [stmtFirst, Token.ahead_identifier, Token.ahead_word, or_assoc]

theorem recognises_exprList {callee : Text} (n : Nat) (t : Token) :
    Recognises n t [sub .exprList] (exprList n callee) := by
  refine (Quiet.of_enter _).seq fun _ => ?_
  simp only [at_bind, atExpr_bind, unexpected_bind]
  refine of_lookahead ?_
  by_cases hparen : t.is .punct .rightParen = true
  · simp only [hparen]
    exact at_word hparen (by decide) [] rfl (Quiet.of_pure ()).recognises
  simp only [hparen, Bool.not_false, if_true]
  refine of_lookahead ?_
  split
  · rename_i hexpr
    rw [Bool.not_eq_true', ← Bool.not_eq_true, atExpr_iff] at hexpr
    exact stuck (exprFirst ++ [.word .punct .rightParen]) rfl
      (ahead_ne_of_append (fun a ha h => hexpr ⟨a, ha, h⟩) hparen) rfl
  · rename_i hexpr
    rw [Bool.not_eq_true', Bool.not_eq_false, atExpr_iff] at hexpr
    refine at_any hexpr [.nonterminal .actualList] (by decide +kernel) ?_
    refine at_rule [sub .expr, sub .actualListRest] rfl rfl ?_
    refine recognises_actuals (fun u hcomma => of_lookahead ?_) le_rfl 0 t
    refine recognises_close [.word .punct .comma] (by decide) rfl ?_ rfl rfl (.of_pure ())
    simp [Token.ahead_word, hcomma]

theorem recognises_call {x : Token} (h : t.is .punct .leftParen = true) :
    Recognises n t [punct .leftParen, sub .exprList, punct .rightParen] (call n x) := by
  refine Quiet.of_get.seq fun s => ?_
  simp only [fail_bind]
  split
  · exact of_throw rfl
  split
  · exact of_throw rfl
  refine shift (Token.ahead_word.2 ⟨h, by decide⟩) fun u => ?_
  refine seq (recognises_suppress ((recognises_exprList n u).mono (by omega))) fun _ _ => ?_
  exact of_expect (by decide)

theorem recognises_assignOrCall {x : Token} (n : Nat) (t : Token) :
    Recognises n t [sub .assignOrCall] (assignOrCall n x) := by
  refine (Quiet.of_enter _).seq fun _ => ?_
  simp only [at_bind]
  refine of_lookahead ?_
  by_cases hassign : t.is .punct .assign = true
  · rw [if_pos hassign]
    exact at_word hassign (by decide) [punct .assign, sub .expr] rfl
      (recognises_assign hassign)
  rw [if_neg hassign]
  refine of_lookahead ?_
  by_cases hparen : t.is .punct .leftParen = true
  · rw [if_pos hparen]
    exact at_word hparen (by decide) [punct .leftParen, sub .exprList, punct .rightParen]
      rfl (recognises_call hparen)
  rw [if_neg hparen]
  refine stuck [.word .punct .assign, .word .punct .leftParen] rfl ?_ rfl
  simp [Token.ahead_word, hassign, hparen]

/-- Statements that follow, and what stands behind them. -/
theorem recognises_stmtsWith {stmt : Pass Unit} {k : Unit → Pass α}
    (hs : ∀ t, Recognises n t [sub .stmt] stmt)
    (hk : ∀ t : Token, (∀ a ∈ stmtFirst, t.ahead ≠ some a) →
      Recognises n t [sub .stmtListRest] (k ())) (hm : m ≤ n) (t : Token) :
    Recognises m t [sub .stmtListRest] (stmtsWith stmt m >>= k) := by
  induction m generalizing t with
  | zero =>
    refine of_plausible fun _ hend => (hk t fun a _ => ?_).mono hm
    simp [Token.ahead, hend rfl]
  | succ m ih =>
    rw [stmtsWith, bind_assoc, atStmt_bind]
    refine of_lookahead ?_
    split
    · rename_i hstmt
      refine at_any (atStmt_iff.1 hstmt) [sub .stmt, punct .semicolon, sub .stmtListRest]
        (by decide +kernel) ?_
      simp only [bind_assoc]
      refine seq ((hs t).mono hm) fun _ _ => ?_
      exact expect_seq (by decide) fun u => ih (by omega) u
    · rename_i hstmt
      rw [atStmt_iff] at hstmt
      exact (hk t fun a ha h => hstmt ⟨a, ha, h⟩).mono hm

theorem recognises_stmtListWith {stmt : Pass Unit} (hs : ∀ t, Recognises n t [sub .stmt] stmt)
    (t : Token) : Recognises n t [sub .stmtList] (stmtListWith stmt n) := by
  refine (Quiet.of_enter _).seq fun _ => ?_
  simp only [at_bind, atStmt_bind, unexpected_bind]
  have hrest : ∀ t, Recognises n t [sub .stmtListRest] (stmtsWith stmt n >>= fun _ =>
      lookahead >>= fun t => if (!t.is .keyword .endKw) = true then
        unexpected (.production .stmtListRest) else pure ()) := by
    intro t
    refine recognises_stmtsWith hs (fun t hstmt => of_lookahead ?_) le_rfl t
    exact recognises_close stmtFirst (by decide) rfl hstmt rfl rfl (.of_pure ())
  refine of_lookahead ?_
  split
  · rename_i hstmt
    refine at_any (atStmt_iff.1 hstmt) [sub .stmt, punct .semicolon, sub .stmtListRest]
      (by decide +kernel) ?_
    refine seq (hs t) fun _ _ => ?_
    exact seq (of_expect (by decide)) fun _ u => hrest u
  · rename_i hstmt
    rw [atStmt_iff] at hstmt
    refine of_lookahead ?_
    by_cases hsemi : t.is .punct .semicolon = true
    · rw [if_pos hsemi]
      refine at_word hsemi (by decide) [punct .semicolon, sub .stmtListRest] rfl ?_
      exact seq (of_advance (Token.ahead_word.2 ⟨hsemi, by decide⟩)) fun _ u => hrest u
    · rw [if_neg hsemi]
      exact stuck (stmtFirst ++ [.word .punct .semicolon]) rfl
        (ahead_ne_of_append (fun a ha h => hstmt ⟨a, ha, h⟩) hsemi) rfl

theorem recognises_blockWith {stmt : Pass Unit} (hs : ∀ t, Recognises n t [sub .stmt] stmt)
    (t : Token) : Recognises n t [sub .block] (blockWith stmt n) := by
  refine at_rule
    [keyword .beginKw, sub .stmtList, keyword .endKw] rfl rfl ?_
  refine (Quiet.of_enter _).seq fun _ => ?_
  refine seq (of_expect (by decide)) fun _ u => ?_
  exact seq (recognises_stmtListWith hs u) fun _ _ => of_expect (by decide)

theorem recognises_ifStmtWith {block : Pass Unit} (hb : ∀ t, Recognises n t [sub .block] block)
    (h : t.is .keyword .ifKw = true) :
    Recognises (n + 1) t [sub .ifStmt] (ifStmtWith block (n + 1)) := by
  refine at_rule
    [keyword .ifKw, sub .expr, keyword .thenKw, sub .block, sub .ifStmtRest] rfl rfl ?_
  refine (Quiet.of_enter _).seq fun _ => ?_
  refine shift (Token.ahead_word.2 ⟨h, by decide⟩) fun u => ?_
  refine seq ((recognises_condition (n + 1) u).mono (by omega)) fun v _ => ?_
  refine seq (of_expect (by decide)) fun _ u => ?_
  refine Quiet.of_generate.seq fun r => Quiet.of_generate.seq fun other => ?_
  refine Quiet.of_generate.seq fun done => Quiet.of_generate.seq fun _ => ?_
  refine Quiet.of_generate.seq fun _ => ?_
  refine seq (hb u) fun _ u => ?_
  refine Quiet.of_generate.seq fun _ => Quiet.of_generate.seq fun _ => ?_
  simp only [at_bind, unexpected_bind]
  refine of_lookahead ?_
  by_cases helse : u.is .keyword .elseKw = true
  · rw [if_pos helse]
    refine at_word helse (by decide) [keyword .elseKw, sub .block] rfl ?_
    refine shift (Token.ahead_word.2 ⟨helse, by decide⟩) fun u => ?_
    exact seq ((hb u).mono (by omega)) fun _ _ => Quiet.of_generate.recognises
  rw [if_neg helse]
  refine of_lookahead ?_
  refine recognises_close [.word .keyword .elseKw] (by decide) rfl ?_ rfl rfl .of_generate
  simp [Token.ahead_word, helse]

theorem recognises_whileStmtWith {block : Pass Unit}
    (hb : ∀ t, Recognises n t [sub .block] block) (h : t.is .keyword .whileKw = true) :
    Recognises (n + 1) t [sub .whileStmt] (whileStmtWith block (n + 1)) := by
  refine at_rule
    [keyword .whileKw, sub .expr, keyword .loopKw, sub .block] rfl rfl ?_
  refine (Quiet.of_enter _).seq fun _ => ?_
  refine shift (Token.ahead_word.2 ⟨h, by decide⟩) fun u => ?_
  refine Quiet.of_generate.seq fun again => Quiet.of_generate.seq fun done => ?_
  refine Quiet.of_generate.seq fun _ => ?_
  refine seq ((recognises_condition (n + 1) u).mono (by omega)) fun v _ => ?_
  refine seq (of_expect (by decide)) fun _ u => ?_
  refine (quiet_consume fun _ => Quiet.of_generate).seq fun _ => ?_
  refine seq (hb u) fun _ _ => ?_
  exact (Quiet.of_generate.bind fun _ => .of_generate).recognises

theorem recognises_printStmt (h : t.is .keyword .printKw = true) :
    Recognises n t [sub .printStmt] (printStmt n) := by
  refine at_rule [keyword .printKw, sub .expr] rfl rfl ?_
  refine (Quiet.of_enter _).seq fun _ => ?_
  refine shift (Token.ahead_word.2 ⟨h, by decide⟩) fun u => ?_
  refine seq ((recognises_expr n u).mono (by omega)) fun v _ => Quiet.recognises ?_
  dsimp only
  split
  · exact .of_fail _ _
  · exact quiet_consume fun _ => .of_generate

theorem recognises_stmt (n : Nat) (t : Token) : Recognises n t [sub .stmt] (stmt n) := by
  induction n generalizing t with
  | zero =>
    refine (Quiet.of_enter _).seq fun _ => of_plausible fun _ hend => ?_
    refine stuck [.word .keyword .ifKw, .word .keyword .whileKw, .word .keyword .printKw,
      .identifier] rfl (fun a _ => ?_) rfl
    simp [Token.ahead, hend rfl]
  | succ n ih =>
    refine (Quiet.of_enter _).seq fun _ => of_lookahead ?_
    have hblock := recognises_blockWith ih
    by_cases hif : t.is .keyword .ifKw = true
    · rw [if_pos hif]
      exact at_word hif (by decide) [sub .ifStmt] rfl
        (recognises_ifStmtWith hblock hif)
    rw [if_neg hif]
    by_cases hwhile : t.is .keyword .whileKw = true
    · rw [if_pos hwhile]
      exact at_word hwhile (by decide) [sub .whileStmt] rfl
        (recognises_whileStmtWith hblock hwhile)
    rw [if_neg hwhile]
    by_cases hprint : t.is .keyword .printKw = true
    · rw [if_pos hprint]
      exact at_word hprint (by decide) [sub .printStmt] rfl
        (recognises_printStmt hprint)
    rw [if_neg hprint]
    by_cases hid : t.kind = .identifier
    · rw [if_pos hid]
      refine at_identifier hid [identifier, sub .assignOrCall] rfl ?_
      refine shift (Token.ahead_identifier.2 hid) fun u => ?_
      exact (recognises_assignOrCall (n + 1) u).mono (by omega)
    rw [if_neg hid]
    refine stuck [.word .keyword .ifKw, .word .keyword .whileKw, .word .keyword .printKw,
      .identifier] rfl ?_ rfl
    simp [Token.ahead_word, Token.ahead_identifier, hif, hwhile, hprint, hid]

theorem recognises_block (n : Nat) (t : Token) : Recognises n t [sub .block] (block n) :=
  recognises_blockWith (recognises_stmt n) t

/-- Identifiers between commas, and what stands behind them. -/
theorem recognises_identifiers {install : Nat → Token → Pass Unit} {k : Nat → Pass α}
    (hi : ∀ i t, Quiet (install i t))
    (hk : ∀ i, ∀ t : Token, ¬t.is .punct .comma = true →
      Recognises n t [sub .identifierListRest] (k i)) (hm : m ≤ n) (i : Nat) (t : Token) :
    Recognises m t [identifier, sub .identifierListRest] (identifiers install m i >>= k) := by
  induction m generalizing i t with
  | zero =>
    rw [identifiers, unexpected_bind]
    refine of_plausible fun _ hend => of_unexpected (.terminal ?_)
    simp [Token.ahead, hend rfl]
  | succ m ih =>
    rw [identifiers]
    simp only [bind_assoc, at_bind]
    refine seq of_expectIdentifier fun x u => ?_
    refine (hi i x).seq fun _ => of_lookahead ?_
    by_cases hcomma : u.is .punct .comma = true
    · rw [if_pos hcomma, bind_assoc]
      refine at_word hcomma (by decide) [punct .comma, identifier, sub .identifierListRest] rfl ?_
      exact shift (Token.ahead_word.2 ⟨hcomma, by decide⟩) fun u => ih (by omega) _ u
    · rw [if_neg hcomma, pure_bind]
      exact (hk _ u hcomma).mono hm

theorem recognises_identifierList {install : Nat → Token → Pass Unit}
    (hi : ∀ i t, Quiet (install i t)) (i : Nat) (t : Token) :
    Recognises n t [identifier, sub .identifierListRest] (identifierList install n i) := by
  refine (Quiet.of_enter _).seq fun _ => ?_
  simp only [at_bind, unexpected_bind]
  refine recognises_identifiers hi (fun j u hcomma => of_lookahead ?_) le_rfl i t
  refine recognises_close [.word .punct .comma] (by decide) rfl ?_ rfl rfl (.of_pure j)
  simp [Token.ahead_word, hcomma]

theorem recognises_standardType (n : Nat) (t : Token) :
    Recognises n t [sub .standardType] standardType := by
  refine (Quiet.of_enter _).seq fun _ => of_lookahead ?_
  simp only [pure_bind, unexpected_bind]
  by_cases hint : t.is .keyword .intKw = true
  · rw [if_pos hint]
    refine at_word hint (by decide) [keyword .intKw] rfl ?_
    refine shift (Token.ahead_word.2 ⟨hint, by decide⟩) fun _ => ?_
    refine Quiet.recognises (Quiet.of_modify fun s => ?_)
    exact ⟨rfl, rfl, rfl⟩
  rw [if_neg hint]
  by_cases hbool : t.is .keyword .boolKw = true
  · rw [if_pos hbool]
    refine at_word hbool (by decide) [keyword .boolKw] rfl ?_
    refine shift (Token.ahead_word.2 ⟨hbool, by decide⟩) fun _ => ?_
    refine Quiet.recognises (Quiet.of_modify fun s => ?_)
    exact ⟨rfl, rfl, rfl⟩
  rw [if_neg hbool]
  refine stuck [.word .keyword .intKw, .word .keyword .boolKw] rfl ?_ rfl
  simp [Token.ahead_word, hint, hbool]

theorem recognises_variableDecl (n : Nat) (t : Token) :
    Recognises n t [sub .variableDecl] (variableDecl n) := by
  refine at_rule
    [sub .identifierList, punct .colon, sub .standardType] rfl rfl ?_
  refine at_rule [identifier, sub .identifierListRest] rfl rfl ?_
  refine (Quiet.of_enter _).seq fun _ => ?_
  rw [discard_bind]
  refine append (recognises_identifierList (fun _ _ => quiet_awaitType _ _) 0 t) fun _ u => ?_
  exact seq (of_expect (by decide)) fun _ u => recognises_standardType n u

/-- Groups of variables, and what stands behind them. -/
theorem recognises_variableDecls {k : Unit → Pass α}
    (hk : ∀ t : Token, t.kind ≠ .identifier → Recognises n t [sub .variableDeclList] (k ()))
    (hm : m ≤ n) (t : Token) :
    Recognises m t [sub .variableDeclList] (variableDecls m >>= k) := by
  induction m generalizing t with
  | zero =>
    refine of_plausible fun _ hend => (hk t ?_).mono hm
    rw [hend rfl]
    decide
  | succ m ih =>
    rw [variableDecls, bind_assoc]
    refine of_lookahead ?_
    by_cases hid : t.kind = .identifier
    · rw [if_pos hid]
      refine at_identifier hid [sub .variableDecl, punct .semicolon, sub .variableDeclList] rfl ?_
      simp only [bind_assoc]
      refine seq (recognises_variableDecl _ t) fun _ _ => ?_
      exact expect_seq (by decide) fun u => ih (by omega) u
    · rw [if_neg hid]
      exact (hk t hid).mono hm

theorem recognises_variableDeclList (n : Nat) (t : Token) :
    Recognises n t [sub .variableDeclList] (variableDeclList n) := by
  refine (Quiet.of_enter _).seq fun _ => ?_
  simp only [at_bind]
  refine recognises_variableDecls (fun u hid => of_lookahead (of_lookahead ?_)) le_rfl t
  by_cases hproc : u.is .keyword .procedureKw = true
  · simp only [hproc]
    exact at_word hproc (by decide) [] rfl (Quiet.of_pure ()).recognises
  by_cases hbegin : u.is .keyword .beginKw = true
  · simp only [hbegin, Bool.not_true, Bool.and_false]
    exact at_word hbegin (by decide) [] rfl (Quiet.of_pure ()).recognises
  · simp only [hproc, hbegin, Bool.not_false, Bool.and_self, if_true]
    refine stuck [.identifier, .word .keyword .procedureKw, .word .keyword .beginKw] rfl ?_ rfl
    simp [Token.ahead_identifier, Token.ahead_word, hid, hproc, hbegin]

theorem recognises_formals (hm : m ≤ n) (i : Nat) (t : Token) :
    Recognises m t [sub .formalList] (formals m i) := by
  induction m generalizing i t with
  | zero =>
    refine at_rule [identifier, sub .identifierListRest,
      punct .colon, sub .standardType, sub .formalListRest] rfl rfl ?_
    refine (Quiet.of_enter _).seq fun _ => of_plausible fun _ hend => ?_
    refine of_unexpected (.terminal ?_)
    simp [Token.ahead, hend rfl]
  | succ m ih =>
    refine at_rule [identifier, sub .identifierListRest,
      punct .colon, sub .standardType, sub .formalListRest] rfl rfl ?_
    rw [formals]
    simp only [at_bind]
    have hids : Recognises (m + 1) t [identifier, sub .identifierListRest]
        (identifierList (fun i t => awaitType i t) (m + 1) i) :=
      recognises_identifierList (fun _ _ => quiet_awaitType _ _) i t
    refine hids.append fun j _ => ?_
    refine seq (of_expect (by decide)) fun _ u => ?_
    refine seq (recognises_standardType _ u) fun _ u => of_lookahead ?_
    by_cases hsemi : u.is .punct .semicolon = true
    · rw [if_pos hsemi]
      refine at_word hsemi (by decide) [punct .semicolon, sub .formalList] rfl ?_
      exact shift (Token.ahead_word.2 ⟨hsemi, by decide⟩) fun u => ih (by omega) j u
    · rw [if_neg hsemi]
      refine of_lookahead ?_
      refine recognises_close [.word .punct .semicolon] (by decide) rfl ?_ rfl rfl (.of_pure ())
      simp [Token.ahead_word, hsemi]

theorem recognises_procedureArgs (n : Nat) (t : Token) :
    Recognises n t [sub .procedureArgs] (procedureArgs n) := by
  refine (Quiet.of_enter _).seq fun _ => of_lookahead ?_
  by_cases hid : t.kind = .identifier
  · rw [if_pos hid]
    refine at_identifier hid [sub .formalList] rfl ?_
    exact (Quiet.of_enter _).seq fun _ => recognises_formals le_rfl 0 t
  · rw [if_neg hid]
    refine recognises_close [.identifier] (by decide) rfl ?_ rfl rfl (.of_pure ())
    simp [Token.ahead_identifier, hid]

theorem recognises_procedureDecl (h : t.is .keyword .procedureKw = true) :
    Recognises n t [sub .procedureDecl] (procedureDecl n) := by
  refine at_rule [keyword .procedureKw, identifier, punct .leftParen, sub .procedureArgs,
    punct .rightParen, sub .variableDeclList, sub .block] rfl rfl ?_
  refine (Quiet.of_enter _).seq fun _ => ?_
  refine shift (Token.ahead_word.2 ⟨h, by decide⟩) fun u => ?_
  refine seq of_expectIdentifier fun x u => ?_
  refine Quiet.of_get.seq fun s => Quiet.of_declare.seq fun _ => ?_
  refine .within (fun _ => ⟨rfl, rfl, rfl⟩) (fun _ _ => ⟨rfl, rfl, rfl⟩) ?_
  refine seq (of_expect (by decide)) fun _ u => ?_
  refine seq ((recognises_procedureArgs n u).mono (by omega)) fun _ _ => ?_
  refine seq (of_expect (by decide)) fun _ u => ?_
  refine seq ((recognises_variableDeclList n u).mono (by omega)) fun _ u => ?_
  exact recognises_suppress ((recognises_block n u).mono (by omega))

/-- Procedures, and what stands behind them. -/
theorem recognises_procedureDecls {k : Unit → Pass α}
    (hk : ∀ t : Token, ¬t.is .keyword .procedureKw = true →
      Recognises n t [sub .procedureDeclList] (k ())) (hm : m ≤ n) (t : Token) :
    Recognises m t [sub .procedureDeclList] (procedureDecls m >>= k) := by
  induction m generalizing t with
  | zero =>
    refine of_plausible fun _ hend => (hk t fun h => ?_).mono hm
    rw [(Token.is_iff.1 h).1] at hend
    simp at hend
  | succ m ih =>
    rw [procedureDecls, bind_assoc, at_bind]
    refine of_lookahead ?_
    by_cases hproc : t.is .keyword .procedureKw = true
    · rw [if_pos hproc]
      refine at_word hproc (by decide)
        [sub .procedureDecl, punct .semicolon, sub .procedureDeclList] rfl ?_
      simp only [bind_assoc]
      refine seq (recognises_procedureDecl hproc) fun _ _ => ?_
      exact expect_seq (by decide) fun u => ih (by omega) u
    · rw [if_neg hproc]
      exact (hk t hproc).mono hm

theorem recognises_procedureDeclList (n : Nat) (t : Token) :
    Recognises n t [sub .procedureDeclList] (procedureDeclList n) := by
  refine (Quiet.of_enter _).seq fun _ => ?_
  simp only [at_bind]
  refine recognises_procedureDecls (fun u hproc => of_lookahead ?_) le_rfl t
  refine recognises_close [.word .keyword .procedureKw] (by decide) rfl ?_ rfl rfl (.of_pure ())
  simp [Token.ahead_word, hproc]

theorem recognises_program (n : Nat) (t : Token) :
    Recognises n t [sub .program] (program n) := by
  refine (Quiet.of_enter _).seq fun _ => ?_
  simp only [at_bind, unexpected_bind]
  refine of_lookahead ?_
  by_cases hprog : t.is .keyword .programKw = true
  · simp only [hprog]
    refine at_word hprog (by decide) [keyword .programKw, identifier, punct .semicolon,
      .nonterminal .declList, sub .block, punct .semicolon] rfl ?_
    refine shift (Token.ahead_word.2 ⟨hprog, by decide⟩) fun _ => ?_
    refine seq of_expectIdentifier fun x _ => ?_
    refine Quiet.of_declare.seq fun _ => ?_
    refine (Quiet.of_modify fun s => ?_).seq fun _ => ?_
    · exact ⟨rfl, rfl, rfl⟩
    refine seq (of_expect (by decide)) fun _ u => ?_
    refine Quiet.of_generate.seq fun _ => ?_
    refine at_rule
      [sub .variableDeclList, sub .procedureDeclList] rfl rfl ?_
    refine seq ((recognises_variableDeclList n u).mono (by omega)) fun _ u => ?_
    refine seq ((recognises_procedureDeclList n u).mono (by omega)) fun _ u => ?_
    refine seq ((recognises_block n u).mono (by omega)) fun _ _ => ?_
    refine seq (of_expect (by decide)) fun _ _ => ?_
    exact (Quiet.of_generate.bind fun _ => quiet_dataLines).recognises
  · simp only [hprog, Bool.not_false, if_true]
    refine stuck [.word .keyword .programKw] rfl ?_ rfl
    simp [Token.ahead_word, hprog]

end OnePass.Compiler.Pass

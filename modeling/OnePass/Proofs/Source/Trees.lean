import OnePass.Proofs.Source.Grammar
import OnePass.Proofs.Source.Syntax

namespace OnePass

open Source

namespace Token

variable {t : Token} {k : Kind} {a : Attr}

theorem kind_of_terminal_identifier (h : t.terminal = .identifier) : t.kind = .identifier := by
  unfold terminal at h
  cases hk : t.kind <;> simp [hk] at h
  rfl

theorem kind_of_terminal_number (h : t.terminal = .number) : t.kind = .number := by
  unfold terminal at h
  cases hk : t.kind <;> simp [hk] at h
  rfl

theorem is_of_terminal (h : t.terminal = .word k a) : t.is k a = true := by
  unfold terminal at h
  cases hk : t.kind <;> simp [hk] at h
  all_goals simp [Token.is, hk, h]

end Token

namespace Source.Grammar

open Compiler ContextFreeGrammar

/-- What the tokens of a nonterminal are. A nonterminal that only continues another one is described by
what it completes. -/
def Means : Nonterminal → List Token → Prop
  | .production .program, ts => ∃ p, ProgramDerives ts p
  | .declList, ts => ∃ vs ps vars procedures, ts = vs ++ ps ∧ VarsDerive vs vars ∧
      ProceduresDerive ps procedures
  | .production .variableDeclList, ts => ∃ gs, VarsDerive ts gs
  | .production .variableDecl, ts => ∃ g, GroupDerives ts g
  | .production .identifierList, ts => ∃ ns, NamesDerive ts ns
  | .production .identifierListRest, ts =>
      ∀ t : Token, t.kind = .identifier → ∃ ns, NamesDerive (t :: ts) ns
  | .production .standardType, ts => ∃ t type, ts = [t] ∧ TypeDerives t type
  | .production .procedureDeclList, ts => ∃ ps, ProceduresDerive ts ps
  | .production .procedureDecl, ts => ∃ p, ProcedureDerives ts p
  | .production .procedureArgs, ts => ∃ gs, ArgsDerive ts gs
  | .production .formalList, ts => ∃ gs, FormalsDerive ts gs
  | .production .formalListRest, ts =>
      ∀ us g, GroupDerives us g → ∃ gs, FormalsDerive (us ++ ts) gs
  | .production .block, ts => ∃ c, StmtForm.block.Derives ts c
  | .production .stmtList, ts => ∃ c, StmtForm.stmtList.Derives ts c
  | .production .stmtListRest, ts => ∃ c, StmtForm.stmtListRest.Derives ts c
  | .production .stmt, ts | .production .ifStmt, ts | .production .whileStmt, ts
  | .production .printStmt, ts => ∃ c, StmtForm.stmt.Derives ts c
  | .production .assignOrCall, ts =>
      ∀ t : Token, t.kind = .identifier → ∃ c, StmtForm.stmt.Derives (t :: ts) c
  | .production .ifStmtRest, ts =>
      ts = [] ∨ ∃ t us c, ts = t :: us ∧ t.is .keyword .elseKw ∧ StmtForm.block.Derives us c
  | .production .exprList, ts => ∃ es, ExprListDerives ts es
  | .actualList, ts => ∃ es, ActualsDerive ts es
  | .production .actualListRest, ts =>
      ∀ us e, ExprForm.expr.Derives us e → ∃ es, ActualsDerive (us ++ ts) es
  | .production .expr, ts => ∃ e, ExprForm.expr.Derives ts e
  | .exprRest, ts =>
      ∀ us a, ExprForm.simpleExpr.Derives us a → ∃ e, ExprForm.expr.Derives (us ++ ts) e
  | .production .simpleExpr, ts => ∃ e, ExprForm.simpleExpr.Derives ts e
  | .simpleExprRest, ts => ∀ a, ∃ e, (ExprForm.simpleRest a).Derives ts e
  | .production .term, ts => ∃ e, ExprForm.term.Derives ts e
  | .termRest, ts => ∀ a, ∃ e, (ExprForm.termRest a).Derives ts e
  | .production .factor, ts => ∃ e, ExprForm.factor.Derives ts e
  | .sign, ts => ∃ (t : Token) (s : Sign), ts = [t] ∧ t.is s.kind s.attr
  | .relop, ts => ∃ (t : Token) (op : Operator), ts = [t] ∧ op.kind = .relop ∧ t.is op.kind op.attr
  | .addop, ts => ∃ (t : Token) (op : Operator), ts = [t] ∧ op.kind = .addop ∧ t.is op.kind op.attr
  | .mulop, ts => ∃ (t : Token) (op : Operator), ts = [t] ∧ op.kind = .mulop ∧ t.is op.kind op.attr

/-- The tokens split into parts for the symbols of a form. -/
def Splits : List (Part Terminal Nonterminal) → List Token → Prop
  | [], ts => ts = []
  | .terminal a :: form, ts => ∃ t us, ts = t :: us ∧ t.terminal = a ∧ Splits form us
  | .nonterminal n :: form, ts => ∃ us vs, ts = us ++ vs ∧ Means n us ∧ Splits form vs

/-- The rule builds what its nonterminal means. -/
def Justified (p : Prediction Terminal Nonterminal) : Prop :=
  ∀ ts, Splits p.output ts → Means p.input ts

theorem declarations_justified : ∀ p ∈ declarations, Justified p := by
  simp only [declarations, List.forall_mem_cons]
  refine ⟨?program, ?declList, ?varsMore, ?varsDone, ?group, ?proceduresMore, ?proceduresDone, ?names,
    ?namesMore, ?namesDone, ?int, ?bool, ?procedure, ?args, ?noArgs, ?formals, ?formalsMore,
    ?formalsDone, List.forall_mem_nil _⟩
  case program =>
    rintro _ ⟨p, _, rfl, hp, n, _, rfl, hn, s, _, rfl, hs, _, _, rfl,
      ⟨vs, ps, vars, procedures, rfl, hv, hps⟩, bs, _, rfl, ⟨body, hb⟩, e, _, rfl, he, rfl⟩
    have hprogram : ProgramDerives _ _ := .mk (Token.is_of_terminal hp)
      (Token.kind_of_terminal_identifier hn) (Token.is_of_terminal hs) hv hps hb
      (Token.is_of_terminal he)
    exact ⟨_, by simpa using hprogram⟩
  case declList =>
    rintro _ ⟨vs, _, rfl, ⟨vars, hv⟩, ps, _, rfl, ⟨procedures, hps⟩, rfl⟩
    rw [List.append_nil]
    exact ⟨vs, ps, vars, procedures, rfl, hv, hps⟩
  case varsMore =>
    rintro _ ⟨ts, _, rfl, ⟨g, hg⟩, t, _, rfl, ht, us, _, rfl, ⟨gs, hs⟩, rfl⟩
    rw [List.append_nil]
    exact ⟨_, .more hg (Token.is_of_terminal ht) hs⟩
  case varsDone =>
    rintro _ rfl
    exact ⟨[], .none⟩
  case group =>
    rintro _ ⟨ts, _, rfl, ⟨ns, hs⟩, t, _, rfl, ht, _, _, rfl, ⟨u, type, rfl, hu⟩, rfl⟩
    exact ⟨_, .mk hs (Token.is_of_terminal ht) hu⟩
  case proceduresMore =>
    rintro _ ⟨ts, _, rfl, ⟨p, hp⟩, t, _, rfl, ht, us, _, rfl, ⟨ps, hs⟩, rfl⟩
    rw [List.append_nil]
    exact ⟨_, .more hp (Token.is_of_terminal ht) hs⟩
  case proceduresDone =>
    rintro _ rfl
    exact ⟨[], .none⟩
  case names =>
    rintro _ ⟨t, _, rfl, ht, us, _, rfl, hus, rfl⟩
    rw [List.append_nil]
    exact hus t (Token.kind_of_terminal_identifier ht)
  case namesMore =>
    rintro _ ⟨c, _, rfl, hc, t, _, rfl, ht, us, _, rfl, hus, rfl⟩ u hu
    rw [List.append_nil]
    obtain ⟨ns, hns⟩ := hus t (Token.kind_of_terminal_identifier ht)
    exact ⟨_, .more hu (Token.is_of_terminal hc) hns⟩
  case namesDone =>
    rintro _ rfl u hu
    exact ⟨_, .last hu⟩
  case int =>
    rintro _ ⟨t, _, rfl, ht, rfl⟩
    exact ⟨t, _, rfl, .int (Token.is_of_terminal ht)⟩
  case bool =>
    rintro _ ⟨t, _, rfl, ht, rfl⟩
    exact ⟨t, _, rfl, .bool (Token.is_of_terminal ht)⟩
  case procedure =>
    rintro _ ⟨p, _, rfl, hp, n, _, rfl, hn, l, _, rfl, hl, as, _, rfl, ⟨formals, ha⟩, r, _, rfl, hr,
      vs, _, rfl, ⟨locals, hv⟩, bs, _, rfl, ⟨body, hb⟩, rfl⟩
    rw [List.append_nil]
    exact ⟨_, .mk (Token.is_of_terminal hp) (Token.kind_of_terminal_identifier hn)
      (Token.is_of_terminal hl) ha (Token.is_of_terminal hr) hv hb⟩
  case args =>
    rintro _ ⟨ts, _, rfl, ⟨gs, h⟩, rfl⟩
    rw [List.append_nil]
    exact ⟨gs, .some h⟩
  case noArgs =>
    rintro _ rfl
    exact ⟨[], .none⟩
  case formals =>
    rintro _ ⟨n, _, rfl, hn, us, _, rfl, hus, t, _, rfl, ht, _, _, rfl, ⟨u, type, rfl, hu⟩, vs, _, rfl,
      hvs, rfl⟩
    obtain ⟨ns, hns⟩ := hus n (Token.kind_of_terminal_identifier hn)
    have hgroup : GroupDerives _ _ := .mk hns (Token.is_of_terminal ht) hu
    obtain ⟨gs, hgs⟩ := hvs _ _ hgroup
    refine ⟨gs, ?_⟩
    simpa using hgs
  case formalsMore =>
    rintro _ ⟨t, _, rfl, ht, vs, _, rfl, ⟨gs, hs⟩, rfl⟩ us g hg
    rw [List.append_nil]
    exact ⟨_, .more hg (Token.is_of_terminal ht) hs⟩
  case formalsDone =>
    rintro _ rfl us g hg
    rw [List.append_nil]
    exact ⟨_, .last hg⟩

theorem statements_justified : ∀ p ∈ statements, Justified p := by
  simp only [statements, List.forall_mem_cons]
  refine ⟨?block, ?first, ?lone, ?more, ?done, ?ifStmt, ?whileStmt, ?printStmt, ?named, ?assign, ?call,
    ?ite, ?ifElse, ?ifThen, ?loop, ?print, ?actuals, ?noActuals, ?actual, ?actualsMore,
    ?actualsDone, List.forall_mem_nil _⟩
  case block =>
    rintro _ ⟨b, _, rfl, hb, ts, _, rfl, ⟨c, hc⟩, e, _, rfl, he, rfl⟩
    exact ⟨c, .block (Token.is_of_terminal hb) hc (Token.is_of_terminal he)⟩
  case first =>
    rintro _ ⟨ts, _, rfl, ⟨a, ha⟩, t, _, rfl, ht, us, _, rfl, ⟨b, hb⟩, rfl⟩
    rw [List.append_nil]
    exact ⟨_, .first ha (Token.is_of_terminal ht) hb⟩
  case lone =>
    rintro _ ⟨t, _, rfl, ht, us, _, rfl, ⟨b, hb⟩, rfl⟩
    rw [List.append_nil]
    exact ⟨_, .lone (Token.is_of_terminal ht) hb⟩
  case more =>
    rintro _ ⟨ts, _, rfl, ⟨a, ha⟩, t, _, rfl, ht, us, _, rfl, ⟨b, hb⟩, rfl⟩
    rw [List.append_nil]
    exact ⟨_, .more ha (Token.is_of_terminal ht) hb⟩
  case done =>
    rintro _ rfl
    exact ⟨_, .done⟩
  case ifStmt | whileStmt | printStmt =>
    rintro _ ⟨ts, _, rfl, hc, rfl⟩
    rw [List.append_nil]
    exact hc
  case named =>
    rintro _ ⟨t, _, rfl, ht, us, _, rfl, hus, rfl⟩
    rw [List.append_nil]
    exact hus t (Token.kind_of_terminal_identifier ht)
  case assign =>
    rintro _ ⟨u, _, rfl, hu, ts, _, rfl, ⟨e, he⟩, rfl⟩ t ht
    rw [List.append_nil]
    exact ⟨_, .assign ht (Token.is_of_terminal hu) he⟩
  case call =>
    rintro _ ⟨l, _, rfl, hl, ts, _, rfl, ⟨es, hs⟩, r, _, rfl, hr, rfl⟩ t ht
    exact ⟨_, .call ht (Token.is_of_terminal hl) hs (Token.is_of_terminal hr)⟩
  case ite =>
    rintro _ ⟨i, _, rfl, hi, cs, _, rfl, ⟨c, hc⟩, t, _, rfl, ht, ts, _, rfl, ⟨a, ha⟩, us, _, rfl, hus,
      rfl⟩
    rw [List.append_nil]
    rcases hus with rfl | ⟨u, vs, b, rfl, hu, hb⟩
    · rw [List.append_nil]
      exact ⟨_, .ifThen (Token.is_of_terminal hi) hc (Token.is_of_terminal ht) ha⟩
    · exact ⟨_, .ifElse (Token.is_of_terminal hi) hc (Token.is_of_terminal ht) ha hu hb⟩
  case ifElse =>
    rintro _ ⟨t, _, rfl, ht, us, _, rfl, ⟨c, hc⟩, rfl⟩
    rw [List.append_nil]
    exact .inr ⟨t, us, c, rfl, Token.is_of_terminal ht, hc⟩
  case ifThen =>
    rintro _ rfl
    exact .inl rfl
  case loop =>
    rintro _ ⟨w, _, rfl, hw, cs, _, rfl, ⟨c, hc⟩, l, _, rfl, hl, ts, _, rfl, ⟨s, hs⟩, rfl⟩
    rw [List.append_nil]
    exact ⟨_, .loop (Token.is_of_terminal hw) hc (Token.is_of_terminal hl) hs⟩
  case print =>
    rintro _ ⟨p, _, rfl, hp, ts, _, rfl, ⟨e, he⟩, rfl⟩
    rw [List.append_nil]
    exact ⟨_, .print (Token.is_of_terminal hp) he⟩
  case actuals =>
    rintro _ ⟨ts, _, rfl, ⟨es, h⟩, rfl⟩
    rw [List.append_nil]
    exact ⟨es, .some h⟩
  case noActuals =>
    rintro _ rfl
    exact ⟨[], .none⟩
  case actual =>
    rintro _ ⟨ts, _, rfl, ⟨e, he⟩, us, _, rfl, hus, rfl⟩
    rw [List.append_nil]
    exact hus ts e he
  case actualsMore =>
    rintro _ ⟨t, _, rfl, ht, vs, _, rfl, ⟨e, he⟩, ws, _, rfl, hws, rfl⟩ us a ha
    rw [List.append_nil]
    obtain ⟨es, hes⟩ := hws vs e he
    exact ⟨_, .more ha (Token.is_of_terminal ht) hes⟩
  case actualsDone =>
    rintro _ rfl us a ha
    rw [List.append_nil]
    exact ⟨_, .last ha⟩

theorem expressions_justified : ∀ p ∈ expressions, Justified p := by
  simp only [expressions, List.forall_mem_cons]
  refine ⟨?expr, ?relation, ?plain, ?simple, ?simpleMore, ?simpleDone, ?term, ?termMore, ?termDone,
    ?identifier, ?number, ?paren, ?signed, List.forall_mem_nil _⟩
  case expr =>
    rintro _ ⟨ts, _, rfl, ⟨a, ha⟩, us, _, rfl, hus, rfl⟩
    rw [List.append_nil]
    exact hus ts a ha
  case relation =>
    rintro _ ⟨_, _, rfl, ⟨t, op, rfl, hk, ht⟩, vs, _, rfl, ⟨b, hb⟩, rfl⟩ us a ha
    rw [List.append_nil]
    exact ⟨_, .relation op ha hk ht hb⟩
  case plain =>
    rintro _ rfl us a ha
    rw [List.append_nil]
    exact ⟨a, .plain ha⟩
  case simple =>
    rintro _ ⟨ts, _, rfl, ⟨a, ha⟩, us, _, rfl, hus, rfl⟩
    rw [List.append_nil]
    obtain ⟨e, he⟩ := hus a
    exact ⟨e, .simple ha he⟩
  case simpleMore =>
    rintro _ ⟨_, _, rfl, ⟨t, op, rfl, hk, ht⟩, ts, _, rfl, ⟨b, hb⟩, us, _, rfl, hus, rfl⟩ a
    rw [List.append_nil, List.singleton_append]
    obtain ⟨e, he⟩ := hus (.binary op a b)
    exact ⟨e, .simpleMore op hk ht hb he⟩
  case simpleDone =>
    rintro _ rfl a
    exact ⟨a, .simpleDone⟩
  case term =>
    rintro _ ⟨ts, _, rfl, ⟨a, ha⟩, us, _, rfl, hus, rfl⟩
    rw [List.append_nil]
    obtain ⟨e, he⟩ := hus a
    exact ⟨e, .term ha he⟩
  case termMore =>
    rintro _ ⟨_, _, rfl, ⟨t, op, rfl, hk, ht⟩, ts, _, rfl, ⟨b, hb⟩, us, _, rfl, hus, rfl⟩ a
    rw [List.append_nil, List.singleton_append]
    obtain ⟨e, he⟩ := hus (.binary op a b)
    exact ⟨e, .termMore op hk ht hb he⟩
  case termDone =>
    rintro _ rfl a
    exact ⟨a, .termDone⟩
  case identifier =>
    rintro _ ⟨t, _, rfl, ht, rfl⟩
    exact ⟨_, .identifier (Token.kind_of_terminal_identifier ht)⟩
  case number =>
    rintro _ ⟨t, _, rfl, ht, rfl⟩
    exact ⟨_, .number (Token.kind_of_terminal_number ht)⟩
  case paren =>
    rintro _ ⟨l, _, rfl, hl, ts, _, rfl, ⟨e, he⟩, r, _, rfl, hr, rfl⟩
    exact ⟨e, .paren (Token.is_of_terminal hl) he (Token.is_of_terminal hr)⟩
  case signed =>
    rintro _ ⟨_, _, rfl, ⟨t, s, rfl, ht⟩, ts, _, rfl, ⟨e, he⟩, rfl⟩
    rw [List.append_nil, List.singleton_append]
    exact ⟨_, .signed s ht he⟩

theorem words_justified {n : Nonterminal} {as : List Terminal}
    (h : ∀ (t : Token), t.terminal ∈ as → Means n [t]) : ∀ p ∈ words n as, Justified p := by
  intro p hp
  obtain ⟨a, ha, rfl⟩ := List.mem_map.1 hp
  rintro _ ⟨t, _, rfl, ht, rfl⟩
  exact h t (ht ▸ ha)

/-- A word of an operator of one kind. -/
theorem exists_operator_of_mem {t : Token} {k : Kind} (ops : List Operator)
    (hk : ∀ op ∈ ops, op.kind = k) (h : t.terminal ∈ ops.map fun op => Terminal.word op.kind op.attr) :
    ∃ (u : Token) (op : Operator), [t] = [u] ∧ op.kind = k ∧ u.is op.kind op.attr := by
  obtain ⟨op, hop, ht⟩ := List.mem_map.1 h
  exact ⟨t, op, rfl, hk op hop, Token.is_of_terminal ht.symm⟩

theorem table_justified : ∀ p ∈ table, Justified p := by
  have hsign : ∀ t : Token, t.terminal ∈ signs → Means .sign [t] := by
    intro t ht
    obtain ⟨s, -, hs⟩ := List.mem_map.1
      (show t.terminal ∈ [Sign.plus, .minus, .not].map fun s => Terminal.word s.kind s.attr from ht)
    exact ⟨t, s, rfl, Token.is_of_terminal hs.symm⟩
  have hrelop : ∀ t : Token, t.terminal ∈ relops → Means .relop [t] := fun t ht =>
    exists_operator_of_mem [.equal, .notEqual, .greater, .greaterEqual, .less, .lessEqual]
      (by decide) ht
  have haddop : ∀ t : Token, t.terminal ∈ addops → Means .addop [t] := fun t ht =>
    exists_operator_of_mem [.plus, .minus, .or] (by decide) ht
  have hmulop : ∀ t : Token, t.terminal ∈ mulops → Means .mulop [t] := fun t ht =>
    exists_operator_of_mem [.times, .slash, .and] (by decide) ht
  simp only [table, List.forall_mem_append]
  exact ⟨⟨⟨declarations_justified, statements_justified⟩, expressions_justified⟩,
    ⟨⟨⟨words_justified hsign, words_justified hrelop⟩, words_justified haddop⟩,
      words_justified hmulop⟩⟩

/-- Tokens whose terminals a form yields split into parts for its symbols. -/
theorem splits_of_yields {form : List (Part Terminal Nonterminal)} {w : List Terminal}
    (h : Yields (rulesOf table) form w) {ts : List Token} (hts : ts.map Token.terminal = w) :
    Splits form ts := by
  induction h generalizing ts with
  | nil => exact List.map_eq_nil_iff.1 hts
  | terminal _ ih =>
    obtain ⟨t, us, rfl, ht, hus⟩ := List.map_eq_cons_iff.1 hts
    exact ⟨t, us, rfl, ht, ih hus⟩
  | nonterminal hr _ _ ihu ihv =>
    obtain ⟨us, vs, rfl, hus, hvs⟩ := List.map_eq_append_iff.1 hts
    obtain ⟨p, hp, rfl⟩ := List.mem_map.1 hr
    exact ⟨us, vs, rfl, table_justified p hp us (ihu hus), ihv hvs⟩

theorem exists_program {ts : List Token} (h : ts.map Token.terminal ∈ grammar.language) :
    ∃ p, ProgramDerives ts p := by
  obtain ⟨us, _, rfl, hp, rfl⟩ := splits_of_yields (mem_language_iff.1 h) rfl
  rw [List.append_nil]
  exact hp

end Source.Grammar

end OnePass

import OnePass.Compiler.Production
import OnePass.Proofs.Grammar.Predictive

namespace OnePass

namespace Source

open Compiler ContextFreeGrammar

/-- A token as the grammar sees it: names and numbers are all alike. -/
inductive Terminal where
  | identifier
  | number
  | word (kind : Kind) (attr : Attr)
  deriving DecidableEq, Repr

/-- The productions of a compilation, and the nonterminals for which it has no production of their own. -/
inductive Nonterminal where
  | production (p : Production)
  | declList | actualList | exprRest | simpleExprRest | termRest | sign
  | relop | addop | mulop
  deriving DecidableEq, Repr

end Source

/-- The terminal that a token stands for. -/
def Token.terminal (t : Token) : Source.Terminal :=
  match t.kind with
  | .identifier => .identifier
  | .number => .number
  | k => .word k t.attr

namespace Source

open Compiler ContextFreeGrammar

namespace Grammar

abbrev identifier : Part Terminal Nonterminal := .terminal .identifier

abbrev number : Part Terminal Nonterminal := .terminal .number

abbrev keyword (a : Attr) : Part Terminal Nonterminal := .terminal (.word .keyword a)

abbrev punct (a : Attr) : Part Terminal Nonterminal := .terminal (.word .punct a)

abbrev sub (p : Production) : Part Terminal Nonterminal := .nonterminal (.production p)

/-- How a statement can begin. -/
def stmtFirst : List Terminal :=
  [.identifier, .word .keyword .ifKw, .word .keyword .whileKw, .word .keyword .printKw]

def signs : List Terminal := [.word .addop .plus, .word .addop .minus, .word .keyword .notKw]

/-- How an expression can begin. -/
def exprFirst : List Terminal := [.identifier, .number, .word .punct .leftParen] ++ signs

def relops : List Terminal :=
  [.word .relop .equal, .word .relop .notEqual, .word .relop .greater, .word .relop .greaterEqual,
    .word .relop .less, .word .relop .lessEqual]

def addops : List Terminal := [.word .addop .plus, .word .addop .minus, .word .addop .or]

def mulops : List Terminal := [.word .mulop .times, .word .mulop .slash, .word .mulop .and]

/-- The rules for the declarations of a program. -/
def declarations : List (Prediction Terminal Nonterminal) :=
  [⟨⟨.production .program, [keyword .programKw, identifier, punct .semicolon,
      .nonterminal .declList, sub .block, punct .semicolon]⟩, some [.word .keyword .programKw]⟩,
    ⟨⟨.declList, [sub .variableDeclList, sub .procedureDeclList]⟩, none⟩,
    ⟨⟨.production .variableDeclList, [sub .variableDecl, punct .semicolon, sub .variableDeclList]⟩,
      some [.identifier]⟩,
    ⟨⟨.production .variableDeclList, []⟩,
      some [.word .keyword .procedureKw, .word .keyword .beginKw]⟩,
    ⟨⟨.production .variableDecl, [sub .identifierList, punct .colon, sub .standardType]⟩, none⟩,
    ⟨⟨.production .procedureDeclList,
      [sub .procedureDecl, punct .semicolon, sub .procedureDeclList]⟩,
      some [.word .keyword .procedureKw]⟩,
    ⟨⟨.production .procedureDeclList, []⟩, some [.word .keyword .beginKw]⟩,
    ⟨⟨.production .identifierList, [identifier, sub .identifierListRest]⟩, none⟩,
    ⟨⟨.production .identifierListRest, [punct .comma, identifier, sub .identifierListRest]⟩,
      some [.word .punct .comma]⟩,
    ⟨⟨.production .identifierListRest, []⟩, some [.word .punct .colon]⟩,
    ⟨⟨.production .standardType, [keyword .intKw]⟩, some [.word .keyword .intKw]⟩,
    ⟨⟨.production .standardType, [keyword .boolKw]⟩, some [.word .keyword .boolKw]⟩,
    ⟨⟨.production .procedureDecl, [keyword .procedureKw, identifier, punct .leftParen,
      sub .procedureArgs, punct .rightParen, sub .variableDeclList, sub .block]⟩, none⟩,
    ⟨⟨.production .procedureArgs, [sub .formalList]⟩, some [.identifier]⟩,
    ⟨⟨.production .procedureArgs, []⟩, some [.word .punct .rightParen]⟩,
    ⟨⟨.production .formalList, [identifier, sub .identifierListRest, punct .colon,
      sub .standardType, sub .formalListRest]⟩, none⟩,
    ⟨⟨.production .formalListRest, [punct .semicolon, sub .formalList]⟩,
      some [.word .punct .semicolon]⟩,
    ⟨⟨.production .formalListRest, []⟩, some [.word .punct .rightParen]⟩]

def statements : List (Prediction Terminal Nonterminal) :=
  [⟨⟨.production .block, [keyword .beginKw, sub .stmtList, keyword .endKw]⟩, none⟩,
    ⟨⟨.production .stmtList, [sub .stmt, punct .semicolon, sub .stmtListRest]⟩, some stmtFirst⟩,
    ⟨⟨.production .stmtList, [punct .semicolon, sub .stmtListRest]⟩,
      some [.word .punct .semicolon]⟩,
    ⟨⟨.production .stmtListRest, [sub .stmt, punct .semicolon, sub .stmtListRest]⟩,
      some stmtFirst⟩,
    ⟨⟨.production .stmtListRest, []⟩, some [.word .keyword .endKw]⟩,
    ⟨⟨.production .stmt, [sub .ifStmt]⟩, some [.word .keyword .ifKw]⟩,
    ⟨⟨.production .stmt, [sub .whileStmt]⟩, some [.word .keyword .whileKw]⟩,
    ⟨⟨.production .stmt, [sub .printStmt]⟩, some [.word .keyword .printKw]⟩,
    ⟨⟨.production .stmt, [identifier, sub .assignOrCall]⟩, some [.identifier]⟩,
    ⟨⟨.production .assignOrCall, [punct .assign, sub .expr]⟩, some [.word .punct .assign]⟩,
    ⟨⟨.production .assignOrCall, [punct .leftParen, sub .exprList, punct .rightParen]⟩,
      some [.word .punct .leftParen]⟩,
    ⟨⟨.production .ifStmt, [keyword .ifKw, sub .expr, keyword .thenKw, sub .block,
      sub .ifStmtRest]⟩, none⟩,
    ⟨⟨.production .ifStmtRest, [keyword .elseKw, sub .block]⟩, some [.word .keyword .elseKw]⟩,
    ⟨⟨.production .ifStmtRest, []⟩, some [.word .punct .semicolon]⟩,
    ⟨⟨.production .whileStmt, [keyword .whileKw, sub .expr, keyword .loopKw, sub .block]⟩, none⟩,
    ⟨⟨.production .printStmt, [keyword .printKw, sub .expr]⟩, none⟩,
    ⟨⟨.production .exprList, [.nonterminal .actualList]⟩, some exprFirst⟩,
    ⟨⟨.production .exprList, []⟩, some [.word .punct .rightParen]⟩,
    ⟨⟨.actualList, [sub .expr, sub .actualListRest]⟩, none⟩,
    ⟨⟨.production .actualListRest, [punct .comma, sub .expr, sub .actualListRest]⟩,
      some [.word .punct .comma]⟩,
    ⟨⟨.production .actualListRest, []⟩, some [.word .punct .rightParen]⟩]

/-- A chain of operators may end whatever lies ahead. -/
def expressions : List (Prediction Terminal Nonterminal) :=
  [⟨⟨.production .expr, [sub .simpleExpr, .nonterminal .exprRest]⟩, none⟩,
    ⟨⟨.exprRest, [.nonterminal .relop, sub .simpleExpr]⟩, some relops⟩,
    ⟨⟨.exprRest, []⟩, none⟩,
    ⟨⟨.production .simpleExpr, [sub .term, .nonterminal .simpleExprRest]⟩, none⟩,
    ⟨⟨.simpleExprRest, [.nonterminal .addop, sub .term, .nonterminal .simpleExprRest]⟩,
      some addops⟩,
    ⟨⟨.simpleExprRest, []⟩, none⟩,
    ⟨⟨.production .term, [sub .factor, .nonterminal .termRest]⟩, none⟩,
    ⟨⟨.termRest, [.nonterminal .mulop, sub .factor, .nonterminal .termRest]⟩, some mulops⟩,
    ⟨⟨.termRest, []⟩, none⟩,
    ⟨⟨.production .factor, [identifier]⟩, some [.identifier]⟩,
    ⟨⟨.production .factor, [number]⟩, some [.number]⟩,
    ⟨⟨.production .factor, [punct .leftParen, sub .expr, punct .rightParen]⟩,
      some [.word .punct .leftParen]⟩,
    ⟨⟨.production .factor, [.nonterminal .sign, sub .factor]⟩, some signs⟩]

/-- One rule for each of the words. -/
def words (n : Nonterminal) (as : List Terminal) : List (Prediction Terminal Nonterminal) :=
  as.map fun a => ⟨⟨n, [.terminal a]⟩, some [a]⟩

def table : List (Prediction Terminal Nonterminal) :=
  declarations ++ statements ++ expressions ++
    (words .sign signs ++ words .relop relops ++ words .addop addops ++ words .mulop mulops)

def nullable : Nonterminal → Bool
  | .production .variableDeclList | .production .procedureDeclList
  | .production .identifierListRest | .production .procedureArgs | .production .formalListRest
  | .production .stmtListRest | .production .ifStmtRest | .production .exprList
  | .production .actualListRest | .declList | .exprRest | .simpleExprRest | .termRest => true
  | _ => false

def first : Nonterminal → List Terminal
  | .production .program => [.word .keyword .programKw]
  | .declList => [.identifier, .word .keyword .procedureKw]
  | .production .variableDeclList | .production .variableDecl | .production .identifierList
  | .production .procedureArgs | .production .formalList => [.identifier]
  | .production .procedureDeclList | .production .procedureDecl => [.word .keyword .procedureKw]
  | .production .identifierListRest | .production .actualListRest => [.word .punct .comma]
  | .production .standardType => [.word .keyword .intKw, .word .keyword .boolKw]
  | .production .formalListRest => [.word .punct .semicolon]
  | .production .block => [.word .keyword .beginKw]
  | .production .stmtList => .word .punct .semicolon :: stmtFirst
  | .production .stmtListRest | .production .stmt => stmtFirst
  | .production .assignOrCall => [.word .punct .assign, .word .punct .leftParen]
  | .production .ifStmt => [.word .keyword .ifKw]
  | .production .ifStmtRest => [.word .keyword .elseKw]
  | .production .whileStmt => [.word .keyword .whileKw]
  | .production .printStmt => [.word .keyword .printKw]
  | .production .exprList | .actualList | .production .expr | .production .simpleExpr
  | .production .term | .production .factor => exprFirst
  | .exprRest | .relop => relops
  | .simpleExprRest | .addop => addops
  | .termRest | .mulop => mulops
  | .sign => signs

/-- What can stand behind an expression. -/
def exprFollow : List Terminal :=
  [.word .punct .semicolon, .word .punct .rightParen, .word .punct .comma, .word .keyword .thenKw,
    .word .keyword .loopKw]

def followWords : Nonterminal → List Terminal
  | .production .program => []
  | .declList | .production .procedureDeclList => [.word .keyword .beginKw]
  | .production .variableDeclList => [.word .keyword .procedureKw, .word .keyword .beginKw]
  | .production .variableDecl | .production .procedureDecl => [.word .punct .semicolon]
  | .production .identifierList | .production .identifierListRest => [.word .punct .colon]
  | .production .standardType => [.word .punct .semicolon, .word .punct .rightParen]
  | .production .procedureArgs | .production .formalList | .production .formalListRest
  | .production .exprList | .actualList | .production .actualListRest => [.word .punct .rightParen]
  | .production .block => [.word .punct .semicolon, .word .keyword .elseKw]
  | .production .stmtList | .production .stmtListRest => [.word .keyword .endKw]
  | .production .stmt | .production .assignOrCall | .production .ifStmt | .production .ifStmtRest
  | .production .whileStmt | .production .printStmt => [.word .punct .semicolon]
  | .production .expr | .exprRest => exprFollow
  | .production .simpleExpr | .simpleExprRest => exprFollow ++ relops
  | .production .term | .termRest => exprFollow ++ relops ++ addops
  | .production .factor => exprFollow ++ relops ++ addops ++ mulops
  | .sign | .relop | .addop | .mulop => exprFirst

/-- Only a whole program stands before the end of the input. -/
def lookaheads : Lookaheads Terminal Nonterminal where
  nullable := nullable
  first := first
  follow n := (if n = .production .program then [none] else []) ++ (followWords n).map some

theorem predicts : Predicts table lookaheads :=
  ⟨by decide +kernel, by decide +kernel, by decide +kernel, by decide +kernel, by decide +kernel⟩

/-- An upper bound for the depth of some derivation of a word. -/
def rank : Nonterminal → Nat
  | .production .program => 5
  | .production .procedureDecl => 4
  | .production .ifStmt | .production .whileStmt => 5
  | .production .printStmt | .actualList => 4
  | .production .expr => 3
  | .production .simpleExpr | .production .variableDecl | .production .stmt
  | .production .block => 2
  | .production .term | .production .identifierList | .production .formalList | .declList
  | .production .stmtList | .production .assignOrCall => 1
  | _ => 0

theorem exists_word (n : Nonterminal) : ∃ w, Yields (rulesOf table) [.nonterminal n] w := by
  have hrank : ∀ n, (table.any fun p => p.input = n ∧ p.output.all fun s =>
      match s with
      | .terminal _ => true
      | .nonterminal m => rank m < rank n) = true := by
    intro n
    cases n with
    | production p => cases p <;> decide +kernel
    | _ => decide +kernel
  refine yields_of_rank rank (fun n => ?_) n
  obtain ⟨p, hp, h⟩ := List.any_eq_true.1 (hrank n)
  have h := of_decide_eq_true h
  refine ⟨p, hp, h.1, fun m hm => ?_⟩
  have hm := List.all_eq_true.1 h.2 _ hm
  exact of_decide_eq_true hm

end Grammar

/-- The grammar of programs. -/
def grammar : ContextFreeGrammar Terminal where
  NT := Nonterminal
  initial := .production .program
  rules := (rulesOf Grammar.table).toFinset

namespace Grammar

theorem mem_language_iff {w : List Terminal} :
    w ∈ grammar.language ↔ Yields (rulesOf table) [sub .program] w := by
  have hrules : ∀ r : ContextFreeRule Terminal Nonterminal,
      r ∈ grammar.rules ↔ r ∈ rulesOf table :=
    fun r => List.mem_toFinset (a := r)
  exact derives_iff_yields (g := grammar) hrules

theorem mem_language_of_accepts {n : Nat} {w : List Terminal}
    (h : accepts table n [sub .program] w = true) : w ∈ grammar.language :=
  mem_language_iff.2 (scans_of_accepts h).yields

/-- A sentence is read to its end. -/
theorem scans_of_mem {w : List Terminal} (h : w ∈ grammar.language) :
    Scans table [sub .program] w none := by
  have hend : lookaheads.Respects [none] [sub .program] := by decide
  exact predicts.scans_of_yields (mem_language_iff.1 h) hend List.mem_cons_self

/-- What is read before an unexpected token is the beginning of a sentence, but not with that token. -/
theorem viable_of_sticks {u : List Terminal} {x : Option Terminal}
    (h : Sticks table [sub .program] u x) :
    (∃ w, u ++ w ∈ grammar.language) ∧ ∀ w, w.head? = x → u ++ w ∉ grammar.language := by
  constructor
  · obtain ⟨w, hw⟩ := h.viable exists_word
    exact ⟨w, mem_language_iff.2 hw⟩
  · intro w hw hmem
    refine h.not_scans (y := none) ?_ (scans_of_mem hmem)
    rw [Option.or_none, hw]

end Grammar

end Source

end OnePass

import OnePass.Symbol
import OnePass.Token.Basic

namespace OnePass.Source

inductive Sign where
  | plus | minus | not
  deriving DecidableEq, Repr

def Sign.kind : Sign → Kind
  | plus | minus => .addop
  | not => .keyword

def Sign.attr : Sign → Attr
  | plus => .plus
  | minus => .minus
  | not => .notKw

inductive Operator where
  | times | slash | and
  | plus | minus | or
  | equal | notEqual | greater | greaterEqual | less | lessEqual
  deriving DecidableEq, Repr

namespace Operator

def kind : Operator → Kind
  | times | slash | and => .mulop
  | plus | minus | or => .addop
  | equal | notEqual | greater | greaterEqual | less | lessEqual => .relop

def attr : Operator → Attr
  | times => .times
  | slash => .slash
  | and => .and
  | plus => .plus
  | minus => .minus
  | or => .or
  | equal => .equal
  | notEqual => .notEqual
  | greater => .greater
  | greaterEqual => .greaterEqual
  | less => .less
  | lessEqual => .lessEqual

end Operator

inductive Expr where
  | var (name : Text)
  | num (n : Nat)
  | sign (s : Sign) (e : Expr)
  | binary (op : Operator) (a b : Expr)
  deriving DecidableEq, Repr

/-- A block is the sequence of its statements, closed by `skip`; a missing `else` is `skip` too. -/
inductive Stmt where
  | skip
  | seq (a b : Stmt)
  | assign (name : Text) (e : Expr)
  | call (name : Text) (actuals : List Expr)
  | ite (c : Expr) (a b : Stmt)
  | loop (c : Expr) (body : Stmt)
  | print (e : Expr)
  deriving Repr

/-- Identifiers declared together. -/
structure Group where
  names : List Text
  type : ExprType
  deriving Repr

structure Procedure where
  name : Text
  formals : List Group
  locals : List Group
  body : Stmt
  deriving Repr

structure Program where
  name : Text
  vars : List Group
  procedures : List Procedure
  body : Stmt
  deriving Repr

/-- The nonterminals of expressions; the rest of a chain knows what stands to its left. -/
inductive ExprForm where
  | expr | simpleExpr | term | factor
  | termRest (left : Expr)
  | simpleRest (left : Expr)

inductive ExprForm.Derives : ExprForm → List Token → Expr → Prop where
  | identifier {t : Token} (h : t.kind = .identifier) : Derives .factor [t] (.var t.lexeme)
  | number {t : Token} (h : t.kind = .number) :
      Derives .factor [t] (.num (Nat.ofDigitChars 10 t.lexeme.chars 0))
  | paren {l r : Token} {ts : List Token} {e : Expr} (hl : l.is .punct .leftParen)
      (he : Derives .expr ts e) (hr : r.is .punct .rightParen) :
      Derives .factor (l :: (ts ++ [r])) e
  | signed {t : Token} {ts : List Token} {e : Expr} (s : Sign) (ht : t.is s.kind s.attr)
      (he : Derives .factor ts e) : Derives .factor (t :: ts) (.sign s e)
  | term {ts us : List Token} {a e : Expr} (ha : Derives .factor ts a)
      (he : Derives (.termRest a) us e) : Derives .term (ts ++ us) e
  | termDone {a : Expr} : Derives (.termRest a) [] a
  | termMore {t : Token} {ts us : List Token} {a b e : Expr} (op : Operator)
      (hk : op.kind = .mulop) (ht : t.is op.kind op.attr) (hb : Derives .factor ts b)
      (he : Derives (.termRest (.binary op a b)) us e) :
      Derives (.termRest a) (t :: (ts ++ us)) e
  | simple {ts us : List Token} {a e : Expr} (ha : Derives .term ts a)
      (he : Derives (.simpleRest a) us e) : Derives .simpleExpr (ts ++ us) e
  | simpleDone {a : Expr} : Derives (.simpleRest a) [] a
  | simpleMore {t : Token} {ts us : List Token} {a b e : Expr} (op : Operator)
      (hk : op.kind = .addop) (ht : t.is op.kind op.attr) (hb : Derives .term ts b)
      (he : Derives (.simpleRest (.binary op a b)) us e) :
      Derives (.simpleRest a) (t :: (ts ++ us)) e
  | plain {ts : List Token} {e : Expr} (he : Derives .simpleExpr ts e) : Derives .expr ts e
  | relation {t : Token} {ts us : List Token} {a b : Expr} (op : Operator)
      (ha : Derives .simpleExpr ts a) (hk : op.kind = .relop) (ht : t.is op.kind op.attr)
      (hb : Derives .simpleExpr us b) : Derives .expr (ts ++ t :: us) (.binary op a b)

/-- Actual parameters, at least one. -/
inductive ActualsDerive : List Token → List Expr → Prop where
  | last {ts : List Token} {e : Expr} (he : ExprForm.expr.Derives ts e) : ActualsDerive ts [e]
  | more {t : Token} {ts us : List Token} {e : Expr} {es : List Expr}
      (he : ExprForm.expr.Derives ts e) (ht : t.is .punct .comma) (hs : ActualsDerive us es) :
      ActualsDerive (ts ++ t :: us) (e :: es)

inductive ExprListDerives : List Token → List Expr → Prop where
  | none : ExprListDerives [] []
  | some {ts : List Token} {es : List Expr} (h : ActualsDerive ts es) : ExprListDerives ts es

inductive StmtForm where
  | stmt | block | stmtList | stmtListRest

inductive StmtForm.Derives : StmtForm → List Token → Stmt → Prop where
  | block {b e : Token} {ts : List Token} {s : Stmt} (hb : b.is .keyword .beginKw)
      (hs : Derives .stmtList ts s) (he : e.is .keyword .endKw) :
      Derives .block (b :: (ts ++ [e])) s
  | first {t : Token} {ts us : List Token} {a b : Stmt} (ha : Derives .stmt ts a)
      (ht : t.is .punct .semicolon) (hb : Derives .stmtListRest us b) :
      Derives .stmtList (ts ++ t :: us) (.seq a b)
  | lone {t : Token} {us : List Token} {b : Stmt} (ht : t.is .punct .semicolon)
      (hb : Derives .stmtListRest us b) : Derives .stmtList (t :: us) b
  | done : Derives .stmtListRest [] .skip
  | more {t : Token} {ts us : List Token} {a b : Stmt} (ha : Derives .stmt ts a)
      (ht : t.is .punct .semicolon) (hb : Derives .stmtListRest us b) :
      Derives .stmtListRest (ts ++ t :: us) (.seq a b)
  | assign {t u : Token} {ts : List Token} {e : Expr} (ht : t.kind = .identifier)
      (hu : u.is .punct .assign) (he : ExprForm.expr.Derives ts e) :
      Derives .stmt (t :: u :: ts) (.assign t.lexeme e)
  | call {t l r : Token} {ts : List Token} {es : List Expr} (ht : t.kind = .identifier)
      (hl : l.is .punct .leftParen) (hs : ExprListDerives ts es) (hr : r.is .punct .rightParen) :
      Derives .stmt (t :: l :: (ts ++ [r])) (.call t.lexeme es)
  | ifThen {i t : Token} {cs ts : List Token} {c : Expr} {a : Stmt} (hi : i.is .keyword .ifKw)
      (hc : ExprForm.expr.Derives cs c) (ht : t.is .keyword .thenKw) (ha : Derives .block ts a) :
      Derives .stmt (i :: (cs ++ t :: ts)) (.ite c a .skip)
  | ifElse {i t u : Token} {cs ts us : List Token} {c : Expr} {a b : Stmt}
      (hi : i.is .keyword .ifKw) (hc : ExprForm.expr.Derives cs c) (ht : t.is .keyword .thenKw)
      (ha : Derives .block ts a) (hu : u.is .keyword .elseKw) (hb : Derives .block us b) :
      Derives .stmt (i :: (cs ++ t :: (ts ++ u :: us))) (.ite c a b)
  | loop {w l : Token} {cs ts : List Token} {c : Expr} {s : Stmt} (hw : w.is .keyword .whileKw)
      (hc : ExprForm.expr.Derives cs c) (hl : l.is .keyword .loopKw) (hs : Derives .block ts s) :
      Derives .stmt (w :: (cs ++ l :: ts)) (.loop c s)
  | print {p : Token} {ts : List Token} {e : Expr} (hp : p.is .keyword .printKw)
      (he : ExprForm.expr.Derives ts e) : Derives .stmt (p :: ts) (.print e)

inductive NamesDerive : List Token → List Text → Prop where
  | last {t : Token} (ht : t.kind = .identifier) : NamesDerive [t] [t.lexeme]
  | more {t u : Token} {ts : List Token} {ns : List Text} (ht : t.kind = .identifier)
      (hu : u.is .punct .comma) (hs : NamesDerive ts ns) :
      NamesDerive (t :: u :: ts) (t.lexeme :: ns)

inductive TypeDerives : Token → ExprType → Prop where
  | int {t : Token} (h : t.is .keyword .intKw) : TypeDerives t .int
  | bool {t : Token} (h : t.is .keyword .boolKw) : TypeDerives t .bool

inductive GroupDerives : List Token → Group → Prop where
  | mk {t u : Token} {ts : List Token} {ns : List Text} {type : ExprType} (hs : NamesDerive ts ns)
      (ht : t.is .punct .colon) (hu : TypeDerives u type) : GroupDerives (ts ++ [t, u]) ⟨ns, type⟩

/-- Groups of variables, each closed by a semicolon. -/
inductive VarsDerive : List Token → List Group → Prop where
  | none : VarsDerive [] []
  | more {t : Token} {ts us : List Token} {g : Group} {gs : List Group} (hg : GroupDerives ts g)
      (ht : t.is .punct .semicolon) (hs : VarsDerive us gs) :
      VarsDerive (ts ++ t :: us) (g :: gs)

/-- Groups of formal parameters with semicolons between them, at least one. -/
inductive FormalsDerive : List Token → List Group → Prop where
  | last {ts : List Token} {g : Group} (hg : GroupDerives ts g) : FormalsDerive ts [g]
  | more {t : Token} {ts us : List Token} {g : Group} {gs : List Group} (hg : GroupDerives ts g)
      (ht : t.is .punct .semicolon) (hs : FormalsDerive us gs) :
      FormalsDerive (ts ++ t :: us) (g :: gs)

inductive ArgsDerive : List Token → List Group → Prop where
  | none : ArgsDerive [] []
  | some {ts : List Token} {gs : List Group} (h : FormalsDerive ts gs) : ArgsDerive ts gs

inductive ProcedureDerives : List Token → Procedure → Prop where
  | mk {p n l r : Token} {as vs bs : List Token} {formals locals : List Group} {body : Stmt}
      (hp : p.is .keyword .procedureKw) (hn : n.kind = .identifier)
      (hl : l.is .punct .leftParen) (ha : ArgsDerive as formals) (hr : r.is .punct .rightParen)
      (hv : VarsDerive vs locals) (hb : StmtForm.block.Derives bs body) :
      ProcedureDerives (p :: n :: l :: (as ++ r :: (vs ++ bs))) ⟨n.lexeme, formals, locals, body⟩

inductive ProceduresDerive : List Token → List Procedure → Prop where
  | none : ProceduresDerive [] []
  | more {t : Token} {ts us : List Token} {p : Procedure} {ps : List Procedure}
      (hp : ProcedureDerives ts p) (ht : t.is .punct .semicolon) (hs : ProceduresDerive us ps) :
      ProceduresDerive (ts ++ t :: us) (p :: ps)

/-- The tokens of a program, without the end of input. -/
inductive ProgramDerives : List Token → Program → Prop where
  | mk {p n s e : Token} {vs ps bs : List Token} {vars : List Group}
      {procedures : List Procedure} {body : Stmt}
      (hp : p.is .keyword .programKw) (hn : n.kind = .identifier) (hs : s.is .punct .semicolon)
      (hv : VarsDerive vs vars) (hps : ProceduresDerive ps procedures)
      (hb : StmtForm.block.Derives bs body) (he : e.is .punct .semicolon) :
      ProgramDerives (p :: n :: s :: (vs ++ (ps ++ (bs ++ [e])))) ⟨n.lexeme, vars, procedures, body⟩

end OnePass.Source

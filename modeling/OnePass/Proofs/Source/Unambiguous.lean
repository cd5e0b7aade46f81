import OnePass.Proofs.Source.Syntax

namespace OnePass

theorem Token.kind_of_is {t : Token} {k : Kind} {a : Attr} (h : t.is k a = true) : t.kind = k := by
  simp only [Token.is, Bool.and_eq_true, beq_iff_eq] at h
  exact h.1

theorem Token.attr_of_is {t : Token} {k : Kind} {a : Attr} (h : t.is k a = true) : t.attr = a := by
  simp only [Token.is, Bool.and_eq_true, beq_iff_eq] at h
  exact h.2

/-- A statement can begin with this token. -/
def Token.startsStmt (t : Token) : Bool :=
  t.kind == .identifier || t.is .keyword .ifKw || t.is .keyword .whileKw || t.is .keyword .printKw

/-- An expression can begin with this token. -/
def Token.startsExpr (t : Token) : Bool :=
  t.kind == .identifier || t.kind == .number || t.is .punct .leftParen || t.is .addop .plus ||
    t.is .addop .minus || t.is .keyword .notKw

theorem Token.not_startsExpr {t : Token} (h : t.is .punct .rightParen = true) :
    t.startsExpr = false := by
  simp [Token.startsExpr, Token.is, Token.kind_of_is h, Token.attr_of_is h]

theorem Token.not_startsStmt {t : Token}
    (h : t.is .punct .semicolon = true ∨ t.is .keyword .endKw = true) : t.startsStmt = false := by
  rcases h with h | h <;>
    simp [Token.startsStmt, Token.is, Token.kind_of_is h, Token.attr_of_is h]

namespace Source

theorem Sign.attr_injective {s s' : Sign} (h : s.attr = s'.attr) : s = s' := by
  cases s <;> cases s' <;> cases h <;> rfl

theorem Operator.attr_injective {op op' : Operator} (h : op.attr = op'.attr) : op = op' := by
  cases op <;> cases op' <;> cases h <;> rfl

namespace ExprForm

/-- The operators that continue an expression of this form. -/
def Continues : ExprForm → Token → Prop
  | factor, _ => False
  | term, t | termRest _, t => t.kind = .mulop
  | simpleExpr, t | simpleRest _, t => t.kind = .mulop ∨ t.kind = .addop
  | expr, t => t.kind = .mulop ∨ t.kind = .addop ∨ t.kind = .relop

/-- What follows does not continue an expression of this form. -/
def Stops (form : ExprForm) (rest : List Token) : Prop := ∀ t, rest.head? = some t → ¬form.Continues t

theorem stops_cons {form : ExprForm} {t : Token} {rest : List Token} (h : ¬form.Continues t) :
    form.Stops (t :: rest) := by
  intro u hu
  cases hu
  exact h

theorem Stops.not_continues {form : ExprForm} {t : Token} {rest : List Token}
    (h : form.Stops (t :: rest)) : ¬form.Continues t := h t rfl

theorem stops_factor (rest : List Token) : factor.Stops rest := fun _ _ h => h

/-- The rest of a chain of terms does not continue a term. -/
theorem stops_term_append {a e : Expr} {us rest : List Token} (h : (simpleRest a).Derives us e)
    (hr : (simpleRest a).Stops rest) : term.Stops (us ++ rest) := by
  cases h with
  | simpleDone => exact fun t ht hk => hr t ht (.inl hk)
  | simpleMore op hk ht _ _ =>
    refine stops_cons ?_
    rw [Continues, Token.kind_of_is ht, hk]
    decide

theorem stops_simpleExpr {rest : List Token} (h : expr.Stops rest) : simpleExpr.Stops rest :=
  fun t ht hk => h t ht (hk.imp_right .inl)

theorem stops_relation {op : Operator} {t : Token} {us : List Token} (hk : op.kind = .relop)
    (ht : t.is op.kind op.attr = true) : simpleExpr.Stops (t :: us) := by
  refine stops_cons ?_
  rw [Continues, Token.kind_of_is ht, hk]
  decide

theorem signed_kind (s : Sign) : s.kind = .addop ∨ s.kind = .keyword := by
  cases s
  · exact .inl rfl
  · exact .inl rfl
  · exact .inr rfl

/-- Two derivations of one form that start together end together. -/
theorem Derives.unique {form : ExprForm} {ts : List Token} {e : Expr} (h : form.Derives ts e)
    {ts' : List Token} {e' : Expr} (h' : form.Derives ts' e') {rest rest' : List Token}
    (heq : ts ++ rest = ts' ++ rest') (hr : form.Stops rest) (hr' : form.Stops rest') :
    ts = ts' ∧ e = e' := by
  induction h generalizing ts' e' rest rest' with
  | identifier ht =>
    cases h' with
    | identifier ht' => simp_all
    | number ht' => simp_all
    | paren hl' _ _ =>
      have hk := Token.kind_of_is hl'
      simp_all
    | signed s' ht' _ =>
      have hk := Token.kind_of_is ht'
      rcases signed_kind s' with hs | hs <;> simp_all
  | number ht =>
    cases h' with
    | identifier ht' => simp_all
    | number ht' => simp_all
    | paren hl' _ _ =>
      have hk := Token.kind_of_is hl'
      simp_all
    | signed s' ht' _ =>
      have hk := Token.kind_of_is ht'
      rcases signed_kind s' with hs | hs <;> simp_all
  | paren hl he hrp ih =>
    have hk := Token.kind_of_is hl
    cases h' with
    | identifier ht' => simp_all
    | number ht' => simp_all
    | signed s' ht' _ =>
      have hk' := Token.kind_of_is ht'
      rcases signed_kind s' with hs | hs <;> simp_all
    | paren hl' he' hrp' =>
      simp only [List.cons_append, List.append_assoc, List.nil_append, List.cons.injEq] at heq
      obtain ⟨rfl, heq⟩ := heq
      have hstop : ∀ {r : Token} {us : List Token}, r.is .punct .rightParen = true →
          expr.Stops (r :: us) := fun h => stops_cons (by simp [Continues, Token.kind_of_is h])
      obtain ⟨rfl, rfl⟩ := ih he' heq (hstop hrp) (hstop hrp')
      simp_all
  | signed s ht he ih =>
    have hk := Token.kind_of_is ht
    cases h' with
    | identifier ht' => rcases signed_kind s with hs | hs <;> simp_all
    | number ht' => rcases signed_kind s with hs | hs <;> simp_all
    | paren hl' _ _ =>
      have hk' := Token.kind_of_is hl'
      rcases signed_kind s with hs | hs <;> simp_all
    | signed s' ht' he' =>
      simp only [List.cons_append, List.cons.injEq] at heq
      obtain ⟨rfl, heq⟩ := heq
      obtain rfl : s = s' :=
        Sign.attr_injective ((Token.attr_of_is ht).symm.trans (Token.attr_of_is ht'))
      obtain ⟨rfl, rfl⟩ := ih he' heq hr hr'
      exact ⟨rfl, rfl⟩
  | term ha he iha ihe =>
    cases h' with
    | term ha' he' =>
      rw [List.append_assoc, List.append_assoc] at heq
      obtain ⟨rfl, rfl⟩ := iha ha' heq (stops_factor _) (stops_factor _)
      obtain ⟨rfl, rfl⟩ := ihe he' (List.append_cancel_left heq) hr hr'
      exact ⟨rfl, rfl⟩
  | termDone =>
    cases h' with
    | termDone => exact ⟨rfl, rfl⟩
    | termMore op hk ht _ _ =>
      rw [List.nil_append] at heq
      subst heq
      exact absurd ((Token.kind_of_is ht).trans hk) hr.not_continues
  | termMore op hk ht hb he ihb ihe =>
    cases h' with
    | termDone =>
      rw [List.nil_append] at heq
      subst heq
      exact absurd ((Token.kind_of_is ht).trans hk) hr'.not_continues
    | termMore op' hk' ht' hb' he' =>
      simp only [List.cons_append, List.append_assoc, List.cons.injEq] at heq
      obtain ⟨rfl, heq⟩ := heq
      obtain rfl : op = op' :=
        Operator.attr_injective ((Token.attr_of_is ht).symm.trans (Token.attr_of_is ht'))
      obtain ⟨rfl, rfl⟩ := ihb hb' heq (stops_factor _) (stops_factor _)
      obtain ⟨rfl, rfl⟩ := ihe he' (List.append_cancel_left heq) hr hr'
      exact ⟨rfl, rfl⟩
  | simple ha he iha ihe =>
    cases h' with
    | simple ha' he' =>
      rw [List.append_assoc, List.append_assoc] at heq
      obtain ⟨rfl, rfl⟩ := iha ha' heq (stops_term_append he hr) (stops_term_append he' hr')
      obtain ⟨rfl, rfl⟩ := ihe he' (List.append_cancel_left heq) hr hr'
      exact ⟨rfl, rfl⟩
  | simpleDone =>
    cases h' with
    | simpleDone => exact ⟨rfl, rfl⟩
    | simpleMore op hk ht _ _ =>
      rw [List.nil_append] at heq
      subst heq
      exact absurd (.inr ((Token.kind_of_is ht).trans hk)) hr.not_continues
  | simpleMore op hk ht hb he ihb ihe =>
    cases h' with
    | simpleDone =>
      rw [List.nil_append] at heq
      subst heq
      exact absurd (.inr ((Token.kind_of_is ht).trans hk)) hr'.not_continues
    | simpleMore op' hk' ht' hb' he' =>
      simp only [List.cons_append, List.append_assoc, List.cons.injEq] at heq
      obtain ⟨rfl, heq⟩ := heq
      obtain rfl : op = op' :=
        Operator.attr_injective ((Token.attr_of_is ht).symm.trans (Token.attr_of_is ht'))
      obtain ⟨rfl, rfl⟩ := ihb hb' heq (stops_term_append he hr) (stops_term_append he' hr')
      obtain ⟨rfl, rfl⟩ := ihe he' (List.append_cancel_left heq) hr hr'
      exact ⟨rfl, rfl⟩
  | plain he ih =>
    have hs := stops_simpleExpr hr
    have hs' := stops_simpleExpr hr'
    cases h' with
    | plain he' => exact ih he' heq hs hs'
    | relation op' ha' hk' ht' hb' =>
      rw [List.append_assoc] at heq
      obtain ⟨rfl, -⟩ := ih ha' heq hs (stops_relation hk' ht')
      obtain rfl := List.append_cancel_left heq
      exact absurd (.inr (.inr ((Token.kind_of_is ht').trans hk'))) hr.not_continues
  | relation op ha hk ht hb iha ihb =>
    have hs := stops_simpleExpr hr
    have hs' := stops_simpleExpr hr'
    cases h' with
    | plain he' =>
      rw [List.append_assoc] at heq
      obtain ⟨rfl, -⟩ := iha he' heq (stops_relation hk ht) hs'
      obtain rfl := List.append_cancel_left heq
      exact absurd (.inr (.inr ((Token.kind_of_is ht).trans hk))) hr'.not_continues
    | relation op' ha' hk' ht' hb' =>
      rw [List.append_assoc, List.append_assoc] at heq
      obtain ⟨rfl, rfl⟩ := iha ha' heq (stops_relation hk ht) (stops_relation hk' ht')
      have htail := List.append_cancel_left heq
      simp only [List.cons_append, List.cons.injEq] at htail
      obtain ⟨rfl, htail⟩ := htail
      obtain rfl : op = op' :=
        Operator.attr_injective ((Token.attr_of_is ht).symm.trans (Token.attr_of_is ht'))
      obtain ⟨rfl, rfl⟩ := ihb hb' htail hs hs'
      exact ⟨rfl, rfl⟩

theorem Derives.starts {form : ExprForm} {ts : List Token} {e : Expr} (h : form.Derives ts e)
    (hform : ∀ a, form ≠ .termRest a ∧ form ≠ .simpleRest a) :
    ∃ t us, ts = t :: us ∧ t.startsExpr = true := by
  induction h with
  | identifier ht | number ht => exact ⟨_, _, rfl, by simp [Token.startsExpr, ht]⟩
  | paren ht _ _ _ => exact ⟨_, _, rfl, by simp [Token.startsExpr, ht]⟩
  | signed sg ht _ _ =>
    refine ⟨_, _, rfl, ?_⟩
    cases sg <;> simp only [Sign.kind, Sign.attr] at ht <;> simp [Token.startsExpr, ht]
  | term _ _ iha _ | simple _ _ iha _ | relation _ _ _ _ _ iha _ =>
    obtain ⟨t, us, rfl, ht⟩ := iha (by simp)
    exact ⟨t, _, rfl, ht⟩
  | plain _ ih => exact ih (by simp)
  | @termDone a | @termMore _ _ _ a => exact absurd rfl (hform a).1
  | @simpleDone a | @simpleMore _ _ _ a => exact absurd rfl (hform a).2

theorem stops_punct {t : Token} {a : Attr} {rest : List Token} (h : t.is .punct a = true) :
    expr.Stops (t :: rest) :=
  stops_cons (by simp [Continues, Token.kind_of_is h])

theorem stops_keyword {t : Token} {a : Attr} {rest : List Token} (h : t.is .keyword a = true) :
    expr.Stops (t :: rest) :=
  stops_cons (by simp [Continues, Token.kind_of_is h])

/-- Expressions in front of a token that stops them. -/
theorem Derives.unique_before {ts ts' us us' : List Token} {e e' : Expr} {t t' : Token}
    (h : expr.Derives ts e) (h' : expr.Derives ts' e') (heq : ts ++ t :: us = ts' ++ t' :: us')
    (hr : expr.Stops (t :: us)) (hr' : expr.Stops (t' :: us')) :
    ts = ts' ∧ e = e' ∧ t = t' ∧ us = us' := by
  obtain ⟨rfl, rfl⟩ := h.unique h' heq hr hr'
  simpa using List.append_cancel_left heq

end ExprForm

/-- What follows starts with this token. -/
def Starts (k : Kind) (a : Attr) (rest : List Token) : Prop :=
  ∃ t us, rest = t :: us ∧ t.is k a = true

theorem Starts.cons {k : Kind} {a : Attr} {t : Token} {rest : List Token} (h : t.is k a = true) :
    Starts k a (t :: rest) := ⟨t, rest, rfl, h⟩

theorem Starts.is {k : Kind} {a : Attr} {t : Token} {rest : List Token} (h : Starts k a (t :: rest)) :
    t.is k a = true := by
  obtain ⟨u, us, hu, h⟩ := h
  cases hu
  exact h

theorem Starts.stops {a : Attr} {rest : List Token} (h : Starts .punct a rest) :
    ExprForm.expr.Stops rest := by
  obtain ⟨t, us, rfl, ht⟩ := h
  exact ExprForm.stops_punct ht

theorem ActualsDerive.unique {ts ts' : List Token} {es es' : List Expr} (h : ActualsDerive ts es)
    (h' : ActualsDerive ts' es') {rest rest' : List Token} (heq : ts ++ rest = ts' ++ rest')
    (hr : Starts .punct .rightParen rest) (hr' : Starts .punct .rightParen rest') :
    ts = ts' ∧ es = es' := by
  induction h generalizing ts' es' with
  | last he =>
    cases h' with
    | last he' =>
      obtain ⟨rfl, rfl⟩ := he.unique he' heq hr.stops hr'.stops
      exact ⟨rfl, rfl⟩
    | more he' ht' hs' =>
      rw [List.append_assoc] at heq
      obtain ⟨rfl, -⟩ := he.unique he' heq hr.stops (ExprForm.stops_punct ht')
      obtain rfl := List.append_cancel_left heq
      have hcomma := Token.attr_of_is ht'
      rw [Token.attr_of_is hr.is] at hcomma
      cases hcomma
  | more he ht hs ih =>
    cases h' with
    | last he' =>
      rw [List.append_assoc] at heq
      obtain ⟨rfl, -⟩ := he.unique he' heq (ExprForm.stops_punct ht) hr'.stops
      obtain rfl := List.append_cancel_left heq
      have hcomma := Token.attr_of_is ht
      rw [Token.attr_of_is hr'.is] at hcomma
      cases hcomma
    | more he' ht' hs' =>
      rw [List.append_assoc, List.append_assoc] at heq
      obtain ⟨rfl, rfl, rfl, htail⟩ :=
        he.unique_before he' heq (ExprForm.stops_punct ht) (ExprForm.stops_punct ht')
      obtain ⟨rfl, rfl⟩ := ih hs' htail
      exact ⟨rfl, rfl⟩

theorem ActualsDerive.starts {ts : List Token} {es : List Expr} (h : ActualsDerive ts es) :
    ∃ t us, ts = t :: us ∧ t.startsExpr = true := by
  cases h with
  | last he => exact he.starts (by simp)
  | more he _ _ =>
    obtain ⟨t, us, rfl, ht⟩ := he.starts (by simp)
    exact ⟨t, _, rfl, ht⟩

theorem ExprListDerives.unique {ts ts' : List Token} {es es' : List Expr}
    (h : ExprListDerives ts es) (h' : ExprListDerives ts' es') {rest rest' : List Token}
    (heq : ts ++ rest = ts' ++ rest') (hr : Starts .punct .rightParen rest)
    (hr' : Starts .punct .rightParen rest') : ts = ts' ∧ es = es' := by
  have hne : ∀ {us : List Token} {ds : List Expr} {r r' : List Token}, ActualsDerive us ds →
      Starts .punct .rightParen r → r ≠ us ++ r' := by
    rintro us ds r r' hd hstart rfl
    obtain ⟨t, us, rfl, ht⟩ := hd.starts
    rw [Token.not_startsExpr (Starts.is hstart)] at ht
    cases ht
  cases h with
  | none =>
    cases h' with
    | none => exact ⟨rfl, rfl⟩
    | some hs' => exact absurd heq (hne hs' hr)
  | some hs =>
    cases h' with
    | none => exact absurd heq.symm (hne hs hr')
    | some hs' => exact hs.unique hs' heq hr hr'

namespace StmtForm

/-- What follows a statement form wherever the grammar uses it. -/
def Ends : StmtForm → List Token → Prop
  | block, _ => True
  | stmt, rest => Starts .punct .semicolon rest
  | stmtList, rest | stmtListRest, rest => Starts .keyword .endKw rest

theorem Derives.starts {ts : List Token} {c : Stmt} (h : stmt.Derives ts c) :
    ∃ t us, ts = t :: us ∧ t.startsStmt = true := by
  cases h with
  | assign ht | call ht => exact ⟨_, _, rfl, by simp [Token.startsStmt, ht]⟩
  | ifThen ht | ifElse ht | loop ht | print ht =>
    exact ⟨_, _, rfl, by simp [Token.startsStmt, ht]⟩

/-- Two derivations of one form that start together end together. -/
theorem Derives.unique {form : StmtForm} {ts : List Token} {c : Stmt} (h : form.Derives ts c)
    {ts' : List Token} {c' : Stmt} (h' : form.Derives ts' c') {rest rest' : List Token}
    (heq : ts ++ rest = ts' ++ rest') (hr : form.Ends rest) (hr' : form.Ends rest') :
    ts = ts' ∧ c = c' := by
  induction h generalizing ts' c' rest rest' with
  | block hb hs he ih =>
    cases h' with
    | block hb' hs' he' =>
      simp only [List.cons_append, List.append_assoc, List.nil_append, List.cons.injEq] at heq
      obtain ⟨rfl, heq⟩ := heq
      obtain ⟨rfl, rfl⟩ := ih hs' heq (.cons he) (.cons he')
      simp_all
  | first ha ht hb iha ihb =>
    cases h' with
    | first ha' ht' hb' =>
      rw [List.append_assoc, List.append_assoc] at heq
      obtain ⟨rfl, rfl⟩ := iha ha' heq (.cons ht) (.cons ht')
      have htail := List.append_cancel_left heq
      simp only [List.cons_append, List.cons.injEq] at htail
      obtain ⟨rfl, htail⟩ := htail
      obtain ⟨rfl, rfl⟩ := ihb hb' htail hr hr'
      exact ⟨rfl, rfl⟩
    | lone ht' hb' =>
      obtain ⟨u, us, rfl, hu⟩ := ha.starts
      simp only [List.cons_append, List.cons.injEq] at heq
      rw [heq.1, Token.not_startsStmt (.inl ht')] at hu
      cases hu
  | lone ht hb ihb =>
    cases h' with
    | first ha' ht' hb' =>
      obtain ⟨u, us, rfl, hu⟩ := ha'.starts
      simp only [List.cons_append, List.cons.injEq] at heq
      rw [← heq.1, Token.not_startsStmt (.inl ht)] at hu
      cases hu
    | lone ht' hb' =>
      simp only [List.cons_append, List.cons.injEq] at heq
      obtain ⟨rfl, heq⟩ := heq
      obtain ⟨rfl, rfl⟩ := ihb hb' heq hr hr'
      exact ⟨rfl, rfl⟩
  | done =>
    cases h' with
    | done => exact ⟨rfl, rfl⟩
    | more ha' ht' hb' =>
      obtain ⟨u, us, rfl, hu⟩ := ha'.starts
      subst heq
      rw [Token.not_startsStmt (.inr (Starts.is hr))] at hu
      cases hu
  | more ha ht hb iha ihb =>
    cases h' with
    | done =>
      obtain ⟨u, us, rfl, hu⟩ := ha.starts
      rw [List.nil_append] at heq
      subst heq
      rw [Token.not_startsStmt (.inr (Starts.is hr'))] at hu
      cases hu
    | more ha' ht' hb' =>
      rw [List.append_assoc, List.append_assoc] at heq
      obtain ⟨rfl, rfl⟩ := iha ha' heq (.cons ht) (.cons ht')
      have htail := List.append_cancel_left heq
      simp only [List.cons_append, List.cons.injEq] at htail
      obtain ⟨rfl, htail⟩ := htail
      obtain ⟨rfl, rfl⟩ := ihb hb' htail hr hr'
      exact ⟨rfl, rfl⟩
  | assign ht hu he =>
    cases h' with
    | assign ht' hu' he' =>
      simp only [List.cons_append, List.cons.injEq] at heq
      obtain ⟨rfl, rfl, heq⟩ := heq
      obtain ⟨rfl, rfl⟩ := he.unique he' heq hr.stops hr'.stops
      exact ⟨rfl, rfl⟩
    | call ht' hl' hs' hp' =>
      simp only [List.cons_append, List.cons.injEq] at heq
      exact absurd hl' (by simp [← heq.2.1, Token.is, Token.attr_of_is hu])
    | ifThen hi' | ifElse hi' | loop hi' | print hi' =>
      have hk := Token.kind_of_is hi'
      simp_all
  | call ht hl hs hp =>
    cases h' with
    | assign ht' hu' he' =>
      simp only [List.cons_append, List.cons.injEq] at heq
      exact absurd hl (by simp [heq.2.1, Token.is, Token.attr_of_is hu'])
    | call ht' hl' hs' hp' =>
      simp only [List.cons_append, List.append_assoc, List.nil_append, List.cons.injEq] at heq
      obtain ⟨rfl, rfl, heq⟩ := heq
      obtain ⟨rfl, rfl⟩ := hs.unique hs' heq (.cons hp) (.cons hp')
      simp_all
    | ifThen hi' | ifElse hi' | loop hi' | print hi' =>
      have hk := Token.kind_of_is hi'
      simp_all
  | ifThen hi hc ht ha ih =>
    cases h' with
    | assign ht' | call ht' =>
      have hk := Token.kind_of_is hi
      simp_all
    | loop hi' | print hi' =>
      have hk := Token.attr_of_is hi
      have hk' := Token.attr_of_is hi'
      simp_all
    | ifThen hi' hc' ht' ha' =>
      simp only [List.cons_append, List.append_assoc, List.cons.injEq] at heq
      obtain ⟨rfl, heq⟩ := heq
      obtain ⟨rfl, rfl, rfl, htail⟩ := hc.unique_before hc' heq (ExprForm.stops_keyword ht)
        (ExprForm.stops_keyword ht')
      obtain ⟨rfl, rfl⟩ := ih ha' htail trivial trivial
      exact ⟨rfl, rfl⟩
    | ifElse hi' hc' ht' ha' hu' hb' =>
      simp only [List.cons_append, List.append_assoc, List.cons.injEq] at heq
      obtain ⟨rfl, heq⟩ := heq
      obtain ⟨rfl, rfl, rfl, htail⟩ := hc.unique_before hc' heq (ExprForm.stops_keyword ht)
        (ExprForm.stops_keyword ht')
      obtain ⟨rfl, rfl⟩ := ih ha' htail trivial trivial
      obtain rfl := List.append_cancel_left htail
      have helse := Token.kind_of_is hu'
      rw [Token.kind_of_is hr.is] at helse
      cases helse
  | ifElse hi hc ht ha hu hb iha ihb =>
    cases h' with
    | assign ht' | call ht' =>
      have hk := Token.kind_of_is hi
      simp_all
    | loop hi' | print hi' =>
      have hk := Token.attr_of_is hi
      have hk' := Token.attr_of_is hi'
      simp_all
    | ifThen hi' hc' ht' ha' =>
      simp only [List.cons_append, List.append_assoc, List.cons.injEq] at heq
      obtain ⟨rfl, heq⟩ := heq
      obtain ⟨rfl, rfl, rfl, htail⟩ := hc.unique_before hc' heq (ExprForm.stops_keyword ht)
        (ExprForm.stops_keyword ht')
      obtain ⟨rfl, rfl⟩ := iha ha' htail trivial trivial
      obtain rfl := List.append_cancel_left htail
      have helse := Token.kind_of_is hu
      rw [Token.kind_of_is hr'.is] at helse
      cases helse
    | ifElse hi' hc' ht' ha' hu' hb' =>
      simp only [List.cons_append, List.append_assoc, List.cons.injEq] at heq
      obtain ⟨rfl, heq⟩ := heq
      obtain ⟨rfl, rfl, rfl, htail⟩ := hc.unique_before hc' heq (ExprForm.stops_keyword ht)
        (ExprForm.stops_keyword ht')
      obtain ⟨rfl, rfl⟩ := iha ha' htail trivial trivial
      have hlast := List.append_cancel_left htail
      simp only [List.cons.injEq] at hlast
      obtain ⟨rfl, hlast⟩ := hlast
      obtain ⟨rfl, rfl⟩ := ihb hb' hlast trivial trivial
      exact ⟨rfl, rfl⟩
  | loop hw hc hl hs ih =>
    cases h' with
    | assign ht' | call ht' =>
      have hk := Token.kind_of_is hw
      simp_all
    | ifThen hi' | ifElse hi' | print hi' =>
      have hk := Token.attr_of_is hw
      have hk' := Token.attr_of_is hi'
      simp_all
    | loop hw' hc' hl' hs' =>
      simp only [List.cons_append, List.append_assoc, List.cons.injEq] at heq
      obtain ⟨rfl, heq⟩ := heq
      obtain ⟨rfl, rfl, rfl, htail⟩ := hc.unique_before hc' heq (ExprForm.stops_keyword hl)
        (ExprForm.stops_keyword hl')
      obtain ⟨rfl, rfl⟩ := ih hs' htail trivial trivial
      exact ⟨rfl, rfl⟩
  | print hp he =>
    cases h' with
    | assign ht' | call ht' =>
      have hk := Token.kind_of_is hp
      simp_all
    | ifThen hi' | ifElse hi' | loop hi' =>
      have hk := Token.attr_of_is hp
      have hk' := Token.attr_of_is hi'
      simp_all
    | print hp' he' =>
      simp only [List.cons_append, List.cons.injEq] at heq
      obtain ⟨rfl, heq⟩ := heq
      obtain ⟨rfl, rfl⟩ := he.unique he' heq hr.stops hr'.stops
      exact ⟨rfl, rfl⟩

end StmtForm

theorem Starts.disjoint {k k' : Kind} {a a' : Attr} {rest : List Token} (h : Starts k a rest)
    (h' : Starts k' a' rest) : k = k' ∧ a = a' := by
  obtain ⟨t, us, rfl, ht⟩ := h
  have ht' := h'.is
  exact ⟨(Token.kind_of_is ht).symm.trans (Token.kind_of_is ht'),
    (Token.attr_of_is ht).symm.trans (Token.attr_of_is ht')⟩

theorem NamesDerive.unique {ts ts' us us' : List Token} {ns ns' : List Text} {t t' : Token}
    (h : NamesDerive ts ns) (h' : NamesDerive ts' ns') (heq : ts ++ t :: us = ts' ++ t' :: us')
    (ht : t.is .punct .colon = true) (ht' : t'.is .punct .colon = true) :
    ts = ts' ∧ ns = ns' ∧ us = us' := by
  induction h generalizing ts' ns' with
  | last hn =>
    cases h' with
    | last hn' => simp_all
    | more hn' hu' _ =>
      simp only [List.cons_append, List.nil_append, List.cons.injEq] at heq
      rw [heq.2.1] at ht
      exact absurd ((Token.attr_of_is ht).symm.trans (Token.attr_of_is hu')) (by decide)
  | more hn hu hs ih =>
    cases h' with
    | last hn' =>
      simp only [List.cons_append, List.nil_append, List.cons.injEq] at heq
      rw [← heq.2.1] at ht'
      exact absurd ((Token.attr_of_is ht').symm.trans (Token.attr_of_is hu)) (by decide)
    | more hn' hu' hs' =>
      simp only [List.cons_append, List.cons.injEq] at heq
      obtain ⟨rfl, rfl, heq⟩ := heq
      obtain ⟨rfl, rfl, rfl⟩ := ih hs' heq
      exact ⟨rfl, rfl, rfl⟩

theorem TypeDerives.unique {t : Token} {type type' : ExprType} (h : TypeDerives t type)
    (h' : TypeDerives t type') : type = type' := by
  cases h with
  | int h =>
    cases h' with
    | int h' => rfl
    | bool h' => exact absurd ((Token.attr_of_is h).symm.trans (Token.attr_of_is h')) (by decide)
  | bool h =>
    cases h' with
    | int h' => exact absurd ((Token.attr_of_is h).symm.trans (Token.attr_of_is h')) (by decide)
    | bool h' => rfl

/-- A group ends with its type, whatever follows. -/
theorem GroupDerives.unique {ts ts' rest rest' : List Token} {g g' : Group}
    (h : GroupDerives ts g) (h' : GroupDerives ts' g') (heq : ts ++ rest = ts' ++ rest') :
    ts = ts' ∧ g = g' ∧ rest = rest' := by
  cases h with
  | mk hs ht hu =>
    cases h' with
    | mk hs' ht' hu' =>
      simp only [List.append_assoc, List.cons_append, List.nil_append] at heq
      obtain ⟨rfl, rfl, htail⟩ := hs.unique hs' heq ht ht'
      simp only [List.cons.injEq] at htail
      obtain ⟨rfl, rfl⟩ := htail
      obtain rfl := hu.unique hu'
      simp_all

/-- A group starts with an identifier. -/
theorem GroupDerives.head {ts : List Token} {g : Group} (h : GroupDerives ts g) :
    ∃ t us, ts = t :: us ∧ t.kind = .identifier := by
  cases h with
  | mk hs ht hu =>
    cases hs with
    | last hn => exact ⟨_, _, rfl, hn⟩
    | more hn _ _ => exact ⟨_, _, rfl, hn⟩

theorem GroupDerives.not_starts {ts rest : List Token} {g : Group} (h : GroupDerives ts g) {k : Kind}
    {a : Attr} (hk : k ≠ .identifier) : ¬Starts k a (ts ++ rest) := by
  obtain ⟨t, us, rfl, ht⟩ := h.head
  intro hs
  exact hk ((Token.kind_of_is hs.is).symm.trans ht)

/-- Variable declarations end at a keyword. -/
theorem VarsDerive.unique {ts ts' : List Token} {gs gs' : List Group} (h : VarsDerive ts gs)
    (h' : VarsDerive ts' gs') {rest rest' : List Token} (heq : ts ++ rest = ts' ++ rest')
    {a a' : Attr} (hr : Starts .keyword a rest) (hr' : Starts .keyword a' rest') :
    ts = ts' ∧ gs = gs' := by
  induction h generalizing ts' gs' with
  | none =>
    cases h' with
    | none => exact ⟨rfl, rfl⟩
    | more hg' _ _ =>
      rw [List.nil_append, List.append_assoc] at heq
      rw [heq] at hr
      exact absurd hr (hg'.not_starts (by decide))
  | more hg ht hs ih =>
    cases h' with
    | none =>
      rw [List.nil_append, List.append_assoc] at heq
      rw [← heq] at hr'
      exact absurd hr' (hg.not_starts (by decide))
    | more hg' ht' hs' =>
      rw [List.append_assoc, List.append_assoc] at heq
      obtain ⟨rfl, rfl, htail⟩ := hg.unique hg' heq
      simp only [List.cons_append, List.cons.injEq] at htail
      obtain ⟨rfl, htail⟩ := htail
      obtain ⟨rfl, rfl⟩ := ih hs' htail
      exact ⟨rfl, rfl⟩

theorem FormalsDerive.unique {ts ts' : List Token} {gs gs' : List Group} (h : FormalsDerive ts gs)
    (h' : FormalsDerive ts' gs') {rest rest' : List Token} (heq : ts ++ rest = ts' ++ rest')
    (hr : Starts .punct .rightParen rest) (hr' : Starts .punct .rightParen rest') :
    ts = ts' ∧ gs = gs' := by
  induction h generalizing ts' gs' with
  | last hg =>
    cases h' with
    | last hg' =>
      obtain ⟨rfl, rfl, -⟩ := hg.unique hg' heq
      exact ⟨rfl, rfl⟩
    | more hg' ht' _ =>
      rw [List.append_assoc] at heq
      obtain ⟨rfl, rfl, rfl⟩ := hg.unique hg' heq
      exact absurd (hr.disjoint (.cons ht')).2 (by decide)
  | more hg ht hs ih =>
    cases h' with
    | last hg' =>
      rw [List.append_assoc] at heq
      obtain ⟨rfl, rfl, rfl⟩ := hg.unique hg' heq
      exact absurd (hr'.disjoint (.cons ht)).2 (by decide)
    | more hg' ht' hs' =>
      rw [List.append_assoc, List.append_assoc] at heq
      obtain ⟨rfl, rfl, htail⟩ := hg.unique hg' heq
      simp only [List.cons_append, List.cons.injEq] at htail
      obtain ⟨rfl, htail⟩ := htail
      obtain ⟨rfl, rfl⟩ := ih hs' htail
      exact ⟨rfl, rfl⟩

theorem FormalsDerive.not_starts {ts rest : List Token} {gs : List Group} (h : FormalsDerive ts gs)
    {k : Kind} {a : Attr} (hk : k ≠ .identifier) : ¬Starts k a (ts ++ rest) := by
  cases h with
  | last hg => exact hg.not_starts hk
  | more hg _ _ =>
    rw [List.append_assoc]
    exact hg.not_starts hk

theorem ArgsDerive.unique {ts ts' : List Token} {gs gs' : List Group} (h : ArgsDerive ts gs)
    (h' : ArgsDerive ts' gs') {rest rest' : List Token} (heq : ts ++ rest = ts' ++ rest')
    (hr : Starts .punct .rightParen rest) (hr' : Starts .punct .rightParen rest') :
    ts = ts' ∧ gs = gs' := by
  cases h with
  | none =>
    cases h' with
    | none => exact ⟨rfl, rfl⟩
    | some hs' =>
      rw [List.nil_append] at heq
      rw [heq] at hr
      exact absurd hr (hs'.not_starts (by decide))
  | some hs =>
    cases h' with
    | none =>
      rw [List.nil_append] at heq
      rw [← heq] at hr'
      exact absurd hr' (hs.not_starts (by decide))
    | some hs' => exact hs.unique hs' heq hr hr'

theorem StmtForm.Derives.starts_block {ts rest : List Token} {c : Stmt}
    (h : StmtForm.block.Derives ts c) : Starts .keyword .beginKw (ts ++ rest) := by
  cases h with
  | block hb _ _ => exact .cons hb

theorem ProcedureDerives.unique {ts ts' rest rest' : List Token} {p p' : Procedure}
    (h : ProcedureDerives ts p) (h' : ProcedureDerives ts' p') (heq : ts ++ rest = ts' ++ rest') :
    ts = ts' ∧ p = p' ∧ rest = rest' := by
  cases h with
  | mk hp hn hl ha hr hv hb =>
    cases h' with
    | mk hp' hn' hl' ha' hr' hv' hb' =>
      simp only [List.cons_append, List.append_assoc, List.cons.injEq] at heq
      obtain ⟨rfl, rfl, rfl, heq⟩ := heq
      obtain ⟨rfl, rfl⟩ := ha.unique ha' heq (.cons hr) (.cons hr')
      have htail := List.append_cancel_left heq
      simp only [List.cons.injEq] at htail
      obtain ⟨rfl, htail⟩ := htail
      obtain ⟨rfl, rfl⟩ := hv.unique hv' htail hb.starts_block hb'.starts_block
      have hlast := List.append_cancel_left htail
      obtain ⟨rfl, rfl⟩ := hb.unique hb' hlast trivial trivial
      exact ⟨rfl, rfl, List.append_cancel_left hlast⟩

theorem ProcedureDerives.starts {ts rest : List Token} {p : Procedure} (h : ProcedureDerives ts p) :
    Starts .keyword .procedureKw (ts ++ rest) := by
  cases h with
  | mk hp _ _ _ _ _ _ => exact .cons hp

/-- Procedures end at the main block. -/
theorem ProceduresDerive.unique {ts ts' : List Token} {ps ps' : List Procedure}
    (h : ProceduresDerive ts ps) (h' : ProceduresDerive ts' ps') {rest rest' : List Token}
    (heq : ts ++ rest = ts' ++ rest') (hr : Starts .keyword .beginKw rest)
    (hr' : Starts .keyword .beginKw rest') : ts = ts' ∧ ps = ps' := by
  induction h generalizing ts' ps' with
  | none =>
    cases h' with
    | none => exact ⟨rfl, rfl⟩
    | more hp' _ _ =>
      rw [List.nil_append, List.append_assoc] at heq
      rw [heq] at hr
      exact absurd (hr.disjoint hp'.starts).2 (by decide)
  | more hp ht hs ih =>
    cases h' with
    | none =>
      rw [List.nil_append, List.append_assoc] at heq
      rw [← heq] at hr'
      exact absurd (hr'.disjoint hp.starts).2 (by decide)
    | more hp' ht' hs' =>
      rw [List.append_assoc, List.append_assoc] at heq
      obtain ⟨rfl, rfl, htail⟩ := hp.unique hp' heq
      simp only [List.cons_append, List.cons.injEq] at htail
      obtain ⟨rfl, htail⟩ := htail
      obtain ⟨rfl, rfl⟩ := ih hs' htail
      exact ⟨rfl, rfl⟩

/-- The procedures and the main block start with a keyword. -/
theorem ProceduresDerive.starts {ts rest : List Token} {ps : List Procedure}
    (h : ProceduresDerive ts ps) (hr : Starts .keyword .beginKw rest) :
    ∃ a, Starts .keyword a (ts ++ rest) := by
  cases h with
  | none => exact ⟨_, hr⟩
  | more hp _ _ =>
    rw [List.append_assoc]
    exact ⟨_, hp.starts⟩

/-- A sequence of tokens derives as at most one program. -/
theorem ProgramDerives.unique {ts : List Token} {p p' : Program} (h : ProgramDerives ts p)
    (h' : ProgramDerives ts p') : p = p' := by
  cases h with
  | mk hp hn hs hv hps hb he =>
    generalize heq : _ :: _ :: _ :: _ = us at h'
    cases h' with
    | mk hp' hn' hs' hv' hps' hb' he' =>
      simp only [List.cons.injEq] at heq
      obtain ⟨rfl, rfl, rfl, heq⟩ := heq
      obtain ⟨a, ha⟩ := hps.starts hb.starts_block
      obtain ⟨a', ha'⟩ := hps'.starts hb'.starts_block
      obtain ⟨rfl, rfl⟩ := hv.unique hv' heq ha ha'
      have htail := List.append_cancel_left heq
      obtain ⟨rfl, rfl⟩ := hps.unique hps' htail hb.starts_block hb'.starts_block
      obtain ⟨rfl, rfl⟩ := hb.unique hb' (List.append_cancel_left htail) trivial trivial
      rfl

end Source

end OnePass

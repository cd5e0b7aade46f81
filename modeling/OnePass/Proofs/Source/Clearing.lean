import OnePass.Proofs.Compiler.Lowering
import OnePass.Proofs.Source.Places
import OnePass.Proofs.Source.Typing

namespace OnePass.Source

/-- The tokens of a procedure before its body. -/
inductive Heading : List Token → Prop where
  | mk {p n l r : Token} {as vs : List Token} {formals locals : List Group}
      (hp : p.is .keyword .procedureKw) (hn : n.kind = .identifier) (hl : l.is .punct .leftParen)
      (ha : ArgsDerive as formals) (hr : r.is .punct .rightParen) (hv : VarsDerive vs locals) :
      Heading (p :: n :: l :: (as ++ r :: vs))

/-- The second sequence of tokens is the first with some lists of actual parameters left empty and some bodies
of procedures replaced by `begin ; end`. -/
inductive Clears : List Token → List Token → Prop where
  | nil : Clears [] []
  | keep (t : Token) {ts us : List Token} (h : Clears ts us) : Clears (t :: ts) (t :: us)
  | actuals {n l r : Token} {as ts us : List Token} {es : List Expr} (hn : n.kind = .identifier)
      (hl : l.is .punct .leftParen) (ha : ExprListDerives as es) (hr : r.is .punct .rightParen)
      (h : Clears ts us) : Clears (n :: l :: (as ++ r :: ts)) (n :: l :: r :: us)
  | body {b s e : Token} {hs bs ts us : List Token} {a : Stmt} (hh : Heading hs)
      (ha : StmtForm.block.Derives bs a) (hb : b.is .keyword .beginKw)
      (hsemi : s.is .punct .semicolon) (he : e.is .keyword .endKw) (h : Clears ts us) :
      Clears (hs ++ (bs ++ ts)) (hs ++ b :: s :: e :: us)

/-- The second statement is the first with some calls stripped of their actual parameters. -/
inductive Stmt.Stripped : Stmt → Stmt → Prop where
  | same (a : Stmt) : Stripped a a
  | call (p : Text) (es : List Expr) : Stripped (.call p es) (.call p [])
  | seq {a a' b b' : Stmt} (ha : Stripped a a') (hb : Stripped b b') :
      Stripped (.seq a b) (.seq a' b')
  | ite (c : Expr) {a a' b b' : Stmt} (ha : Stripped a a') (hb : Stripped b b') :
      Stripped (.ite c a b) (.ite c a' b')
  | loop (c : Expr) {a a' : Stmt} (ha : Stripped a a') : Stripped (.loop c a) (.loop c a')

structure Procedure.Stripped (q q' : Procedure) : Prop where
  name : q'.name = q.name
  formals : q'.formals = q.formals
  locals : q'.locals = q.locals
  body : q'.body = .skip ∨ q.body.Stripped q'.body

structure Program.Stripped (p p' : Program) : Prop where
  name : p'.name = p.name
  vars : p'.vars = p.vars
  procedures : List.Forall₂ Procedure.Stripped p.procedures p'.procedures
  body : p.body.Stripped p'.body

/-- A call has no code, whatever its actual parameters. -/
theorem Stmt.Stripped.lower {a a' : Stmt} (h : a.Stripped a') : a'.lower = a.lower := by
  induction h with
  | same => rfl
  | call => rfl
  | seq _ _ iha ihb => simp only [Stmt.lower, iha, ihb]
  | ite c _ _ iha ihb => simp only [Stmt.lower, iha, ihb]
  | loop c _ ih => simp only [Stmt.lower, ih]

theorem Stmt.Stripped.checks {Γ : List Symbol} {program scope : Text} {a a' : Stmt}
    (h : a.Stripped a') (ha : a.Checks Γ program scope) : a'.Checks Γ program scope := by
  induction h with
  | same => exact ha
  | call =>
    cases ha with
    | call hp hproc _ => exact .call hp hproc (by simp)
  | seq _ _ iha ihb =>
    cases ha with
    | seq ha hb => exact .seq (iha ha) (ihb hb)
  | ite _ _ _ iha ihb =>
    cases ha with
    | ite hc ha hb => exact .ite hc (iha ha) (ihb hb)
  | loop _ _ ih =>
    cases ha with
    | loop hc hs => exact .loop hc (ih hs)

theorem Procedure.Stripped.entries {q q' : Procedure} (h : q.Stripped q') (program : Text) :
    q'.entries program = q.entries program := by
  simp only [Procedure.entries, h.name, h.formals, h.locals]

theorem Procedure.Stripped.checks {q q' : Procedure} (h : q.Stripped q') {Γ : List Symbol}
    {program scope : Text} (hq : q.body.Checks Γ program scope) : q'.body.Checks Γ program scope := by
  rcases h.body with hskip | hbody
  · rw [hskip]
    exact .skip
  · exact hbody.checks hq

namespace Program.Stripped

variable {p p' : Program}

/-- Up to any procedure the same declarations are visible. -/
theorem visible (h : p.Stripped p') {qs qs' : List Procedure}
    (hqs : List.Forall₂ Procedure.Stripped qs qs') : p'.visible qs' = p.visible qs := by
  have hentries : qs'.flatMap (Procedure.entries p.name) = qs.flatMap (Procedure.entries p.name) := by
    induction hqs with
    | nil => rfl
    | cons hq _ ih => simp only [List.flatMap_cons, hq.entries, ih]
  simp only [Program.visible, Program.entries, h.name, h.vars, hentries]

theorem entries (h : p.Stripped p') : p'.entries = p.entries := h.visible h.procedures

theorem lower (h : p.Stripped p') : p'.lower = p.lower := by
  simp only [Program.lower, h.name, h.body.lower]

/-- A cleared program keeps the rules if the whole one does. -/
theorem wellFormed (h : p.Stripped p') (hp : p.WellFormed) : p'.WellFormed where
  distinct := h.entries ▸ hp.distinct
  procedures := by
    intro before' q' after' hsplit
    have hprocs := h.procedures
    rw [hsplit] at hprocs
    have htake := List.forall₂_take_append _ _ _ hprocs
    have hdrop := List.forall₂_drop_append _ _ _ hprocs
    obtain ⟨q, after, hq, -, hrest⟩ := List.forall₂_cons_right_iff.1 hdrop
    have hold := hp.procedures (p.procedures.take before'.length) q after (by
      rw [← hrest, List.take_append_drop])
    have hvisible := h.visible (List.rel_append htake (.cons hq .nil))
    rw [hvisible, h.name, hq.name]
    exact hq.checks hold
  main := by
    rw [h.entries, h.name]
    exact h.body.checks hp.main

end Program.Stripped

/-- The tokens begin like a call or like the heading of a procedure. -/
def Opens : List Token → Prop
  | [] => False
  | t :: ts => t.is .keyword .procedureKw = true ∨
      t.kind = .identifier ∧ Starts .punct .leftParen ts

/-- In front of `rest` no call and no heading begins inside of the tokens. -/
def Firm : List Token → List Token → Prop
  | [], _ => True
  | t :: ts, rest => ¬Opens (t :: (ts ++ rest)) ∧ Firm ts rest

theorem firm_append {ts us rest : List Token} :
    Firm (ts ++ us) rest ↔ Firm ts (us ++ rest) ∧ Firm us rest := by
  induction ts with
  | nil => simp [Firm]
  | cons t ts ih => simp [Firm, ih, and_assoc]

theorem Clears.eq_nil {us : List Token} (h : Clears [] us) : us = [] := by
  generalize hxs : [] = xs at h
  cases h with
  | nil => rfl
  | keep | actuals => cases hxs
  | body hh _ _ _ _ _ =>
    cases hh
    cases hxs

theorem Clears.keep_head {t : Token} {ts us : List Token} (h : Clears (t :: ts) us)
    (ht : ¬Opens (t :: ts)) : ∃ us', us = t :: us' ∧ Clears ts us' := by
  generalize hxs : t :: ts = xs at h
  cases h with
  | nil => cases hxs
  | keep t h =>
    cases hxs
    exact ⟨_, rfl, h⟩
  | actuals hn hl _ _ _ =>
    cases hxs
    exact absurd (.inr ⟨hn, .cons hl⟩) ht
  | body hh _ _ _ _ _ =>
    cases hh with
    | mk hp _ _ _ _ _ =>
      cases hxs
      exact absurd (.inl hp) ht

theorem Clears.keep_all {ts rest us : List Token} (h : Clears (ts ++ rest) us)
    (hts : Firm ts rest) : ∃ rest', us = ts ++ rest' ∧ Clears rest rest' := by
  induction ts generalizing us with
  | nil => exact ⟨us, rfl, h⟩
  | cons t ts ih =>
    obtain ⟨us', rfl, htail⟩ := h.keep_head hts.1
    obtain ⟨rest', rfl, hrest⟩ := ih htail hts.2
    exact ⟨rest', rfl, hrest⟩

theorem not_opens_of_kind {t : Token} {ts : List Token} (hid : t.kind ≠ .identifier)
    (hk : t.kind ≠ .keyword) : ¬Opens (t :: ts) := by
  rintro (h | h)
  · exact hk (Token.kind_of_is h)
  · exact hid h.1

theorem not_opens_of_is {t : Token} {ts : List Token} {k : Kind} {a : Attr} (h : t.is k a = true)
    (hk : k ≠ .identifier) (ha : a ≠ .procedureKw) : ¬Opens (t :: ts) := by
  rintro (h' | h')
  · exact ha ((Token.attr_of_is h).symm.trans (Token.attr_of_is h'))
  · exact hk ((Token.kind_of_is h).symm.trans h'.1)

theorem not_opens_identifier {t : Token} {ts : List Token} (ht : t.kind = .identifier)
    (hts : ¬Starts .punct .leftParen ts) : ¬Opens (t :: ts) := by
  rintro (h | h)
  · rw [Token.kind_of_is h] at ht
    cases ht
  · exact hts h.2

theorem not_starts_of_is {t : Token} {ts : List Token} {k : Kind} {a : Attr} (h : t.is k a = true)
    (ha : a ≠ .leftParen) : ¬Starts .punct .leftParen (t :: ts) :=
  fun hs => ha ((Token.attr_of_is h).symm.trans (Token.attr_of_is hs.is))

theorem Operator.attr_ne_leftParen (op : Operator) : op.attr ≠ .leftParen := by
  cases op <;> simp [Operator.attr]

theorem not_opens_operator {op : Operator} {t : Token} {ts : List Token}
    (ht : t.is op.kind op.attr = true) : ¬Opens (t :: ts) := by
  have hkind : op.kind ≠ .identifier := by cases op <;> simp [Operator.kind]
  have hattr : op.attr ≠ .procedureKw := by cases op <;> simp [Operator.attr]
  exact not_opens_of_is ht hkind hattr

/-- A rest of a chain is empty or begins with its operator. -/
theorem ExprForm.Derives.not_starts_rest {form : ExprForm} {us rest : List Token} {a e : Expr}
    (h : form.Derives us e) (hform : form = .termRest a ∨ form = .simpleRest a)
    (hr : ¬Starts .punct .leftParen rest) : ¬Starts .punct .leftParen (us ++ rest) := by
  cases h with
  | termDone | simpleDone => exact hr
  | termMore op _ ht _ _ | simpleMore op _ ht _ _ =>
    exact not_starts_of_is ht op.attr_ne_leftParen
  | identifier | number | paren | signed | term | simple | plain | relation => simp at hform

/-- No identifier of an expression has a parenthesis behind it. -/
theorem ExprForm.Derives.firm {form : ExprForm} {ts rest : List Token} {e : Expr}
    (h : form.Derives ts e) (hr : ¬Starts .punct .leftParen rest) : Firm ts rest := by
  induction h generalizing rest with
  | identifier ht => exact ⟨not_opens_identifier ht hr, trivial⟩
  | number ht => exact ⟨not_opens_of_kind (by simp [ht]) (by simp [ht]), trivial⟩
  | paren hl _ hp ih =>
    have hinside : Firm (_ ++ [_]) rest := firm_append.2
      ⟨ih (not_starts_of_is hp (by decide)), not_opens_of_is hp (by decide) (by decide), trivial⟩
    exact ⟨not_opens_of_is hl (by decide) (by decide), hinside⟩
  | signed s ht _ ih =>
    have hkind : s.kind ≠ .identifier := by cases s <;> simp [Sign.kind]
    have hattr : s.attr ≠ .procedureKw := by cases s <;> simp [Sign.attr]
    exact ⟨not_opens_of_is ht hkind hattr, ih hr⟩
  | term _ he iha ihe => exact firm_append.2 ⟨iha (he.not_starts_rest (.inl rfl) hr), ihe hr⟩
  | termDone | simpleDone => trivial
  | termMore op _ ht _ he ihb ihe =>
    have hchain := firm_append.2 ⟨ihb (he.not_starts_rest (.inl rfl) hr), ihe hr⟩
    exact ⟨not_opens_operator ht, hchain⟩
  | simple _ he iha ihe => exact firm_append.2 ⟨iha (he.not_starts_rest (.inr rfl) hr), ihe hr⟩
  | simpleMore op _ ht _ he ihb ihe =>
    have hchain := firm_append.2 ⟨ihb (he.not_starts_rest (.inr rfl) hr), ihe hr⟩
    exact ⟨not_opens_operator ht, hchain⟩
  | plain _ ih => exact ih hr
  | relation op _ _ ht _ iha ihb =>
    exact firm_append.2
      ⟨iha (not_starts_of_is ht op.attr_ne_leftParen), not_opens_operator ht, ihb hr⟩

theorem ActualsDerive.firm {ts rest : List Token} {es : List Expr} (h : ActualsDerive ts es)
    (hr : ¬Starts .punct .leftParen rest) : Firm ts rest := by
  induction h with
  | last he => exact he.firm hr
  | more he ht _ ih =>
    exact firm_append.2 ⟨he.firm (not_starts_of_is ht (by decide)),
      not_opens_of_is ht (by decide) (by decide), ih⟩

theorem ExprListDerives.firm {ts rest : List Token} {es : List Expr} (h : ExprListDerives ts es)
    (hr : ¬Starts .punct .leftParen rest) : Firm ts rest := by
  cases h with
  | none => trivial
  | some h => exact h.firm hr

theorem NamesDerive.firm {ts rest : List Token} {ns : List Text} (h : NamesDerive ts ns)
    (hr : ¬Starts .punct .leftParen rest) : Firm ts rest := by
  induction h with
  | last ht => exact ⟨not_opens_identifier ht hr, trivial⟩
  | more ht hu _ ih =>
    exact ⟨not_opens_identifier ht (not_starts_of_is hu (by decide)),
      not_opens_of_is hu (by decide) (by decide), ih⟩

theorem GroupDerives.firm {ts rest : List Token} {g : Group} (h : GroupDerives ts g) :
    Firm ts rest := by
  cases h with
  | @mk t u ts ns type hs ht hu =>
    have htype : ¬Opens (u :: rest) := by
      cases hu with
      | int h | bool h => exact not_opens_of_is h (by decide) (by decide)
    exact firm_append.2 ⟨hs.firm (not_starts_of_is ht (by decide)),
      not_opens_of_is ht (by decide) (by decide), htype, trivial⟩

theorem VarsDerive.firm {ts rest : List Token} {gs : List Group} (h : VarsDerive ts gs) :
    Firm ts rest := by
  induction h with
  | none => trivial
  | more hg ht _ ih =>
    exact firm_append.2 ⟨hg.firm, not_opens_of_is ht (by decide) (by decide), ih⟩

theorem ArgsDerive.firm {ts rest : List Token} {gs : List Group} (h : ArgsDerive ts gs) :
    Firm ts rest := by
  cases h with
  | none => trivial
  | some h =>
    induction h with
    | last hg => exact hg.firm
    | more hg ht _ ih =>
      exact firm_append.2 ⟨hg.firm, not_opens_of_is ht (by decide) (by decide), ih⟩

theorem Clears.keep_is {t : Token} {ts us : List Token} {k : Kind} {a : Attr}
    (h : Clears (t :: ts) us) (ht : t.is k a = true) (hk : k ≠ .identifier)
    (ha : a ≠ .procedureKw) : ∃ us', us = t :: us' ∧ Clears ts us' :=
  h.keep_head (not_opens_of_is ht hk ha)

theorem Clears.keep_expr {ts rest us : List Token} {e : Expr} (h : Clears (ts ++ rest) us)
    (he : ExprForm.expr.Derives ts e) (hr : ¬Starts .punct .leftParen rest) :
    ∃ rest', us = ts ++ rest' ∧ Clears rest rest' := h.keep_all (he.firm hr)

/-- A call keeps its actual parameters or loses them all. -/
theorem Clears.call {t l r : Token} {ts rest us : List Token} {es : List Expr}
    (h : Clears (t :: l :: (ts ++ r :: rest)) us) (ht : t.kind = .identifier)
    (hl : l.is .punct .leftParen) (hs : ExprListDerives ts es) (hr : r.is .punct .rightParen) :
    ∃ rest', (us = t :: l :: (ts ++ r :: rest') ∨ us = t :: l :: r :: rest') ∧
      Clears rest rest' := by
  generalize hxs : t :: l :: (ts ++ r :: rest) = xs at h
  cases h with
  | nil => cases hxs
  | keep t h =>
    cases hxs
    obtain ⟨us, rfl, c1⟩ := h.keep_is hl (by decide) (by decide)
    obtain ⟨us, rfl, c2⟩ := c1.keep_all (hs.firm (not_starts_of_is hr (by decide)))
    obtain ⟨us, rfl, c3⟩ := c2.keep_is hr (by decide) (by decide)
    exact ⟨us, .inl rfl, c3⟩
  | actuals _ _ ha hr' h =>
    simp only [List.cons.injEq] at hxs
    obtain ⟨rfl, rfl, heq⟩ := hxs
    obtain ⟨rfl, -⟩ := hs.unique ha heq (.cons hr) (.cons hr')
    have htail := List.append_cancel_left heq
    cases htail
    exact ⟨_, .inr rfl, h⟩
  | body hh _ _ _ _ _ =>
    cases hh with
    | mk hp _ _ _ _ _ =>
      rw [(List.cons.inj hxs).1, Token.kind_of_is hp] at ht
      cases ht

/-- Clearing behind the first tokens of a statement form stays inside of it. -/
theorem StmtForm.Derives.clears {form : StmtForm} {ts rest us : List Token} {a : Stmt}
    (h : form.Derives ts a) (hr : form.Ends rest) (hc : Clears (ts ++ rest) us) :
    ∃ ts' rest' a', us = ts' ++ rest' ∧ form.Derives ts' a' ∧ a.Stripped a' ∧
      Clears rest rest' := by
  induction h generalizing rest us with
  | block hb _ he ih =>
    simp only [List.cons_append, List.append_assoc, List.nil_append] at hc
    obtain ⟨us, rfl, c1⟩ := hc.keep_is hb (by decide) (by decide)
    obtain ⟨ts', us, a', rfl, hd, hs, c2⟩ := ih (.cons he) c1
    obtain ⟨us, rfl, c3⟩ := c2.keep_is he (by decide) (by decide)
    exact ⟨_ :: (ts' ++ [_]), us, a', by simp, .block hb hd he, hs, c3⟩
  | first _ ht _ iha ihb =>
    simp only [List.cons_append, List.append_assoc] at hc
    obtain ⟨ts', us, a', rfl, hda, hsa, c1⟩ := iha (.cons ht) hc
    obtain ⟨us, rfl, c2⟩ := c1.keep_is ht (by decide) (by decide)
    obtain ⟨bs', us, b', rfl, hdb, hsb, c3⟩ := ihb hr c2
    exact ⟨ts' ++ _ :: bs', us, _, by simp, .first hda ht hdb, .seq hsa hsb, c3⟩
  | lone ht _ ih =>
    obtain ⟨us, rfl, c1⟩ := hc.keep_is ht (by decide) (by decide)
    obtain ⟨bs', us, b', rfl, hdb, hsb, c2⟩ := ih hr c1
    exact ⟨_ :: bs', us, b', rfl, .lone ht hdb, hsb, c2⟩
  | done => exact ⟨[], us, _, rfl, .done, .same _, hc⟩
  | more _ ht _ iha ihb =>
    simp only [List.cons_append, List.append_assoc] at hc
    obtain ⟨ts', us, a', rfl, hda, hsa, c1⟩ := iha (.cons ht) hc
    obtain ⟨us, rfl, c2⟩ := c1.keep_is ht (by decide) (by decide)
    obtain ⟨bs', us, b', rfl, hdb, hsb, c3⟩ := ihb hr c2
    exact ⟨ts' ++ _ :: bs', us, _, by simp, .more hda ht hdb, .seq hsa hsb, c3⟩
  | assign ht hu he =>
    obtain ⟨us, rfl, c1⟩ := hc.keep_head
      (not_opens_identifier ht (not_starts_of_is hu (by decide)))
    obtain ⟨us, rfl, c2⟩ := c1.keep_is hu (by decide) (by decide)
    obtain ⟨t, vs, rfl, hsemi⟩ := hr
    obtain ⟨us, rfl, c3⟩ := c2.keep_expr he (not_starts_of_is hsemi (by decide))
    exact ⟨_ :: _ :: _, us, _, rfl, .assign ht hu he, .same _, c3⟩
  | @call t l r ts es ht hl hs hp =>
    simp only [List.cons_append, List.append_assoc, List.nil_append] at hc
    obtain ⟨us, hus, c1⟩ := hc.call ht hl hs hp
    rcases hus with rfl | rfl
    · exact ⟨t :: l :: (ts ++ [r]), us, _, by simp, .call ht hl hs hp, .same _, c1⟩
    · exact ⟨[t, l, r], us, _, rfl, .call ht hl .none hp, .call _ _, c1⟩
  | ifThen hi he ht _ ih =>
    simp only [List.cons_append, List.append_assoc] at hc
    obtain ⟨us, rfl, c1⟩ := hc.keep_is hi (by decide) (by decide)
    obtain ⟨us, rfl, c2⟩ := c1.keep_expr he (not_starts_of_is ht (by decide))
    obtain ⟨us, rfl, c3⟩ := c2.keep_is ht (by decide) (by decide)
    obtain ⟨ts', us, a', rfl, hda, hsa, c4⟩ := ih trivial c3
    exact ⟨_ :: (_ ++ _ :: ts'), us, _, by simp, .ifThen hi he ht hda, .ite _ hsa (.same _), c4⟩
  | ifElse hi he ht _ hw _ iha ihb =>
    simp only [List.cons_append, List.append_assoc] at hc
    obtain ⟨us, rfl, c1⟩ := hc.keep_is hi (by decide) (by decide)
    obtain ⟨us, rfl, c2⟩ := c1.keep_expr he (not_starts_of_is ht (by decide))
    obtain ⟨us, rfl, c3⟩ := c2.keep_is ht (by decide) (by decide)
    obtain ⟨ts', us, a', rfl, hda, hsa, c4⟩ := iha trivial c3
    obtain ⟨us, rfl, c5⟩ := c4.keep_is hw (by decide) (by decide)
    obtain ⟨bs', us, b', rfl, hdb, hsb, c6⟩ := ihb trivial c5
    exact ⟨_ :: (_ ++ _ :: (ts' ++ _ :: bs')), us, _, by simp, .ifElse hi he ht hda hw hdb,
      .ite _ hsa hsb, c6⟩
  | loop hw he hl _ ih =>
    simp only [List.cons_append, List.append_assoc] at hc
    obtain ⟨us, rfl, c1⟩ := hc.keep_is hw (by decide) (by decide)
    obtain ⟨us, rfl, c2⟩ := c1.keep_expr he (not_starts_of_is hl (by decide))
    obtain ⟨us, rfl, c3⟩ := c2.keep_is hl (by decide) (by decide)
    obtain ⟨ts', us, a', rfl, hda, hsa, c4⟩ := ih trivial c3
    exact ⟨_ :: (_ ++ _ :: ts'), us, _, by simp, .loop hw he hl hda, .loop _ hsa, c4⟩
  | print hp he =>
    obtain ⟨us, rfl, c1⟩ := hc.keep_is hp (by decide) (by decide)
    obtain ⟨t, vs, rfl, hsemi⟩ := hr
    obtain ⟨us, rfl, c2⟩ := c1.keep_expr he (not_starts_of_is hsemi (by decide))
    exact ⟨_ :: _, us, _, rfl, .print hp he, .same _, c2⟩

/-- Names with a colon behind them are no actual parameters. -/
theorem NamesDerive.not_actuals {ts us as vs : List Token} {ns : List Text} {es : List Expr}
    {c r : Token} (h : NamesDerive ts ns) (ha : ActualsDerive as es) (hc : c.is .punct .colon)
    (hr : r.is .punct .rightParen) : ts ++ c :: us ≠ as ++ r :: vs := by
  have hvar : ∀ {t : Token}, t.kind = .identifier → ExprForm.expr.Derives [t] (.var t.lexeme) :=
    fun h => .plain (.simple (.term (.identifier h) .termDone) .simpleDone)
  induction h generalizing as es with
  | last ht =>
    intro heq
    cases ha with
    | last he =>
      obtain ⟨-, -, rfl, -⟩ := (hvar ht).unique_before he heq (ExprForm.stops_punct hc)
        (ExprForm.stops_punct hr)
      exact absurd ((Token.attr_of_is hc).symm.trans (Token.attr_of_is hr)) (by decide)
    | more he hcomma _ =>
      rw [List.append_assoc] at heq
      obtain ⟨-, -, rfl, -⟩ := (hvar ht).unique_before he heq (ExprForm.stops_punct hc)
        (ExprForm.stops_punct hcomma)
      exact absurd ((Token.attr_of_is hc).symm.trans (Token.attr_of_is hcomma)) (by decide)
  | @more t u ts ns ht hu _ ih =>
    intro heq
    have heq : [t] ++ u :: (ts ++ c :: us) = as ++ r :: vs := heq
    cases ha with
    | last he =>
      obtain ⟨-, -, rfl, -⟩ := (hvar ht).unique_before he heq (ExprForm.stops_punct hu)
        (ExprForm.stops_punct hr)
      exact absurd ((Token.attr_of_is hu).symm.trans (Token.attr_of_is hr)) (by decide)
    | more he hcomma hs =>
      rw [List.append_assoc] at heq
      obtain ⟨-, -, rfl, htail⟩ := (hvar ht).unique_before he heq (ExprForm.stops_punct hu)
        (ExprForm.stops_punct hcomma)
      exact ih hs htail

/-- Formal parameters are never taken for actual ones. -/
theorem ArgsDerive.eq_nil_of_actuals {ts us as vs : List Token} {gs : List Group} {es : List Expr}
    {r r' : Token} (h : ArgsDerive ts gs) (ha : ExprListDerives as es) (hr : r.is .punct .rightParen)
    (hr' : r'.is .punct .rightParen) (heq : ts ++ r :: us = as ++ r' :: vs) : ts = [] ∧ as = [] := by
  have hgroup : ∀ {xs ys : List Token} {g : Group}, GroupDerives xs g →
      xs ++ ys ≠ as ++ r' :: vs := by
    intro xs ys g hg heq
    cases hg with
    | mk hs ht _ =>
      simp only [List.append_assoc, List.cons_append, List.nil_append] at heq
      cases ha with
      | none =>
        have hstart : Starts .punct .rightParen ([] ++ r' :: vs) := .cons hr'
        rw [← heq] at hstart
        cases hs with
        | last hn | more hn _ _ =>
          rw [Token.kind_of_is hstart.is] at hn
          cases hn
      | some ha => exact hs.not_actuals ha ht hr' heq
  cases h with
  | none => exact ⟨rfl, (ExprListDerives.none.unique ha heq (.cons hr) (.cons hr')).1.symm⟩
  | some h =>
    cases h with
    | last hg => exact absurd heq (hgroup hg)
    | more hg _ _ =>
      rw [List.append_assoc] at heq
      exact absurd heq (hgroup hg)

/-- Behind the word that begins a heading nothing is cleared up to the body. -/
theorem Clears.keep_heading {n l r : Token} {as vs rest us : List Token} {formals locals : List Group}
    (h : Clears (n :: l :: (as ++ r :: (vs ++ rest))) us) (hn : n.kind = .identifier)
    (hl : l.is .punct .leftParen) (ha : ArgsDerive as formals) (hr : r.is .punct .rightParen)
    (hv : VarsDerive vs locals) :
    ∃ rest', us = n :: l :: (as ++ r :: (vs ++ rest')) ∧ Clears rest rest' := by
  generalize hxs : n :: l :: (as ++ r :: (vs ++ rest)) = xs at h
  cases h with
  | nil => cases hxs
  | keep t h =>
    cases hxs
    obtain ⟨us, rfl, c1⟩ := h.keep_is hl (by decide) (by decide)
    obtain ⟨us, rfl, c2⟩ := c1.keep_all ha.firm
    obtain ⟨us, rfl, c3⟩ := c2.keep_is hr (by decide) (by decide)
    obtain ⟨us, rfl, c4⟩ := c3.keep_all hv.firm
    exact ⟨us, rfl, c4⟩
  | actuals _ _ hes hr' h =>
    simp only [List.cons.injEq] at hxs
    obtain ⟨rfl, rfl, heq⟩ := hxs
    obtain ⟨rfl, rfl⟩ := ha.eq_nil_of_actuals hes hr hr' heq
    cases heq
    obtain ⟨us, rfl, c1⟩ := h.keep_all hv.firm
    exact ⟨us, rfl, c1⟩
  | body hh _ _ _ _ _ =>
    cases hh with
    | mk hp _ _ _ _ _ =>
      rw [(List.cons.inj hxs).1, Token.kind_of_is hp] at hn
      cases hn

/-- A procedure keeps its body, with calls cleared in it, or gets an empty one. -/
theorem ProcedureDerives.clears {ts rest us : List Token} {q : Procedure} (h : ProcedureDerives ts q)
    (hc : Clears (ts ++ rest) us) :
    ∃ ts' rest' q', us = ts' ++ rest' ∧ ProcedureDerives ts' q' ∧ q.Stripped q' ∧
      Clears rest rest' := by
  cases h with
  | @mk p n l r as vs bs formals locals body hp hn hl ha hr hv hb =>
    simp only [List.cons_append, List.append_assoc] at hc
    generalize hxs : p :: n :: l :: (as ++ r :: (vs ++ (bs ++ rest))) = xs at hc
    cases hc with
    | nil => cases hxs
    | keep t h =>
      cases hxs
      obtain ⟨us, rfl, c1⟩ := h.keep_heading hn hl ha hr hv
      obtain ⟨bs', us, body', rfl, hd, hs, c2⟩ := hb.clears trivial c1
      exact ⟨p :: n :: l :: (as ++ r :: (vs ++ bs')), us, ⟨n.lexeme, formals, locals, body'⟩, by simp,
        .mk hp hn hl ha hr hv hd, ⟨rfl, rfl, rfl, .inr hs⟩, c2⟩
    | actuals hn' _ _ _ _ =>
      rw [← (List.cons.inj hxs).1, Token.kind_of_is hp] at hn'
      cases hn'
    | body hh hb' hbegin hsemi hend h =>
      -- the block that is replaced is the body, since both follow the same heading
      cases hh with
      | mk _ _ _ ha' hr' hv' =>
        simp only [List.cons_append, List.append_assoc, List.cons.injEq] at hxs
        obtain ⟨rfl, rfl, rfl, heq⟩ := hxs
        obtain ⟨rfl, rfl⟩ := ha.unique ha' heq (.cons hr) (.cons hr')
        have hbehind := List.append_cancel_left heq
        simp only [List.cons.injEq] at hbehind
        obtain ⟨rfl, hvars⟩ := hbehind
        obtain ⟨rfl, rfl⟩ := hv.unique hv' hvars hb.starts_block hb'.starts_block
        have hbodies := List.append_cancel_left hvars
        obtain ⟨rfl, rfl⟩ := hb.unique hb' hbodies trivial trivial
        obtain rfl := List.append_cancel_left hbodies
        have hempty : StmtForm.block.Derives (_ :: ([_] ++ [_])) .skip :=
          .block hbegin (.lone hsemi .done) hend
        exact ⟨_ :: _ :: _ :: (_ ++ _ :: (_ ++ _)), _, ⟨n.lexeme, formals, locals, .skip⟩, by simp,
          .mk hp hn hl ha hr hv hempty, ⟨rfl, rfl, rfl, .inl rfl⟩, h⟩

theorem ProceduresDerive.clears {ts rest us : List Token} {qs : List Procedure}
    (h : ProceduresDerive ts qs) (hc : Clears (ts ++ rest) us) :
    ∃ ts' rest' qs', us = ts' ++ rest' ∧ ProceduresDerive ts' qs' ∧
      List.Forall₂ Procedure.Stripped qs qs' ∧ Clears rest rest' := by
  induction h generalizing us with
  | none => exact ⟨[], us, [], rfl, .none, .nil, hc⟩
  | more hq ht _ ih =>
    simp only [List.cons_append, List.append_assoc] at hc
    obtain ⟨ts', us, q', rfl, hd, hs, c1⟩ := hq.clears hc
    obtain ⟨us, rfl, c2⟩ := c1.keep_is ht (by decide) (by decide)
    obtain ⟨us', us, qs', rfl, hds, hss, c3⟩ := ih c2
    exact ⟨ts' ++ _ :: us', us, q' :: qs', by simp, .more hd ht hds, .cons hs hss, c3⟩

/-- Cleared tokens derive as the cleared program. -/
theorem ProgramDerives.clears {ts us : List Token} {p : Program} (h : ProgramDerives ts p)
    (hc : Clears ts us) : ∃ p', ProgramDerives us p' ∧ p.Stripped p' := by
  cases h with
  | mk hp hn hs hv hps hb he =>
    obtain ⟨us, rfl, c1⟩ := hc.keep_is hp (by decide) (by decide)
    obtain ⟨us, rfl, c2⟩ := c1.keep_head
      (not_opens_identifier hn (not_starts_of_is hs (by decide)))
    obtain ⟨us, rfl, c3⟩ := c2.keep_is hs (by decide) (by decide)
    obtain ⟨us, rfl, c4⟩ := c3.keep_all hv.firm
    obtain ⟨ps', us, procs', rfl, hdps, hsps, c5⟩ := hps.clears c4
    obtain ⟨bs', us, body', rfl, hdb, hsb, c6⟩ := hb.clears trivial c5
    obtain ⟨us, rfl, c7⟩ := c6.keep_is he (by decide) (by decide)
    obtain rfl := c7.eq_nil
    exact ⟨_, .mk hp hn hs hv hdps hdb he, ⟨rfl, rfl, hsps, hsb⟩⟩

end OnePass.Source

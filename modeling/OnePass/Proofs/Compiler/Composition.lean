import OnePass.Proofs.Compiler.Steps

namespace OnePass.Compiler

open Assembly Generator Pass
open Source (Operator)

variable {α : Type} {K : Terms} {d n : Nat} {A : Generator → Prop} {used : List Nat} {t u : Token}
  {v w : Value}

namespace Composed

theorem put {l : Line} (hline : K.line l) (hpooled : K.tracked → l.Pooled) :
    Composed K d (Fit used) Eq (Pass.put l) (Pass.put l) fun _ => Fit used :=
  .of_generate (K.generates_put hline hpooled)

theorem fail (hK : K.Working) (c : SemanticCause) (h : K.like.token t u) {V : α → α → Prop}
    {B : α → Generator → Prop} : Composed K d A V (Pass.fail c t) (Pass.fail c u) B :=
  .throw (.semantic h) (hK.semantic c t)

theorem unexpected (hK : K.Reading) (e : Expectation) {V : α → α → Prop}
    {B : α → Generator → Prop} : Composed K d A V (Pass.unexpected e) (Pass.unexpected e) B :=
  .lookahead_bind fun t _ htu _ => .throw (.unexpected htu) (hK.unexpected e t)

theorem check (hK : K.Working) (type : ExprType) {vs ws : List Value}
    (h : List.Forall₂ K.like.Value vs ws) :
    Composed K d A Eq (Pass.check type vs) (Pass.check type ws) fun _ => A := by
  induction h with
  | nil => exact .pure rfl fun _ _ hg => hg
  | @cons v w vs ws hv _ ih =>
    rw [Pass.check, Pass.check, hv.type]
    exact .ite Iff.rfl (fun _ => ih) fun _ => .fail hK _ hv.start

theorem expect (hK : K.Reading) (k : Kind) (a : Attr) :
    Composed K d A Eq (Pass.expect k a) (Pass.expect k a) fun _ => A :=
  .at_bind fun _ => .ite Iff.rfl (fun _ => .advance hK.takes) fun _ => .unexpected hK _

theorem expectIdentifier (hK : K.Reading) :
    Composed K d A K.like.token Pass.expectIdentifier Pass.expectIdentifier fun _ => A := by
  refine .lookahead_bind fun t u htu _ => ?_
  refine .ite (by rw [K.like.kind htu]) (fun _ => ?_) fun _ => .unexpected hK _
  exact .after (.advance hK.takes) fun _ => .pure htu fun _ _ hg => hg

/-- A list ends where a token of this kind and attribute is next. -/
theorem close (hK : K.Reading) (k : Kind) (a : Attr) (e : Expectation) (x : α) :
    Composed K d A Eq (at? k a >>= fun b => if !b then Pass.unexpected e else Pure.pure x)
      (at? k a >>= fun b => if !b then Pass.unexpected e else Pure.pure x) fun _ => A := by
  refine .at_bind fun b => ?_
  exact .ite Iff.rfl (fun _ => .unexpected hK e) fun _ => .pure rfl fun _ _ hg => hg

end Composed

namespace Terms

/-- The production leaves one value more in use. -/
def AddsValue (K : Terms) (d : Nat) (p : Pass Value) : Prop :=
  ∀ used, Composed K d (Fit used) K.like.Value p p fun v => Fit (v.id :: used)

/-- The production begins and ends with no value in use. -/
def AtEase (K : Terms) (d : Nat) (p : Pass Unit) : Prop :=
  Composed K d (Fit []) Eq p p fun _ => Fit []

/-- The production does nothing to the generators. -/
def Beside (K : Terms) (d : Nat) (p : Pass α) : Prop :=
  ∀ A : Generator → Prop, Composed K d A Eq p p fun _ => A

/-- The operation uses up its right value. If it is none, the values in use are not kept track of. -/
def UsesRight (K : Terms) (d : Nat) (kind : Kind) (apply : Attr → Value → Value → Pass Unit) : Prop :=
  ∀ (op : Attr) (v v' w w' : Value) (used : List Nat), K.like.Value v v' → K.like.Value w w' →
    (K.tracked → ∃ o : Operator, o.kind = kind ∧ o.attr = op) →
    Composed K d (Fit (w.id :: v.id :: used)) Eq (apply op v w) (apply op v' w')
      fun _ => Fit (v.id :: used)

end Terms

section Expressions

theorem composed_signed (hK : K.Working) (sign : Attr) (h : K.like.Value v w) :
    Composed K d (Fit (v.id :: used)) Eq (signed sign v) (signed sign w)
      fun _ => Fit (v.id :: used) := by
  have hcheck : ∀ type, Composed K d (Fit (v.id :: used)) Eq (Pass.check type [v])
      (Pass.check type [w]) fun _ => Fit (v.id :: used) := fun type => .check hK type (.cons h .nil)
  have hunary : ∀ m, m ≠ .halt → Composed K d (Fit (v.id :: used)) Eq
      (generate (Gen.materialize v.id) >>= fun r => Pass.put (.unary m r))
      (generate (Gen.materialize w.id) >>= fun r => Pass.put (.unary m r))
      fun _ => Fit (v.id :: used) := by
    intro m hm
    rw [← h.id]
    refine .generated (K.generates_materialize hK) fun r hr => ?_
    exact .put (hK.line (by simpa [Line.inBody, Line.unary] using hm)) fun htracked => by
      obtain ⟨i, rfl⟩ := hr htracked
      exact .instruction (by simp)
  cases sign with
  | plus => exact hcheck .int
  | minus => exact .after (hcheck .int) fun _ => hunary .neg (by decide)
  | notKw => exact .after (hcheck .bool) fun _ => hunary .not (by decide)
  | _ => exact .pure rfl fun _ _ hg => hg

theorem composed_combine (hK : K.Working) {m : Mnemonic} (hm : m ≠ .halt) (type : ExprType)
    {v v' w w' : Value} (hv : K.like.Value v v') (hw : K.like.Value w w') :
    Composed K d (Fit (w.id :: v.id :: used)) Eq
      (Pass.check type [v, w] >>= fun _ => discard (generate (Gen.combine m v.id w.id)))
      (Pass.check type [v', w'] >>= fun _ => discard (generate (Gen.combine m v'.id w'.id)))
      fun _ => Fit (v.id :: used) := by
  refine .after (.check hK type (.cons hv (.cons hw .nil))) fun _ => ?_
  rw [← hv.id, ← hw.id]
  exact .discard (.of_generate (K.generates_combine hK hm))

theorem usesRight_multiply (hK : K.Working) : K.UsesRight d .mulop multiply := by
  intro op v v' w w' used hv hw hop
  cases op with
  | times => exact composed_combine hK (by decide) .int hv hw
  | slash => exact composed_combine hK (by decide) .int hv hw
  | and => exact composed_combine hK (by decide) .bool hv hw
  | _ =>
    refine .pure rfl fun htracked => ?_
    obtain ⟨o, hkind, hattr⟩ := hop htracked
    cases o <;> cases hkind <;> cases hattr

theorem usesRight_addUp (hK : K.Working) : K.UsesRight d .addop addUp := by
  intro op v v' w w' used hv hw hop
  cases op with
  | plus => exact composed_combine hK (by decide) .int hv hw
  | minus => exact composed_combine hK (by decide) .int hv hw
  | or =>
    refine .after (.check hK .bool (.cons hv (.cons hw .nil))) fun _ => ?_
    rw [← hv.id, ← hw.id]
    exact .of_generate (K.generates_disjoin hK)
  | _ =>
    refine .pure rfl fun htracked => ?_
    obtain ⟨o, hkind, hattr⟩ := hop htracked
    cases o <;> cases hkind <;> cases hattr

/-- Each turn of a chain adds a value and uses it up. -/
theorem composed_chain (hK : K.Reading) {kind : Kind} {operand : Pass Value}
    {apply : Attr → Value → Value → Pass Unit} (hkind : kind = .mulop ∨ kind = .addop)
    (hoperand : K.AddsValue d operand) (happly : K.UsesRight d kind apply) (n : Nat)
    (h : K.like.Value v w) (used : List Nat) :
    Composed K d (Fit (v.id :: used)) K.like.Value (chain kind operand apply n v)
      (chain kind operand apply n w) fun x => Fit (x.id :: used) := by
  induction n with
  | zero => exact .pure h fun _ _ hg => hg
  | succ n ih =>
    refine .lookahead_bind fun t u htu ht => ?_
    refine .ite (by rw [K.like.kind htu]) (fun hk => ?_) fun _ => .pure h fun _ _ hg => hg
    have hop : K.tracked → ∃ o : Operator, o.kind = kind ∧ o.attr = u.attr := by
      intro htracked
      have hscanned : t.Scanned := by
        refine (ht htracked).resolve_left fun heof => ?_
        rw [heof] at hk
        rcases hkind with rfl | rfl <;> cases hk
      obtain ⟨o, hokind, hoattr⟩ := exists_operator hscanned (by rw [hk]; exact hkind.imp_right .inl)
      exact ⟨o, hokind.trans hk, hoattr.trans (K.like.attr htu)⟩
    refine .after (.advance hK.takes) fun _ => ?_
    refine .bind (hoperand _) fun right right' hright => ?_
    rw [K.like.attr htu]
    exact .after (happly _ _ _ _ _ used h hright hop) fun _ => ih

variable {factor : Pass Value}

theorem composed_termWith (hK : K.Reading) (h : K.AddsValue d factor) (n : Nat) :
    K.AddsValue d (termWith factor n) := by
  intro used
  refine .after (.enter (by decide)) fun _ => ?_
  refine .bind (h used) fun left left' hleft => ?_
  exact composed_chain hK (.inl rfl) h (usesRight_multiply hK.toWorking) n hleft used

theorem composed_simpleExprWith (hK : K.Reading) (h : K.AddsValue d factor) (n : Nat) :
    K.AddsValue d (simpleExprWith factor n) := by
  intro used
  have hterm := composed_termWith hK h n
  refine .after (.enter (by decide)) fun _ => ?_
  refine .bind (hterm used) fun left left' hleft => ?_
  exact composed_chain hK (.inr rfl) hterm (usesRight_addUp hK.toWorking) n hleft used

theorem composed_exprWith (hK : K.Reading) (h : K.AddsValue d factor) (n : Nat) :
    K.AddsValue d (exprWith factor n) := by
  intro used
  have hsimple := composed_simpleExprWith hK h n
  refine .after (.enter (by decide)) fun _ => ?_
  refine .bind (hsimple used) fun left left' hleft => ?_
  refine .lookahead_bind fun t u htu _ => ?_
  refine .ite (by rw [K.like.kind htu]) (fun _ => ?_) fun _ => .pure hleft fun _ _ hg => hg
  refine .after (.advance hK.takes) fun _ => ?_
  refine .bind (hsimple _) fun right right' hright => ?_
  refine .after (.check hK.toWorking .int (.cons hleft (.cons hright .nil))) fun _ => ?_
  rw [K.like.attr htu, ← hleft.id, ← hright.id]
  refine .generated (K.generates_compare hK.toWorking u.attr) fun _ _ => ?_
  exact .pure ⟨rfl, rfl, hleft.start⟩ fun _ _ hg => hg

theorem composed_identifierFactor (hK : K.Reading) (htu : K.like.token t u) (used : List Nat) :
    Composed K d (Fit used) K.like.Value (identifierFactor t) (identifierFactor u)
      fun v => Fit (v.id :: used) := by
  unfold identifierFactor
  rw [K.like.lexeme htu]
  refine .get_bind fun s s' hs => ?_
  refine .ite (by rw [hs.symbols, hs.scope]) (fun _ => ?_) fun _ => .fail hK.toWorking _ htu
  refine .after (.advance hK.takes) fun _ => ?_
  refine .generated (K.generates_newValue fun _ => Operand.noConfusion) fun id _ => ?_
  refine .get_bind fun s s' hs => ?_
  rw [hs.symbols, hs.scope]
  exact .pure ⟨rfl, rfl, htu⟩ fun _ _ hg => hg

theorem composed_numberFactor (hK : K.Reading) (htu : K.like.token t u) (used : List Nat) :
    Composed K d (Fit used) K.like.Value (numberFactor t) (numberFactor u)
      fun v => Fit (v.id :: used) := by
  unfold numberFactor
  rw [K.like.lexeme htu]
  cases Numeral.readWord u.lexeme with
  | ok x =>
    refine .after (.advance hK.takes) fun _ => ?_
    refine .generated (K.generates_newValue fun _ => Operand.noConfusion) fun id _ => ?_
    exact .pure ⟨rfl, rfl, htu⟩ fun _ _ hg => hg
  | error e => exact .throw .internal (hK.numeral _ _)

theorem composed_factor (hK : K.Reading) (n : Nat) : K.AddsValue d (Pass.factor n) := by
  induction n with
  | zero =>
    intro used
    exact .after (.enter (by decide)) fun _ => .unexpected hK _
  | succ n ih =>
    intro used
    refine .after (.enter (by decide)) fun _ => ?_
    refine .lookahead_bind fun t u htu _ => ?_
    refine .ite (by rw [K.like.kind htu]) (fun _ => composed_identifierFactor hK htu used) fun _ => ?_
    refine .ite (by rw [K.like.kind htu]) (fun _ => composed_numberFactor hK htu used) fun _ => ?_
    refine .ite (by rw [Likeness.is_eq htu]) (fun _ => ?_) fun _ => ?_
    · refine .after (.advance hK.takes) fun _ => ?_
      refine .bind (composed_exprWith hK ih n used) fun v w hvw => ?_
      refine .after (.expect hK _ _) fun _ => ?_
      exact .pure ⟨hvw.id, hvw.type, htu⟩ fun _ _ hg => hg
    refine .ite (by simp only [Likeness.is_eq htu]) (fun _ => ?_) fun _ => .unexpected hK _
    refine .after (.advance hK.takes) fun _ => ?_
    refine .bind (ih used) fun v w hvw => ?_
    rw [K.like.attr htu]
    refine .after (composed_signed hK.toWorking _ hvw) fun _ => ?_
    exact .pure ⟨hvw.id, hvw.type, htu⟩ fun _ _ hg => hg

theorem composed_expr (hK : K.Reading) (n : Nat) : K.AddsValue d (expr n) :=
  composed_exprWith hK (composed_factor hK n) n

end Expressions

section Statements

theorem composed_condition (hK : K.Reading) (n : Nat) : K.AddsValue d (condition n) := by
  intro used
  refine .bind (composed_expr hK n used) fun v w hvw => ?_
  refine .after (.check hK.toWorking .bool (.cons hvw .nil)) fun _ => ?_
  exact .pure hvw fun _ _ hg => hg

/-- A value is used up by one line that names its register. -/
theorem composed_consume (hK : K.Working) (h : K.like.Value v w) {line : Int → Line}
    (hbody : ∀ r, (line r).inBody = true) (hpooled : ∀ i : Fin 3, (line i.val).Pooled) :
    Composed K d (Fit (v.id :: used)) Eq (consume v fun r => Pass.put (line r))
      (consume w fun r => Pass.put (line r)) fun _ => Fit used := by
  unfold consume
  rw [← h.id]
  refine .generated (K.generates_materialize hK) fun r hr => ?_
  have hline : K.tracked → (line r).Pooled := by
    intro htracked
    obtain ⟨i, rfl⟩ := hr htracked
    exact hpooled i
  refine .after (.put (hK.line (hbody r)) hline) fun _ => ?_
  exact .of_generate K.generates_release

theorem composed_assign (hK : K.Reading) (n : Nat) (htu : K.like.token t u) :
    Composed K d (Fit []) Eq (assign n t) (assign n u) fun _ => Fit [] := by
  unfold assign
  rw [K.like.lexeme htu]
  refine .get_bind fun s s' hs => ?_
  refine .ite (by rw [hs.symbols, hs.scope]) (fun _ => .fail hK.toWorking _ htu) fun _ => ?_
  refine .after (.advance hK.takes) fun _ => ?_
  refine .bind (composed_expr hK n []) fun v w hvw => ?_
  refine .get_bind fun s s' hs => ?_
  rw [hs.symbols, hs.scope, hvw.type]
  refine .ite Iff.rfl (fun _ => .fail hK.toWorking _ hvw.start) fun _ => ?_
  exact composed_consume hK.toWorking hvw (fun _ => rfl) fun i => .instruction (by simp)

/-- Actual parameters are released one by one. -/
theorem composed_actuals (hK : K.Reading) (n : Nat) (callee : Text) (m : Nat) (i : Int) :
    Composed K d (Fit []) Eq (actuals n callee m i) (actuals n callee m i) fun _ _ => True := by
  induction m generalizing i with
  | zero =>
    refine .bind (composed_expr hK n []) fun _ _ _ => ?_
    exact .pure rfl fun _ _ _ => trivial
  | succ m ih =>
    refine .bind (composed_expr hK n []) fun v w hvw => ?_
    refine .get_bind fun s s' hs => ?_
    rw [hs.symbols, hvw.type]
    refine .ite Iff.rfl (fun _ => .fail hK.toWorking _ hvw.start) fun _ => ?_
    rw [← hvw.id]
    refine .generated K.generates_release fun _ _ => ?_
    refine .at_bind fun b => ?_
    refine .ite Iff.rfl (fun _ => ?_) fun _ => .pure rfl fun _ _ _ => trivial
    exact .after (.advance hK.takes) fun _ => ih _

theorem composed_exprList (hK : K.Reading) (n : Nat) (callee : Text) :
    Composed K d (Fit []) Eq (exprList n callee) (exprList n callee) fun _ _ => True := by
  refine .after (.enter (by decide)) fun _ => ?_
  refine .at_bind fun b => ?_
  refine .ite Iff.rfl (fun _ => ?_) fun _ => .pure rfl fun _ _ _ => trivial
  have hfirst : Composed K d (Fit []) Eq atExpr atExpr fun _ => Fit [] := by
    refine .lookahead_bind fun t u htu _ => .pure ?_ fun _ _ hg => hg
    simp only [K.like.kind htu, Likeness.is_eq htu]
  refine .after hfirst fun b => ?_
  refine .ite Iff.rfl (fun _ => .unexpected hK _) fun _ => ?_
  refine .after (composed_actuals hK n callee n 0) fun _ => ?_
  exact .close hK _ _ _ _

theorem composed_call (hK : K.Reading) (n : Nat) (htu : K.like.token t u) :
    Composed K d (Fit []) Eq (call n t) (call n u) fun _ => Fit [] := by
  unfold call
  rw [K.like.lexeme htu]
  refine .get_bind fun s s' hs => ?_
  rw [hs.symbols, hs.scope, hs.program]
  refine .ite Iff.rfl (fun _ => .fail hK.toWorking _ htu) fun _ => ?_
  refine .ite Iff.rfl (fun _ => .fail hK.toWorking _ htu) fun _ => ?_
  refine .after (.advance hK.takes) fun _ => ?_
  refine .after (.suppress (composed_exprList hK n u.lexeme)) fun _ => ?_
  exact .expect hK _ _

theorem composed_assignOrCall (hK : K.Reading) (n : Nat) (htu : K.like.token t u) :
    Composed K d (Fit []) Eq (assignOrCall n t) (assignOrCall n u) fun _ => Fit [] := by
  refine .after (.enter (by decide)) fun _ => ?_
  refine .at_bind fun b => ?_
  refine .ite Iff.rfl (fun _ => composed_assign hK n htu) fun _ => ?_
  refine .at_bind fun b => ?_
  exact .ite Iff.rfl (fun _ => composed_call hK n htu) fun _ => .unexpected hK _

theorem composed_atStmt : Composed K d A Eq atStmt atStmt fun _ => A := by
  refine .lookahead_bind fun t u htu _ => .pure ?_ fun _ _ hg => hg
  simp only [K.like.kind htu, Likeness.is_eq htu]

variable {stmt block : Pass Unit}

theorem composed_stmtsWith (hK : K.Reading) (h : K.AtEase d stmt) (n : Nat) :
    K.AtEase d (stmtsWith stmt n) := by
  induction n with
  | zero => exact .pure rfl fun _ _ hg => hg
  | succ n ih =>
    refine .after composed_atStmt fun b => ?_
    refine .ite Iff.rfl (fun _ => ?_) fun _ => .pure rfl fun _ _ hg => hg
    refine .after h fun _ => ?_
    exact .after (.expect hK _ _) fun _ => ih

theorem composed_stmtListWith (hK : K.Reading) (h : K.AtEase d stmt) (n : Nat) :
    K.AtEase d (stmtListWith stmt n) := by
  have hrest : K.AtEase d (stmtsWith stmt n >>= fun _ => at? .keyword .endKw >>= fun b =>
      if !b then Pass.unexpected (.production .stmtListRest) else Pure.pure ()) := by
    refine .after (composed_stmtsWith hK h n) fun _ => ?_
    exact .close hK _ _ _ _
  refine .after (.enter (by decide)) fun _ => ?_
  refine .after composed_atStmt fun b => ?_
  refine .ite Iff.rfl (fun _ => ?_) fun _ => ?_
  · refine .after h fun _ => ?_
    exact .after (.expect hK _ _) fun _ => hrest
  · refine .at_bind fun b => ?_
    refine .ite Iff.rfl (fun _ => ?_) fun _ => .unexpected hK _
    exact .after (.advance hK.takes) fun _ => hrest

theorem composed_blockWith (hK : K.Reading) (h : K.AtEase d stmt) (n : Nat) :
    K.AtEase d (blockWith stmt n) := by
  refine .after (.enter (by decide)) fun _ => ?_
  refine .after (.expect hK _ _) fun _ => ?_
  refine .after (composed_stmtListWith hK h n) fun _ => ?_
  exact .expect hK _ _

theorem composed_ifStmtWith (hK : K.Reading) (h : K.AtEase d block) (n : Nat) :
    K.AtEase d (ifStmtWith block n) := by
  have hlabel : ∀ x, K.AtEase d (Pass.put (.label x)) := fun x =>
    .put (hK.line rfl) fun _ => .label x
  refine .after (.enter (by decide)) fun _ => ?_
  refine .after (.advance hK.takes) fun _ => ?_
  refine .bind (composed_condition hK n []) fun v w hvw => ?_
  refine .after (.expect hK _ _) fun _ => ?_
  rw [← hvw.id]
  refine .generated (K.generates_materialize hK.toWorking) fun r hr => ?_
  refine .generated (K.generates_newLabel "else") fun other _ => ?_
  refine .generated (K.generates_newLabel "if_done") fun done _ => ?_
  have hbranch : K.tracked → (Line.branch .brez r other).Pooled := by
    intro htracked
    obtain ⟨i, rfl⟩ := hr htracked
    exact .instruction (by simp)
  refine .after (.put (hK.line rfl) hbranch) fun _ => ?_
  refine .generated K.generates_release fun _ _ => ?_
  refine .after h fun _ => ?_
  refine .after (.put (hK.line rfl) fun _ => .instruction (by simp)) fun _ => ?_
  refine .after (hlabel other) fun _ => ?_
  refine .at_bind fun b => ?_
  refine .ite Iff.rfl (fun _ => ?_) fun _ => ?_
  · refine .after (.advance hK.takes) fun _ => ?_
    exact .after h fun _ => hlabel done
  · refine .at_bind fun b => ?_
    exact .ite Iff.rfl (fun _ => .unexpected hK _) fun _ => hlabel done

theorem composed_whileStmtWith (hK : K.Reading) (h : K.AtEase d block) (n : Nat) :
    K.AtEase d (whileStmtWith block n) := by
  refine .after (.enter (by decide)) fun _ => ?_
  refine .after (.advance hK.takes) fun _ => ?_
  refine .generated (K.generates_newLabel "while_cond") fun again _ => ?_
  refine .generated (K.generates_newLabel "while_done") fun done _ => ?_
  refine .after (.put (hK.line rfl) fun _ => .label again) fun _ => ?_
  refine .bind (composed_condition hK n []) fun v w hvw => ?_
  refine .after (.expect hK _ _) fun _ => ?_
  refine .after (composed_consume hK.toWorking hvw (fun _ => rfl) fun i => .instruction (by simp))
    fun _ => ?_
  refine .after h fun _ => ?_
  refine .after (.put (hK.line rfl) fun _ => .instruction (by simp)) fun _ => ?_
  exact .put (hK.line rfl) fun _ => .label done

theorem composed_printStmt (hK : K.Reading) (n : Nat) : K.AtEase d (printStmt n) := by
  refine .after (.enter (by decide)) fun _ => ?_
  refine .after (.advance hK.takes) fun _ => ?_
  refine .bind (composed_expr hK n []) fun v w hvw => ?_
  rw [hvw.type]
  refine .ite Iff.rfl (fun _ => .fail hK.toWorking _ hvw.start) fun _ => ?_
  exact composed_consume hK.toWorking hvw (fun _ => rfl) fun i => .instruction (by simp)

theorem composed_stmt (hK : K.Reading) (n : Nat) : K.AtEase d (Pass.stmt n) := by
  induction n with
  | zero => exact .stmt rfl (.unexpected hK _)
  | succ n ih =>
    have hblock := composed_blockWith hK ih n
    refine .stmt rfl (.lookahead_bind fun t u htu _ => ?_)
    refine .ite (by rw [Likeness.is_eq htu]) (fun _ => composed_ifStmtWith hK hblock (n + 1)) fun _ => ?_
    refine .ite (by rw [Likeness.is_eq htu]) (fun _ => composed_whileStmtWith hK hblock (n + 1)) fun _ => ?_
    refine .ite (by rw [Likeness.is_eq htu]) (fun _ => composed_printStmt hK (n + 1)) fun _ => ?_
    refine .ite (by rw [K.like.kind htu]) (fun _ => ?_) fun _ => .unexpected hK _
    exact .after (.advance hK.takes) fun _ => composed_assignOrCall hK (n + 1) htu

theorem composed_block (hK : K.Reading) (n : Nat) : K.AtEase d (Pass.block n) :=
  composed_blockWith hK (composed_stmt hK n) n

end Statements

section Declarations

theorem composed_awaitType (i : Int) (htu : K.like.token t u) :
    Composed K d A Eq (awaitType i t) (awaitType i u) fun _ => A := by
  refine .get_bind fun s s' hs => ?_
  rw [hs.scope]
  exact .declare htu _ _ _

variable {install : Nat → Token → Pass Unit}

theorem composed_identifiers (hK : K.Reading)
    (h : ∀ (i : Nat) (t u : Token), K.like.token t u →
      Composed K d A Eq (install i t) (install i u) fun _ => A) (n i : Nat) :
    Composed K d A Eq (identifiers install n i) (identifiers install n i) fun _ => A := by
  induction n generalizing i with
  | zero => exact .unexpected hK _
  | succ n ih =>
    refine .bind (.expectIdentifier hK) fun t u htu => ?_
    refine .after (h i t u htu) fun _ => ?_
    refine .at_bind fun b => ?_
    refine .ite Iff.rfl (fun _ => ?_) fun _ => .pure rfl fun _ _ hg => hg
    exact .after (.advance hK.takes) fun _ => ih _

theorem composed_identifierList (hK : K.Reading)
    (h : ∀ (i : Nat) (t u : Token), K.like.token t u →
      Composed K d A Eq (install i t) (install i u) fun _ => A) (n i : Nat) :
    Composed K d A Eq (identifierList install n i) (identifierList install n i) fun _ => A := by
  refine .after (.enter (by decide)) fun _ => ?_
  refine .after (composed_identifiers hK h n i) fun j => ?_
  exact .close hK _ _ _ _

theorem composed_standardType (hK : K.Reading) : K.Beside d standardType := by
  intro A
  refine .after (.enter (by decide)) fun _ => ?_
  refine .lookahead_bind fun t u htu _ => ?_
  have hgive : ∀ type, Composed K d A Eq
      (advance >>= fun _ => modify fun s => { s with symbols := s.symbols.patch type }.report
        (.patch type s.symbols.unknowns))
      (advance >>= fun _ => modify fun s => { s with symbols := s.symbols.patch type }.report
        (.patch type s.symbols.unknowns)) fun _ => A := by
    intro type
    exact .after (.advance hK.takes) fun _ => .giveType type
  refine .ite (by rw [Likeness.is_eq htu]) (fun _ => hgive .int) fun _ => ?_
  refine .ite (by rw [Likeness.is_eq htu]) (fun _ => hgive .bool) fun _ => ?_
  exact .unexpected hK _

theorem composed_variableDecl (hK : K.Reading) (n : Nat) : K.Beside d (variableDecl n) := by
  intro A
  have hnames : Composed K d A Eq _ _ fun _ => A :=
    composed_identifierList hK (fun _ _ _ htu => composed_awaitType noPosition htu) n 0
  refine .after (.enter (by decide)) fun _ => ?_
  refine .after (.discard hnames) fun _ => ?_
  refine .after (.expect hK _ _) fun _ => ?_
  exact composed_standardType hK A

theorem composed_variableDecls (hK : K.Reading) (n : Nat) : K.Beside d (variableDecls n) := by
  intro A
  induction n with
  | zero => exact .pure rfl fun _ _ hg => hg
  | succ n ih =>
    refine .lookahead_bind fun t u htu _ => ?_
    refine .ite (by rw [K.like.kind htu]) (fun _ => ?_) fun _ => .pure rfl fun _ _ hg => hg
    refine .after (composed_variableDecl hK (n + 1) A) fun _ => ?_
    exact .after (.expect hK _ _) fun _ => ih

theorem composed_variableDeclList (hK : K.Reading) (n : Nat) : K.Beside d (variableDeclList n) := by
  intro A
  refine .after (.enter (by decide)) fun _ => ?_
  refine .after (composed_variableDecls hK n A) fun _ => ?_
  refine .at_bind fun b => ?_
  refine .at_bind fun c => ?_
  exact .ite Iff.rfl (fun _ => .unexpected hK _) fun _ => .pure rfl fun _ _ hg => hg

theorem composed_formals (hK : K.Reading) (n i : Nat) : K.Beside d (formals n i) := by
  intro A
  induction n generalizing i with
  | zero => exact .after (.enter (by decide)) fun _ => .unexpected hK _
  | succ n ih =>
    have hnames : Composed K d A Eq _ _ fun _ => A :=
      composed_identifierList hK (fun i _ _ htu => composed_awaitType i htu) (n + 1) i
    refine .after hnames fun j => ?_
    refine .after (.expect hK _ _) fun _ => ?_
    refine .after (composed_standardType hK A) fun _ => ?_
    refine .at_bind fun b => ?_
    refine .ite Iff.rfl (fun _ => ?_) fun _ => .close hK _ _ _ _
    exact .after (.advance hK.takes) fun _ => ih j

theorem composed_procedureArgs (hK : K.Reading) (n : Nat) : K.Beside d (procedureArgs n) := by
  intro A
  refine .after (.enter (by decide)) fun _ => ?_
  refine .lookahead_bind fun t u htu _ => ?_
  refine .ite (by rw [K.like.kind htu]) (fun _ => ?_) fun _ => ?_
  · exact .after (.enter (by decide)) fun _ => composed_formals hK n 0 A
  · rw [Likeness.is_eq htu]
    exact .ite Iff.rfl (fun _ => .unexpected hK _) fun _ => .pure rfl fun _ _ hg => hg

theorem composed_procedureDecl (hK : K.Reading) (n : Nat) : K.AtEase d (procedureDecl n) := by
  refine .after (.enter (by decide)) fun _ => ?_
  refine .after (.advance hK.takes) fun _ => ?_
  refine .bind (.expectIdentifier hK) fun t u htu => ?_
  refine .get_bind fun s s' hs => ?_
  rw [hs.scope, K.like.lexeme htu]
  refine .after (.declare htu _ _ _) fun _ => ?_
  refine .inScope _ ?_
  refine .after (.expect hK _ _) fun _ => ?_
  refine .after (composed_procedureArgs hK n _) fun _ => ?_
  refine .after (.expect hK _ _) fun _ => ?_
  refine .after (composed_variableDeclList hK n _) fun _ => ?_
  exact .suppress (composed_block hK n)

theorem composed_procedureDecls (hK : K.Reading) (n : Nat) : K.AtEase d (procedureDecls n) := by
  induction n with
  | zero => exact .pure rfl fun _ _ hg => hg
  | succ n ih =>
    refine .at_bind fun b => ?_
    refine .ite Iff.rfl (fun _ => ?_) fun _ => .pure rfl fun _ _ hg => hg
    refine .after (composed_procedureDecl hK (n + 1)) fun _ => ?_
    exact .after (.expect hK _ _) fun _ => ih

theorem composed_procedureDeclList (hK : K.Reading) (n : Nat) :
    K.AtEase d (procedureDeclList n) := by
  refine .after (.enter (by decide)) fun _ => ?_
  refine .after (composed_procedureDecls hK n) fun _ => ?_
  exact .close hK _ _ _ _

end Declarations

/-- Whole programs: any line may be put, and any name given. -/
structure Terms.Whole (K : Terms) : Prop extends K.Reading where
  lines (l : Line) : K.line l
  names (x : Text) : K.name x
  outputFull : K.error .outputFull

section Programs

theorem composed_data (hline : ∀ l, K.line l) (names : List Text) :
    Composed K d (Fit used) Eq
      (forIn names PUnit.unit fun x _ => do
        Pass.put (.data x 1)
        pure (ForInStep.yield PUnit.unit))
      (forIn names PUnit.unit fun x _ => do
        Pass.put (.data x 1)
        pure (ForInStep.yield PUnit.unit)) fun _ => Fit used := by
  induction names with
  | nil => exact .pure rfl fun _ _ hg => hg
  | cons x xs ih =>
    rw [List.forIn_cons, bind_assoc]
    refine .after (.put (hline _) fun _ => .data x 1) fun _ => ?_
    rw [pure_bind]
    exact ih

theorem composed_dataLines (hline : ∀ l, K.line l) : K.AtEase d dataLines := by
  refine .get_bind fun s s' hs => ?_
  rw [hs.symbols, hs.program, hs.spills]
  refine .after (composed_data hline _) fun _ => ?_
  rw [← Array.forIn_toList]
  refine .after (composed_data hline _) fun _ => ?_
  exact .pure rfl fun _ _ hg => hg

theorem composed_program (hK : K.Whole) (n : Nat) : K.AtEase d (program n) := by
  have hread := hK.toReading
  refine .after (.enter (by decide)) fun _ => ?_
  refine .at_bind fun b => ?_
  refine .ite Iff.rfl (fun _ => .unexpected hread _) fun _ => ?_
  refine .after (.advance hread.takes) fun _ => ?_
  refine .bind (.expectIdentifier hread) fun t u htu => ?_
  rw [K.like.lexeme htu]
  refine .after (.declare htu _ _ _) fun _ => ?_
  refine .after (.name (hK.names _)) fun _ => ?_
  refine .after (.expect hread _ _) fun _ => ?_
  refine .after (.put (hK.lines _) fun _ => .label _) fun _ => ?_
  refine .after (composed_variableDeclList hread n _) fun _ => ?_
  refine .after (composed_procedureDeclList hread n) fun _ => ?_
  refine .after (composed_block hread n) fun _ => ?_
  refine .after (.expect hread _ _) fun _ => ?_
  refine .after (.put (hK.lines _) fun _ => .instruction (by simp)) fun _ => ?_
  exact composed_dataLines hK.lines

end Programs

namespace Pass

theorem Quiet.of_check {type : ExprType} {vs : List Value} : Quiet (check type vs) :=
  .of_composed fun _ => .check (A := Fit []) Terms.inPlace_working type (Likeness.same_forall₂ .same vs)

theorem quiet_signed {a : Attr} {v : Value} : Quiet (signed a v) :=
  .of_composed (A := Fit [v.id]) fun _ => composed_signed Terms.inPlace_working a (.same v)

theorem quiet_multiply (a : Attr) (v w : Value) : Quiet (multiply a v w) :=
  .of_composed fun _ => usesRight_multiply Terms.inPlace_working a v v w w [] (.same v) (.same w) False.elim

theorem quiet_addUp (a : Attr) (v w : Value) : Quiet (addUp a v w) :=
  .of_composed fun _ => usesRight_addUp Terms.inPlace_working a v v w w [] (.same v) (.same w) False.elim

theorem quiet_consume {v : Value} {f : Int → Pass Unit} (h : ∀ r, Quiet (f r)) :
    Quiet (consume v f) :=
  Quiet.of_generate.bind fun r => (h r).bind fun _ => .of_generate

theorem quiet_awaitType (i : Int) (t : Token) : Quiet (awaitType i t) :=
  .of_composed fun _ => composed_awaitType (A := Fit []) i rfl

theorem quiet_dataLines : Quiet dataLines :=
  .of_composed fun _ => composed_dataLines fun _ => trivial

end Pass

/-- Neither the end of input nor a register is what is missing. -/
def Ordinary (e : CompileError) : Prop :=
  (∀ t, e ≠ .extraTokens t) ∧ ∀ x, e ≠ .internal (.register x)

theorem Ordinary.not_register (x : RegisterError) : ¬Ordinary (.internal (.register x)) :=
  fun h => h.2 x rfl

theorem Ordinary.not_extraTokens (t : Token) : ¬Ordinary (.extraTokens t) := fun h => h.1 t rfl

namespace Terms

/-- All steps of a compilation. -/
def whole (L : Likeness) (tracked : Prop) : Terms where
  like := L
  tracked
  takes := True
  error := Ordinary
  notRegister := Ordinary.not_register
  notEnd := Ordinary.not_extraTokens
  line _ := True
  name _ := True

theorem whole_allows (L : Likeness) (tracked : Prop) : (whole L tracked).Whole where
  semantic _ _ := ⟨by simp, by simp⟩
  line _ := trivial
  takes := trivial
  unexpected _ _ := ⟨by simp, by simp⟩
  numeral _ _ := ⟨by simp, by simp⟩
  lines _ := trivial
  names _ := trivial
  outputFull := ⟨by simp, by simp⟩

end Terms

end OnePass.Compiler

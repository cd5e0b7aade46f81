import OnePass.Proofs.Compiler.Decision
import OnePass.Proofs.Source.Unambiguous

namespace OnePass

namespace Source

/-- The next item is a token that does not continue the form, or the input ends. -/
def ExprForm.Halts (form : ExprForm) (more : List Item) : Prop :=
  ∀ i, more.head? = some i → ∃ t, i = .ok t ∧ ¬form.Continues t

namespace ExprForm

variable {form form' : ExprForm} {t : Token} {more : List Item}

theorem halts_cons (h : ¬form.Continues t) : form.Halts (.ok t :: more) := by
  intro i hi
  cases hi
  exact ⟨t, rfl, h⟩

theorem Stops.halts {rest : List Token} (h : form.Stops rest) : form.Halts (rest.map .ok) := by
  intro i hi
  rw [List.head?_map] at hi
  obtain ⟨t, ht, rfl⟩ := Option.map_eq_some_iff.1 hi
  exact ⟨t, rfl, h t ht⟩

theorem Halts.mono (h : form.Halts more) (hc : ∀ t, form'.Continues t → form.Continues t) :
    form'.Halts more := by
  intro i hi
  obtain ⟨t, rfl, ht⟩ := h i hi
  exact ⟨t, rfl, fun hk => ht (hc t hk)⟩

theorem Halts.factor (h : form.Halts more) : factor.Halts more := h.mono fun _ h => h.elim

theorem Halts.readable (h : form.Halts more) : Compiler.Readable more := by
  intro i hi
  obtain ⟨t, ht, -⟩ := h i hi
  exact ⟨t, ht⟩

/-- Tokens in front of what follows a factor. -/
theorem halts_factor_append {us : List Token} (h : form.Halts more) :
    ExprForm.factor.Halts (us.map .ok ++ more) := by
  cases us with
  | nil => exact h.factor
  | cons t us => exact halts_cons fun h => h

theorem halts_term_append {a e : Expr} {us : List Token} (h : (simpleRest a).Derives us e)
    (hm : simpleExpr.Halts more) : term.Halts (us.map .ok ++ more) := by
  cases h with
  | simpleDone => exact hm.mono fun _ hk => .inl hk
  | simpleMore op hk ht _ _ =>
    refine halts_cons ?_
    rw [Continues, Token.kind_of_is ht, hk]
    decide

end ExprForm

theorem Operator.resultType_of_chain {op : Operator} (h : op.kind = .mulop ∨ op.kind = .addop) :
    op.resultType = op.operandType := by
  cases op <;> simp [Operator.kind] at h <;> rfl

theorem Operator.of_relop {op : Operator} (h : op.kind = .relop) :
    op.operandType = .int ∧ op.resultType = .bool ∧
      ∀ l r, op.lower l r = Compiler.Gen.compare op.attr l r := by
  cases op <;> simp [Operator.kind] at h <;> exact ⟨rfl, rfl, fun _ _ => rfl⟩

end Source

namespace Compiler

open Assembly Source

variable {trace : Bool} {c : Setting} {ahead more : List Item} {g : Generator} {s : State}

/-- What lies ahead of a form that ends here does not continue it. -/
theorem Faces.not_continues {form : ExprForm} (h : Faces c more g s) (hm : form.Halts more) :
    ¬form.Continues s.lookahead := by
  cases more with
  | nil =>
    have hk := h.kind_eof
    cases form <;> simp [ExprForm.Continues, hk]
  | cons i more =>
    obtain ⟨t, rfl, ht⟩ := hm i rfl
    rw [h.lookahead_eq.1]
    exact ht

/-- The value of an expression that has been read up to these items. -/
structure ValueOf (c : Setting) (e : Expr) (more : List Item) (v : Value) (i : Nat) (g : Generator)
    (s : State) : Prop where
  fits : e.Fits c.table c.scope v.type
  id : v.id = i
  faces : Faces c more g s

namespace Pass

/-- In front of these tokens the production reads the expression. It ends well exactly if the expression fits, and
generates its code. -/
def ReadsAhead (form : ExprForm) (trace : Bool) (p : Pass Value) (ts : List Token) (e : Expr) : Prop :=
  ∀ (c : Setting) (more : List Item) (g : Generator) (s : State), form.Halts more →
    Faces c (ts.map .ok ++ more) g s →
    p.Lowers trace s (∃ τ, e.Fits c.table c.scope τ) e.lower g (ValueOf c e more)

/-- The same for the rest of a chain, behind a value for the expression `a`; `k` is the code of the rest. -/
structure ReadsBehind (form : ExprForm) (trace : Bool) (p : Value → Pass Value) (ts : List Token)
    (a e : Expr) (k : Nat → Gen Nat) : Prop where
  lower : e.lower = a.lower >>= k
  left : ∀ {t : SymbolTable} {scope : Text}, (∃ τ, e.Fits t scope τ) → ∃ τ, a.Fits t scope τ
  reads : ∀ (c : Setting) (more : List Item) (g : Generator) (s : State) (v : Value),
    form.Halts more → Faces c (ts.map .ok ++ more) g s → a.Fits c.table c.scope v.type →
    (p v).Lowers trace s (∃ τ, e.Fits c.table c.scope τ) (k v.id) g (ValueOf c e more)

theorem identifierFactor_reads {t : Token} (h : Faces c (.ok t :: more) g s) (hm : Readable more) :
    (identifierFactor t).Lowers trace s (∃ τ, (Expr.var t.lexeme).Fits c.table c.scope τ)
      (Expr.var t.lexeme).lower g (ValueOf c (.var t.lexeme) more) := by
  simp only [Expr.fits_var, lookUp, Option.ite_none_right_eq_some]
  refine .get_bind (.test ?_ fun hd => ?_)
  · rintro ⟨τ, hx, -⟩
    rw [h.symbols, h.scope]
    exact hx
  · rw [h.symbols, h.scope] at hd
    refine .after (advance_faces h hm) fun _ s1 h1 => ?_
    refine (generate_faces h1).last (fun _ => trivial) fun i _ g2 s2 _ h2 => ?_
    obtain ⟨rfl, h2⟩ := h2
    refine .get_bind (.of_pure ⟨_, hd, rfl⟩ ⟨Expr.fits_var.2 ?_, rfl, h2⟩)
    rw [h2.symbols, h2.scope, lookUp, if_pos hd]

theorem isDigit_of_scanner {c : Char} (h : Scanner.isDigit c = true) : c.isDigit = true := by
  simp only [Scanner.isDigit, Bool.and_eq_true, decide_eq_true_eq] at h
  simp only [Char.isDigit, Bool.and_eq_true, decide_eq_true_eq]
  exact h

/-- A number of the source is read as the word of its value, unless that is too large. -/
theorem readWord_lexeme {t : Token} (ht : t.Scanned) (hk : t.kind = .number) :
    Numeral.readWord t.lexeme =
      if Nat.ofDigitChars 10 t.lexeme.chars 0 < wordLimit then
        .ok (Int64.ofNat (Nat.ofDigitChars 10 t.lexeme.chars 0))
      else .error .outOfRange := by
  obtain ⟨c, cs, hlex, hdig⟩ : ∃ c cs, t.lexeme = Text.ofChars (c :: cs) ∧
      ∀ d ∈ c :: cs, Scanner.isDigit d = true := by
    rcases ht with ⟨h, -⟩ | ⟨-, h⟩ | h
    · rw [hk] at h
      cases h
    · exact h
    · rw [hk] at h
      simp [Scanner.reserved, Scanner.signs] at h
  rw [hlex, Text.chars_ofChars]
  exact Numeral.readWord_digits fun d hd => isDigit_of_scanner (hdig d hd)

theorem numberFactor_reads {t : Token} (ht : t.kind = .number) (h : Faces c (.ok t :: more) g s)
    (hm : Readable more) :
    (numberFactor t).Lowers trace s
      (∃ τ, (Expr.num (Nat.ofDigitChars 10 t.lexeme.chars 0)).Fits c.table c.scope τ)
      (Expr.num (Nat.ofDigitChars 10 t.lexeme.chars 0)).lower g
      (ValueOf c (.num (Nat.ofDigitChars 10 t.lexeme.chars 0)) more) := by
  simp only [Expr.fits_num, exists_eq_left]
  unfold numberFactor
  rw [readWord_lexeme h.scanned ht]
  by_cases hn : Nat.ofDigitChars 10 t.lexeme.chars 0 < wordLimit
  · rw [if_pos hn]
    refine .after (advance_faces h hm) fun _ s1 h1 => ?_
    refine (generate_faces h1).last (fun _ => trivial) fun i _ g2 s2 _ h2 => ?_
    obtain ⟨rfl, h2⟩ := h2
    exact .of_pure hn ⟨Expr.fits_num.2 ⟨rfl, hn⟩, rfl, h2⟩
  · rw [if_neg hn]
    exact ⟨fun hD => absurd hD.1 hn, fun _ _ h => absurd h not_gives_throw⟩

theorem check_single {type : ExprType} {v : Value} :
    (check type [v]).Decides trace s (v.type = type) fun _ s' => s' = s :=
  Decides.of_check.congr List.forall_mem_singleton

theorem check_pair {type : ExprType} {left right : Value} :
    (check type [left, right]).Decides trace s (left.type = type ∧ right.type = type)
      fun _ s' => s' = s :=
  Decides.of_check.congr (by simp)

theorem signed_reads {sg : Sign} {v : Value} (h : Faces c ahead g s) :
    (signed sg.attr v).Lowers trace s (v.type = sg.type) (sg.lower v.id) g
      fun _ _ => Faces c ahead := by
  cases sg with
  | plus =>
    exact .of_decides (check_single.mono fun _ s' hs' => hs' ▸ h)
  | minus | not =>
    refine .beside check_single (fun hD => hD) fun _ s1 hD hs1 => ?_
    rw [hs1]
    refine .generate_bind h fun r g2 s2 h2 => .of_true ?_ hD
    exact generate_ends h2

/-- What an operation asks of its operands, and its code. -/
def Applies (trace : Bool) (k : Kind) (apply : Attr → Value → Value → Pass Unit) : Prop :=
  ∀ (op : Operator), op.kind = k → ∀ (c : Setting) (ahead : List Item) (g : Generator) (s : State)
    (left right : Value), Faces c ahead g s →
    (apply op.attr left right).Lowers trace s
      (left.type = op.operandType ∧ right.type = op.operandType) (op.lower left.id right.id) g
      fun _ _ => Faces c ahead

/-- Two operands of one type, and the code for them. -/
theorem check_pair_bind {type : ExprType} {left right : Value} {q : Pass Unit} {x : Gen Unit}
    {R : Unit → Unit → Generator → State → Prop} (hq : q.Lowers trace s True x g R) :
    (check type [left, right] >>= fun _ => q).Lowers trace s
      (left.type = type ∧ right.type = type) x g R := by
  refine .beside check_pair (fun hD => hD) fun _ s1 hD hs1 => ?_
  rw [hs1]
  exact .of_true hq hD

theorem discard_faces {α : Type} {x : Gen α} (h : Faces c ahead g s) :
    (discard (generate x)).Lowers trace s True (discard x) g fun _ _ => Faces c ahead :=
  .discard (generate_ends h)

theorem multiply_applies : Applies trace .mulop multiply := by
  intro op hk c ahead g s left right h
  cases op with
  | times | slash | and => exact check_pair_bind (discard_faces h)
  | _ => cases hk

theorem addUp_applies : Applies trace .addop addUp := by
  intro op hk c ahead g s left right h
  cases op with
  | plus | minus => exact check_pair_bind (discard_faces h)
  | or => exact check_pair_bind (generate_ends h)
  | _ => cases hk

/-- A chain ends in front of a token of another kind. -/
theorem chain_reads_nil {k : Kind} (form : ExprForm) {operand : Pass Value}
    {apply : Attr → Value → Value → Pass Unit} {a : Expr} (hk : ∀ t, t.kind = k → form.Continues t)
    (n : Nat) : ReadsBehind form trace (chain k operand apply n) [] a a pure where
  lower := (bind_pure _).symm
  left := fun h => h
  reads := by
    intro c more g s left hm h ha
    cases n with
    | zero => exact .of_pure ⟨_, ha⟩ ⟨ha, rfl, h⟩
    | succ n =>
      refine .lookahead_bind (.ite_neg (fun hkind => ?_) (.of_pure ⟨_, ha⟩ ⟨ha, rfl, h⟩))
      exact h.not_continues hm (hk _ hkind)

/-- One turn of a chain: an operator, its right operand, and what follows. -/
theorem chain_reads_cons {κ : Kind} {form whole : ExprForm} {operand : Pass Value}
    {apply : Attr → Value → Value → Pass Unit} {op : Operator} {t : Token} {ts us : List Token}
    {a b e : Expr} {k : Nat → Gen Nat} {n : Nat} (hchain : κ = .mulop ∨ κ = .addop) (hk : op.kind = κ)
    (ht : t.is op.kind op.attr = true) (happly : Applies trace κ apply)
    (hb : ReadsAhead form trace operand ts b)
    (he : ReadsBehind whole trace (chain κ operand apply n) us (.binary op a b) e k)
    (hform : ∀ more, whole.Halts more → form.Halts (us.map .ok ++ more)) :
    ReadsBehind whole trace (chain κ operand apply (n + 1)) (t :: (ts ++ us)) a e
      fun l => b.lower >>= fun r => op.lower l r >>= fun _ => k l where
  lower := by
    rw [he.lower, Expr.lower]
    simp only [bind_assoc, pure_bind]
  left := by
    intro t scope h
    obtain ⟨τ, hop⟩ := he.left h
    exact ⟨_, (Expr.fits_binary.1 hop).2.1⟩
  reads := by
    intro c more g s left hm h ha
    simp only [List.map_cons, List.map_append, List.cons_append, List.append_assoc] at h
    have hlook := h.lookahead_eq.1
    have hoperand := hform more hm
    refine .lookahead_bind (.ite_pos (by rw [hlook, Token.kind_of_is ht, hk]) ?_)
    refine .after (advance_faces h (ExprForm.halts_factor_append hoperand).readable) fun _ s1 h1 => ?_
    refine (hb c _ g s1 hoperand h1).bind (fun hD => ?_) fun right _ g2 s2 _ h2 => ?_
    · obtain ⟨τ, hop⟩ := he.left hD
      exact ⟨_, (Expr.fits_binary.1 hop).2.2⟩
    obtain ⟨hright, rfl, h2⟩ := h2
    rw [hlook, Token.attr_of_is ht]
    refine (happly op hk c _ g2 s2 left right h2).bind (fun hD => ?_) fun _ _ g3 s3 htypes h3 => ?_
    · obtain ⟨τ, hop⟩ := he.left hD
      obtain ⟨-, ha', hb'⟩ := Expr.fits_binary.1 hop
      exact ⟨ha.unique ha', hright.unique hb'⟩
    have hresult := Operator.resultType_of_chain (hk ▸ hchain)
    rw [htypes.2] at hright
    refine he.reads c more g3 s3 left hm h3 (Expr.fits_binary.2 ⟨?_, htypes.1 ▸ ha, hright⟩)
    rw [hresult, htypes.1]

/-- An operand and the chain behind it. -/
theorem chained_reads {p : Production} {κ : Kind} {form whole last : ExprForm} {operand : Pass Value}
    {apply : Attr → Value → Value → Pass Unit} {n : Nat} {ts us : List Token} {a e : Expr}
    {k : Nat → Gen Nat} (ha : ReadsAhead form trace operand ts a)
    (he : ReadsBehind last trace (chain κ operand apply n) us a e k)
    (hform : ∀ more, whole.Halts more → form.Halts (us.map .ok ++ more) ∧ last.Halts more) :
    ReadsAhead whole trace (do
      enter p
      let left ← operand
      chain κ operand apply n left) (ts ++ us) e := by
  intro c more g s hm h
  rw [List.map_append, List.append_assoc] at h
  obtain ⟨hfirst, hlast⟩ := hform more hm
  rw [he.lower]
  refine .after (enter_faces p h) fun _ s1 h1 => ?_
  refine (ha c _ g s1 hfirst h1).bind he.left fun left _ g2 s2 _ h2 => ?_
  obtain ⟨hleft, rfl, h2⟩ := h2
  exact he.reads c more g2 s2 left hlast h2 hleft

/-- What the production for a form does in front of the tokens of such a form, if it is allowed to go as deep as
there are tokens. -/
def ReadsForm (trace : Bool) (ts : List Token) (e : Expr) : ExprForm → Prop
  | .factor => ∀ n, ts.length ≤ n → ReadsAhead .factor trace (factor n) ts e
  | .term => ∀ n, ts.length ≤ n → ReadsAhead .term trace (termWith (factor n) n) ts e
  | .simpleExpr => ∀ n, ts.length ≤ n →
      ReadsAhead .simpleExpr trace (simpleExprWith (factor n) n) ts e
  | .expr => ∀ n, ts.length ≤ n → ReadsAhead .expr trace (exprWith (factor n) n) ts e
  | .termRest a => ∀ n m, ts.length ≤ n → ts.length ≤ m →
      ∃ k, ReadsBehind .term trace (chain .mulop (factor n) multiply m) ts a e k
  | .simpleRest a => ∀ n m, ts.length ≤ n → ts.length ≤ m →
      ∃ k, ReadsBehind .simpleExpr trace (chain .addop (termWith (factor n) n) addUp m) ts a e k

theorem reads_paren {l r : Token} {ts : List Token} {e : Expr} (hl : l.is .punct .leftParen = true)
    (he : ReadsForm trace ts e .expr) (hr : r.is .punct .rightParen = true) :
    ReadsForm trace (l :: (ts ++ [r])) e .factor := by
  intro n hn c more g s hm h
  obtain ⟨n, rfl⟩ := exists_step hn (by simp)
  simp only [List.map_cons, List.map_append, List.map_nil, List.cons_append, List.append_assoc,
    List.nil_append] at h
  have hkind := Token.kind_of_is hl
  have hinner : ExprForm.expr.Halts (.ok r :: more) :=
    ExprForm.halts_cons (by simp [ExprForm.Continues, Token.kind_of_is hr])
  refine .after (enter_faces .factor h) fun _ s1 h1 => .lookahead_bind ?_
  rw [h1.lookahead_eq.1]
  refine .ite_neg (by rw [hkind]; decide) (.ite_neg (by rw [hkind]; decide) (.ite_pos hl ?_))
  refine .after (advance_faces h1 (ExprForm.halts_factor_append hinner).readable) fun _ s2 h2 => ?_
  refine (he n (by simp at hn; omega) c _ g s2 hinner h2).last (fun hD => hD)
    fun v i g3 s3 hD h3 => ?_
  exact .after (expect_faces h3.faces hr hm.readable) fun _ s4 h4 =>
    .of_pure hD ⟨h3.fits, h3.id, h4⟩

theorem reads_signed {t : Token} {ts : List Token} {e : Expr} (sg : Sign)
    (ht : t.is sg.kind sg.attr = true) (he : ReadsForm trace ts e .factor) :
    ReadsForm trace (t :: ts) (.sign sg e) .factor := by
  intro n hn c more g s hm h
  obtain ⟨n, rfl⟩ := exists_step hn (by simp)
  obtain ⟨hkind, hattr⟩ := Token.is_iff.1 ht
  have htest : t.kind ≠ .identifier ∧ t.kind ≠ .number ∧ t.is .punct .leftParen = false ∧
      (t.is .addop .plus || t.is .addop .minus || t.is .keyword .notKw) = true := by
    cases sg <;> simp [Token.is, hkind, hattr, Sign.kind, Sign.attr]
  obtain ⟨hident, hnum, hparen, hsign⟩ := htest
  refine .after (enter_faces .factor h) fun _ s1 h1 => .lookahead_bind ?_
  rw [h1.lookahead_eq.1]
  refine .ite_neg hident (.ite_neg hnum (.ite_neg (by simp [hparen]) (.ite_pos hsign ?_)))
  refine .after (advance_faces h1 (ExprForm.halts_factor_append hm).readable) fun _ s2 h2 => ?_
  rw [Expr.lower]
  refine (he n (by simpa using hn) c more g s2 hm h2).bind (fun hD => ?_) fun v _ g3 s3 _ h3 => ?_
  · obtain ⟨τ, hτ⟩ := hD
    exact ⟨_, (Expr.fits_sign.1 hτ).2⟩
  obtain ⟨hv, rfl, h3⟩ := h3
  rw [hattr]
  refine (signed_reads h3).bind (fun hD => ?_) fun _ _ g4 s4 htype h4 => ?_
  · obtain ⟨τ, hτ⟩ := hD
    exact hv.unique (Expr.fits_sign.1 hτ).2
  · have hwhole : (Expr.sign sg e).Fits c.table c.scope v.type :=
      Expr.fits_sign.2 ⟨htype, htype ▸ hv⟩
    exact .of_pure ⟨_, hwhole⟩ ⟨hwhole, rfl, h4⟩

theorem reads_relation {t : Token} {ts us : List Token} {a b : Expr} (op : Operator)
    (ha : ReadsForm trace ts a .simpleExpr) (hk : op.kind = .relop) (ht : t.is op.kind op.attr = true)
    (hb : ReadsForm trace us b .simpleExpr) : ReadsForm trace (ts ++ t :: us) (.binary op a b) .expr := by
  intro n hn c more g s hm h
  simp only [List.map_append, List.map_cons, List.cons_append, List.append_assoc] at h
  simp only [List.length_append, List.length_cons] at hn
  obtain ⟨hin, hout, hlower⟩ := Operator.of_relop hk
  have hfirst : ExprForm.simpleExpr.Halts (.ok t :: (us.map .ok ++ more)) := by
    refine ExprForm.halts_cons ?_
    rw [ExprForm.Continues, Token.kind_of_is ht, hk]
    decide
  have hsecond : ExprForm.simpleExpr.Halts more := hm.mono fun _ hk => hk.imp_right .inl
  simp only [Expr.lower, Expr.fits_binary, hin, hlower]
  refine .after (enter_faces .expr h) fun _ s1 h1 => ?_
  refine (ha n (by omega) c _ g s1 hfirst h1).bind (fun hD => ?_) fun left _ g2 s2 _ h2 => ?_
  · obtain ⟨τ, -, ha, -⟩ := hD
    exact ⟨_, ha⟩
  obtain ⟨hleft, rfl, h2⟩ := h2
  have hlook := h2.lookahead_eq.1
  refine .lookahead_bind (.ite_pos (by rw [hlook, Token.kind_of_is ht, hk]) ?_)
  rw [hlook, Token.attr_of_is ht]
  refine .after (advance_faces h2 (ExprForm.halts_factor_append hm).readable) fun _ s3 h3 => ?_
  refine (hb n (by omega) c _ g2 s3 hsecond h3).bind (fun hD => ?_) fun right _ g4 s4 _ h4 => ?_
  · obtain ⟨τ, -, -, hb⟩ := hD
    exact ⟨_, hb⟩
  obtain ⟨hright, rfl, h4⟩ := h4
  refine .beside check_pair (fun hD => ?_) fun _ s5 htypes h5 => ?_
  · obtain ⟨τ, -, ha, hb⟩ := hD
    exact ⟨hleft.unique ha, hright.unique hb⟩
  rw [h5]
  rw [htypes.1] at hleft
  rw [htypes.2] at hright
  refine .generate_bind h4 fun _ g6 s6 h6 => .of_pure ⟨_, rfl, hleft, hright⟩ ⟨?_, rfl, h6⟩
  exact Expr.fits_binary.2 ⟨hout.symm, hin ▸ hleft, hin ▸ hright⟩

theorem readsForm_of_derives {form : ExprForm} {ts : List Token} {e : Expr} (h : form.Derives ts e) :
    ReadsForm trace ts e form := by
  induction h with
  | @identifier t ht =>
    intro n hn c more g s hm h
    obtain ⟨n, rfl⟩ := exists_step hn (by simp)
    refine .after (enter_faces .factor h) fun _ s1 h1 => .lookahead_bind ?_
    rw [h1.lookahead_eq.1]
    exact .ite_pos ht (identifierFactor_reads h1 hm.readable)
  | @number t ht =>
    intro n hn c more g s hm h
    obtain ⟨n, rfl⟩ := exists_step hn (by simp)
    refine .after (enter_faces .factor h) fun _ s1 h1 => .lookahead_bind ?_
    rw [h1.lookahead_eq.1]
    exact .ite_neg (by rw [ht]; decide) (.ite_pos ht (numberFactor_reads ht h1 hm.readable))
  | paren hl _ hr ih => exact reads_paren hl ih hr
  | signed sg ht _ ih => exact reads_signed sg ht ih
  | term _ _ iha ihe =>
    intro n hn
    rw [List.length_append] at hn
    obtain ⟨k, he⟩ := ihe n n (by omega) (by omega)
    exact chained_reads (iha n (by omega)) he fun more hm => ⟨ExprForm.halts_factor_append hm, hm⟩
  | termDone =>
    intro n m _ _
    exact ⟨pure, chain_reads_nil .term (fun _ hk => hk) m⟩
  | termMore op hk ht _ _ ihb ihe =>
    intro n m hn hm
    obtain ⟨m, rfl⟩ := exists_step hm (by simp)
    simp only [List.length_cons, List.length_append] at hn hm
    obtain ⟨k, he⟩ := ihe n m (by omega) (by omega)
    exact ⟨_, chain_reads_cons (.inl rfl) hk ht multiply_applies (ihb n (by omega)) he
      fun more hm => ExprForm.halts_factor_append hm⟩
  | simple _ hrest iha ihe =>
    intro n hn
    rw [List.length_append] at hn
    obtain ⟨k, he⟩ := ihe n n (by omega) (by omega)
    exact chained_reads (iha n (by omega)) he fun more hm =>
      ⟨ExprForm.halts_term_append hrest hm, hm⟩
  | simpleDone =>
    intro n m _ _
    exact ⟨pure, chain_reads_nil .simpleExpr (fun _ hk => .inr hk) m⟩
  | simpleMore op hk ht _ hrest ihb ihe =>
    intro n m hn hm
    obtain ⟨m, rfl⟩ := exists_step hm (by simp)
    simp only [List.length_cons, List.length_append] at hn hm
    obtain ⟨k, he⟩ := ihe n m (by omega) (by omega)
    exact ⟨_, chain_reads_cons (.inr rfl) hk ht addUp_applies (ihb n (by omega)) he
      fun more hm => ExprForm.halts_term_append hrest hm⟩
  | plain _ ih =>
    intro n hn c more g s hm h
    have hinner : ExprForm.simpleExpr.Halts more := hm.mono fun _ hk => hk.imp_right .inl
    refine .after (enter_faces .expr h) fun _ s1 h1 => ?_
    refine (ih n hn c more g s1 hinner h1).last (fun hD => hD) fun left i g2 s2 hD h2 => ?_
    refine .lookahead_bind (.ite_neg (fun hk => ?_) (.of_pure hD h2))
    exact h2.faces.not_continues hm (.inr (.inr hk))
  | relation op _ hk ht _ iha ihb => exact reads_relation op iha hk ht ihb

/-- In front of the tokens of an expression its production reads it. -/
theorem expr_reads {ts : List Token} {e : Expr} {n : Nat} (he : ExprForm.expr.Derives ts e)
    (hn : ts.length ≤ n) (hm : ExprForm.expr.Halts more) (h : Faces c (ts.map .ok ++ more) g s) :
    (expr n).Lowers trace s (∃ τ, e.Fits c.table c.scope τ) e.lower g (ValueOf c e more) :=
  readsForm_of_derives he n hn c more g s hm h

end Pass

end Compiler

end OnePass

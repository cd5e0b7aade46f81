import OnePass.Proofs.Compiler.ExpressionReading

namespace OnePass.Compiler

open Assembly Source

namespace Pass

variable {β γ : Type} {trace : Bool} {c : Setting} {rest : List Token} {g : Generator} {s : State}
  {D : Prop} {x : Gen γ} {Q : β → γ → Generator → State → Prop}

theorem Lowers.atStmt_bind {f : Bool → Pass β}
    (hf : (f s.lookahead.startsStmt).Lowers trace s D x g Q) : (atStmt >>= f).Lowers trace s D x g Q :=
  Decides.next (a := s.lookahead.startsStmt) rfl hf

theorem Lowers.atExpr_bind {f : Bool → Pass β}
    (hf : (f s.lookahead.startsExpr).Lowers trace s D x g Q) : (atExpr >>= f).Lowers trace s D x g Q :=
  Decides.next (a := s.lookahead.startsExpr) rfl hf

theorem expr_stands {ts : List Token} {e : Expr} {n : Nat} (he : ExprForm.expr.Derives ts e)
    (hn : ts.length ≤ n) (hr : ExprForm.expr.Stops rest) (h : Stands c (ts ++ rest) g s) :
    (expr n).Lowers trace s (∃ τ, e.Fits c.table c.scope τ) e.lower g
      (ValueOf c e (rest.map .ok)) := by
  rw [Stands, List.map_append] at h
  exact expr_reads he hn hr.halts h

theorem condition_reads {ts : List Token} {e : Expr} {n : Nat} (he : ExprForm.expr.Derives ts e)
    (hn : ts.length ≤ n) (hr : ExprForm.expr.Stops rest) (h : Stands c (ts ++ rest) g s) :
    (condition n).Lowers trace s (e.Fits c.table c.scope .bool) e.lower g
      fun v i g' s' => v.id = i ∧ Stands c rest g' s' := by
  refine (expr_stands he hn hr h).last (fun hD => ⟨_, hD⟩) fun v i g1 s1 _ h1 => ?_
  refine .beside check_single (fun hD => h1.fits.unique hD) fun _ s2 htype h2 => ?_
  rw [h2]
  exact .of_pure (htype ▸ h1.fits) ⟨h1.id, h1.faces⟩

theorem assign_reads {t u : Token} {ts : List Token} {e : Expr} {n : Nat}
    (he : ExprForm.expr.Derives ts e) (hn : ts.length ≤ n) (hr : ExprForm.expr.Stops rest)
    (h : Stands c (u :: (ts ++ rest)) g s) :
    (assign n t).Lowers trace s ((Stmt.assign t.lexeme e).Fits c.table c.program c.scope)
      (Stmt.assign t.lexeme e).lower g fun _ _ => Stands c rest := by
  simp only [Stmt.fits_assign, lookUp, Option.ite_none_right_eq_some, Option.some.injEq, Stmt.lower]
  refine .get_bind ?_
  dsimp only
  rw [h.symbols, h.scope]
  refine .guard (fun hD => ?_) fun hd => ?_
  · obtain ⟨τ, hx, -⟩ := hD
    simp [hx.1]
  have hx : c.table.declared t.lexeme c.scope = true := by simpa using hd
  refine .after (advance_stands h) fun _ s1 h1 => ?_
  refine (expr_stands he hn hr h1).bind (fun hD => ?_) fun v _ g2 s2 _ h2 => .get_bind ?_
  · obtain ⟨τ, -, he⟩ := hD
    exact ⟨τ, he⟩
  obtain ⟨hv, rfl, h2⟩ := h2
  rw [h2.symbols, h2.scope]
  refine .guard (fun hD => ?_) fun htype => ?_
  · obtain ⟨τ, hx, he⟩ := hD
    simp [hv.unique he, hx.2]
  rw [Decidable.not_not.1 htype] at hv
  exact .of_true (consume_faces h2) ⟨_, ⟨hx, rfl⟩, hv⟩

/-- One actual parameter, and what follows it. -/
theorem actual_bind {callee : Text} {ts : List Token} {e : Expr} {n : Nat} {i : Int}
    (he : ExprForm.expr.Derives ts e) (hn : ts.length ≤ n) (hr : ExprForm.expr.Stops rest)
    (h : Stands c (ts ++ rest) g s) {q : Pass β} (hD : D → e.Fits c.table c.scope (c.table.typeAt callee i))
    (hq : e.Fits c.table c.scope (c.table.typeAt callee i) →
      ∀ g' s', Stands c rest g' s' → q.Lowers trace s' D x g' Q) :
    (do
      let v ← expr n
      let type := (← get).symbols.typeAt callee i
      if v.type ≠ type then fail (.mismatch type v.type) v.start
      generate (Gen.release v.id)
      q).Lowers trace s D (e.lower >>= fun v => Gen.release v >>= fun _ => x) g Q := by
  refine (expr_stands he hn hr h).bind (fun hd => ⟨_, hD hd⟩) fun v _ g1 s1 _ h1 => .get_bind ?_
  obtain ⟨hv, rfl, h1⟩ := h1
  rw [h1.symbols]
  refine .guard (fun hd => ?_) fun htype => ?_
  · rw [hv.unique (hD hd)]
    exact fun hne => hne rfl
  rw [Decidable.not_not.1 htype] at hv
  exact .generate_bind h1 fun _ g2 s2 h2 => hq hv g2 s2 h2

/-- Actual parameters in front of a closing parenthesis. -/
theorem actuals_reads {callee : Text} {ts : List Token} {es : List Expr} (hes : ActualsDerive ts es)
    {n m : Nat} {i : Int} (hn : ts.length ≤ n) (hm : ts.length ≤ m)
    (hr : Starts .punct .rightParen rest) (h : Stands c (ts ++ rest) g s) :
    (actuals n callee m i).Lowers trace s (ActualsFit c.table c.scope callee i es) (lowerActuals es) g
      fun _ _ => Stands c rest := by
  induction hes generalizing m i g s with
  | @last ts e he =>
    have hne : ts ≠ [] := by
      obtain ⟨t, us, rfl, -⟩ := he.starts (by simp)
      exact List.cons_ne_nil t us
    obtain ⟨m, rfl⟩ := exists_step hm hne
    refine actual_bind he hn hr.stops h (fun hD => (actualsFit_cons.1 hD).1) fun hfirst g1 s1 h1 => ?_
    have hD : ActualsFit c.table c.scope callee i [e] := actualsFit_cons.2 ⟨hfirst, actualsFit_nil⟩
    obtain ⟨r, us, rfl, hparen⟩ := hr
    refine .at_bind (.ite_neg ?_ (.of_pure hD h1))
    rw [h1.is_eq]
    simp [Token.is, Token.attr_of_is hparen]
  | @more t ts us e es he ht hs ih =>
    obtain ⟨m, rfl⟩ := exists_step hm (by simp)
    simp only [List.length_append, List.length_cons] at hn hm
    rw [List.append_assoc, List.cons_append] at h
    refine actual_bind he (by omega) (ExprForm.stops_punct ht) h
      (fun hD => (actualsFit_cons.1 hD).1) fun hfirst g1 s1 h1 => ?_
    refine .at_bind (.ite_pos ((h1.is_eq _ _).trans ht) ?_)
    refine .after (advance_stands h1) fun _ s2 h2 => ?_
    have hrest := ih (m := m) (i := i + 1) (by omega) (by omega) h2
    exact hrest.congr ⟨fun hD => actualsFit_cons.2 ⟨hfirst, hD⟩, fun hD => (actualsFit_cons.1 hD).2⟩

theorem exprList_reads {callee : Text} {ts : List Token} {es : List Expr}
    (hes : ExprListDerives ts es) {n : Nat} (hn : ts.length ≤ n)
    (hr : Starts .punct .rightParen rest) (h : Stands c (ts ++ rest) g s) :
    (exprList n callee).Lowers trace s (ActualsFit c.table c.scope callee 0 es) (lowerActuals es) g
      fun _ _ => Stands c rest := by
  refine .after (enter_faces .exprList h) fun _ s1 h1 => .at_bind ?_
  obtain ⟨r, us, rfl, hparen⟩ := hr
  cases hes with
  | none =>
    refine .ite_neg ?_ (.of_pure actualsFit_nil h1)
    rw [h1.is_eq, hparen]
    decide
  | some hs =>
    obtain ⟨t, vs, rfl, ht⟩ := hs.starts
    have hopen : t.is .punct .rightParen = false := by
      rw [Bool.eq_false_iff]
      intro his
      rw [Token.not_startsExpr his] at ht
      cases ht
    refine .ite_pos ?_ (.atExpr_bind ?_)
    · rw [h1.is_eq, hopen]
      rfl
    dsimp only
    refine .ite_neg ?_ ?_
    · rw [h1.lookahead_eq.1, ht]
      decide
    refine (actuals_reads hs hn hn ⟨r, us, rfl, hparen⟩ h1).last (fun hD => hD)
      fun _ _ g2 s2 hD h2 => .at_bind (.ite_neg ?_ (.of_pure hD h2))
    rw [h2.is_eq, hparen]
    decide

/-- A call leaves no code; that of its actual parameters is thrown away. -/
theorem call_reads {t l r : Token} {ts : List Token} {es : List Expr} (hes : ExprListDerives ts es)
    {n : Nat} (hn : ts.length ≤ n) (hr : r.is .punct .rightParen = true)
    (h : Stands c (l :: (ts ++ r :: rest)) g s) :
    (call n t).Decides trace s ((Stmt.call t.lexeme es).Fits c.table c.program c.scope)
      fun _ => Stands c rest g := by
  rw [Stmt.fits_call]
  refine .get_bind ?_
  dsimp only
  rw [h.symbols, h.scope, h.program]
  refine .guard (fun hD => ?_) fun hd => .guard (fun hD => ?_) fun hproc => ?_
  · simp [hD.1]
  · simp [hD.2.1]
  have hx : c.table.declared t.lexeme c.scope = true := by simpa using hd
  obtain ⟨_, b, g', hcode, -⟩ := lowerActuals_works es Generator.Fit.empty
  refine (advance_stands h).after fun _ s1 h1 => ?_
  refine (suppress_stands h1 ⟨b, g', hcode⟩ fun b s2 h2 =>
    exprList_reads hes hn (.cons hr) h2).bind (fun hD => hD.2.2) fun _ s3 hes h3 => ?_
  exact .of_true (expect_stands h3 hr) ⟨hx, Decidable.not_not.1 hproc, hes⟩

/-- In front of these tokens the production reads the statement. It ends well exactly if the statement fits, and
generates its code. -/
def ReadsStmt (form : StmtForm) (trace : Bool) (p : Pass Unit) (ts : List Token) (b : Stmt) : Prop :=
  ∀ (c : Setting) (rest : List Token) (g : Generator) (s : State), form.Ends rest →
    Stands c (ts ++ rest) g s →
    p.Lowers trace s (b.Fits c.table c.program c.scope) b.lower g fun _ _ => Stands c rest

/-- What the production for a form does in front of the tokens of such a form, if it is allowed to go as deep
as there are tokens. -/
def ReadsStmtForm (trace : Bool) (ts : List Token) (b : Stmt) : StmtForm → Prop
  | .stmt => ∀ n, ts.length ≤ n → ReadsStmt .stmt trace (stmt n) ts b
  | .block => ∀ n, ts.length ≤ n → ReadsStmt .block trace (blockWith (stmt n) n) ts b
  | .stmtList => ∀ n, ts.length ≤ n → ReadsStmt .stmtList trace (stmtListWith (stmt n) n) ts b
  | .stmtListRest => ∀ n m, ts.length ≤ n → ts.length ≤ m →
      ReadsStmt .stmtListRest trace (stmtsWith (stmt n) m) ts b

/-- A statement opens with a report and a look at its first token. -/
theorem stmt_open {t : Token} {n : Nat} {Q : Unit → γ → Generator → State → Prop}
    (h : Stands c (t :: rest) g s)
    (hf : ∀ s', Stands c (t :: rest) g s' →
      (if t.is .keyword .ifKw then ifStmtWith (blockWith (stmt n) n) (n + 1)
      else if t.is .keyword .whileKw then whileStmtWith (blockWith (stmt n) n) (n + 1)
      else if t.is .keyword .printKw then printStmt (n + 1)
      else if t.kind = .identifier then do
        advance
        assignOrCall (n + 1) t
      else unexpected (.production .stmt)).Lowers trace s' D x g Q) :
    (stmt (n + 1)).Lowers trace s D x g Q := by
  refine .after (enter_faces .stmt h) fun _ s1 h1 => .lookahead_bind ?_
  rw [h1.lookahead_eq.1]
  exact hf s1 h1

/-- A statement that opens with an identifier. -/
theorem reads_named {t u : Token} {ts : List Token} {b : Stmt} (ht : t.kind = .identifier)
    (h : ∀ (n : Nat) (c : Setting) (rest : List Token) (g : Generator) (s : State),
      (u :: ts).length ≤ n → StmtForm.stmt.Ends rest → Stands c (u :: (ts ++ rest)) g s →
      (assignOrCall n t).Lowers trace s (b.Fits c.table c.program c.scope) b.lower g
        fun _ _ => Stands c rest) : ReadsStmtForm trace (t :: u :: ts) b .stmt := by
  intro n hn c rest g s hr hs
  obtain ⟨n, rfl⟩ := exists_step hn (by simp)
  have hnot : ∀ a, ¬t.is .keyword a = true := fun a => by simp [Token.is, ht]
  refine stmt_open hs fun s1 h1 => ?_
  refine .ite_neg (hnot _) (.ite_neg (hnot _) (.ite_neg (hnot _) (.ite_pos ht ?_)))
  refine .after (advance_stands h1) fun _ s2 h2 => ?_
  exact h (n + 1) c rest g s2 (by simp at hn ⊢; omega) hr h2

theorem reads_assign {t u : Token} {ts : List Token} {e : Expr} (ht : t.kind = .identifier)
    (hu : u.is .punct .assign = true) (he : ExprForm.expr.Derives ts e) :
    ReadsStmtForm trace (t :: u :: ts) (.assign t.lexeme e) .stmt := by
  refine reads_named ht fun n c rest g s hn hr hs => ?_
  refine .after (enter_faces .assignOrCall hs) fun _ s1 h1 => .at_bind (.ite_pos ?_ ?_)
  · rw [h1.is_eq, hu]
  · simp only [List.length_cons] at hn
    exact assign_reads he (by omega) (Starts.stops hr) h1

theorem reads_call {t l r : Token} {ts : List Token} {es : List Expr} (ht : t.kind = .identifier)
    (hl : l.is .punct .leftParen = true) (hs : ExprListDerives ts es)
    (hr : r.is .punct .rightParen = true) :
    ReadsStmtForm trace (t :: l :: (ts ++ [r])) (.call t.lexeme es) .stmt := by
  refine reads_named ht fun n c rest g s hn _ h => ?_
  rw [List.append_assoc] at h
  refine .after (enter_faces .assignOrCall h) fun _ s1 h1 => .at_bind (.ite_neg ?_ (.at_bind ?_))
  · rw [h1.is_eq]
    simp [Token.is, Token.attr_of_is hl]
  refine .ite_pos ?_ ?_
  · rw [h1.is_eq, hl]
  · simp only [List.length_cons, List.length_append] at hn
    exact .of_decides (call_reads hs (by omega) hr h1)

theorem reads_print {p : Token} {ts : List Token} {e : Expr} (hp : p.is .keyword .printKw = true)
    (he : ExprForm.expr.Derives ts e) : ReadsStmtForm trace (p :: ts) (.print e) .stmt := by
  intro n hn c rest g s hr hs
  obtain ⟨n, rfl⟩ := exists_step hn (by simp)
  simp only [List.length_cons] at hn
  obtain ⟨hk, ha⟩ := Token.is_iff.1 hp
  simp only [Stmt.fits_print, Stmt.lower]
  refine stmt_open hs fun s1 h1 => ?_
  refine .ite_neg (by simp [Token.is, ha]) (.ite_neg (by simp [Token.is, ha]) (.ite_pos hp ?_))
  refine .after (enter_faces .printStmt h1) fun _ s2 h2 => ?_
  refine .after (advance_stands h2) fun _ s3 h3 => ?_
  refine (expr_stands he (by omega) (Starts.stops hr) h3).bind (fun hD => ?_) fun v _ g4 s4 _ h4 => ?_
  · obtain ⟨τ, he, -⟩ := hD
    exact ⟨τ, he⟩
  obtain ⟨hv, rfl, h4⟩ := h4
  dsimp only
  refine .guard (fun hD => ?_) fun hprint => ?_
  · obtain ⟨τ, he, hτ⟩ := hD
    simp [hv.unique he, hτ]
  exact .of_true (consume_faces h4) ⟨_, hv, by simpa using hprint⟩

/-- A conditional up to the end of its first branch. -/
theorem ifStmt_open {block : Pass Unit} {i t : Token} {cs ts tail : List Token} {e : Expr}
    {a b : Stmt} {n : Nat} {Q : Unit → Unit → Generator → State → Prop}
    (he : ExprForm.expr.Derives cs e) (hn : cs.length ≤ n) (ht : t.is .keyword .thenKw = true)
    (ha : ReadsStmt .block trace block ts a) (h : Stands c (i :: (cs ++ t :: (ts ++ tail))) g s)
    (hD : D → e.Fits c.table c.scope .bool ∧ a.Fits c.table c.program c.scope)
    (hf : e.Fits c.table c.scope .bool → a.Fits c.table c.program c.scope →
      ∀ done g' s', Stands c tail g' s' →
      (do
        if ← at? .keyword .elseKw then
          advance
          block
        else if !(← at? .punct .semicolon) then unexpected (.production .ifStmtRest)
        put (.label done)).Lowers trace s' D (b.lower >>= fun _ => Gen.put (.label done)) g' Q) :
    (ifStmtWith block n).Lowers trace s D (Stmt.ite e a b).lower g Q := by
  rw [Stmt.lower]
  refine .after (enter_faces .ifStmt h) fun _ s1 h1 => .after (advance_stands h1) fun _ s2 h2 => ?_
  refine (condition_reads he hn (ExprForm.stops_keyword ht) h2).bind (fun hd => (hD hd).1)
    fun v _ g3 s3 hc h3 => ?_
  obtain ⟨rfl, h3⟩ := h3
  refine .after (expect_stands h3 ht) fun _ s4 h4 => .generate_bind h4 fun r g5 s5 h5 => ?_
  refine .generate_bind h5 fun other g6 s6 h6 => .generate_bind h6 fun done g7 s7 h7 => ?_
  refine .generate_bind h7 fun _ g8 s8 h8 => .generate_bind h8 fun _ g9 s9 h9 => ?_
  refine (ha c tail g9 s9 trivial h9).bind (fun hd => (hD hd).2) fun _ _ g10 s10 ha h10 => ?_
  refine .generate_bind h10 fun _ g11 s11 h11 => .generate_bind h11 fun _ g12 s12 h12 => ?_
  exact hf hc ha done g12 s12 h12

theorem reads_ifThen {i t : Token} {cs ts : List Token} {e : Expr} {a : Stmt}
    (hi : i.is .keyword .ifKw = true) (he : ExprForm.expr.Derives cs e)
    (ht : t.is .keyword .thenKw = true) (ha : ReadsStmtForm trace ts a .block) :
    ReadsStmtForm trace (i :: (cs ++ t :: ts)) (.ite e a .skip) .stmt := by
  intro n hn c rest g s hr hs
  obtain ⟨n, rfl⟩ := exists_step hn (by simp)
  simp only [List.length_cons, List.length_append] at hn
  rw [List.cons_append, List.append_assoc] at hs
  rw [Stmt.fits_ite]
  refine stmt_open hs fun s1 h1 => .ite_pos hi ?_
  refine ifStmt_open he (by omega) ht (ha n (by omega)) h1 (fun hD => ⟨hD.1, hD.2.1⟩)
    fun hc ha done g2 s2 h2 => ?_
  obtain ⟨u, us, rfl, hu⟩ := hr
  refine .at_bind (.ite_neg ?_ (.at_bind (.ite_neg ?_ ?_)))
  · rw [h2.is_eq]
    simp [Token.is, Token.attr_of_is hu]
  · rw [h2.is_eq, hu]
    decide
  rw [Stmt.lower, pure_bind]
  exact .of_true (generate_ends h2) ⟨hc, ha, Stmt.fits_skip⟩

theorem reads_ifElse {i t u : Token} {cs ts us : List Token} {e : Expr} {a b : Stmt}
    (hi : i.is .keyword .ifKw = true) (he : ExprForm.expr.Derives cs e)
    (ht : t.is .keyword .thenKw = true) (ha : ReadsStmtForm trace ts a .block)
    (hu : u.is .keyword .elseKw = true) (hb : ReadsStmtForm trace us b .block) :
    ReadsStmtForm trace (i :: (cs ++ t :: (ts ++ u :: us))) (.ite e a b) .stmt := by
  intro n hn c rest g s hr hs
  obtain ⟨n, rfl⟩ := exists_step hn (by simp)
  simp only [List.length_cons, List.length_append] at hn
  simp only [List.cons_append, List.append_assoc] at hs
  rw [Stmt.fits_ite]
  refine stmt_open hs fun s1 h1 => .ite_pos hi ?_
  refine ifStmt_open he (by omega) ht (ha n (by omega)) h1 (fun hD => ⟨hD.1, hD.2.1⟩)
    fun hc ha done g2 s2 h2 => ?_
  refine .at_bind (.ite_pos (by rw [h2.is_eq, hu]) ?_)
  refine .after (advance_stands h2) fun _ s3 h3 => ?_
  refine (hb n (by omega) c rest g2 s3 trivial h3).bind (fun hD => hD.2.2) fun _ _ g4 s4 hb h4 => ?_
  exact .of_true (generate_ends h4) ⟨hc, ha, hb⟩

theorem reads_loop {w l : Token} {cs ts : List Token} {e : Expr} {b : Stmt}
    (hw : w.is .keyword .whileKw = true) (he : ExprForm.expr.Derives cs e)
    (hl : l.is .keyword .loopKw = true) (hb : ReadsStmtForm trace ts b .block) :
    ReadsStmtForm trace (w :: (cs ++ l :: ts)) (.loop e b) .stmt := by
  intro n hn c rest g s hr hs
  obtain ⟨n, rfl⟩ := exists_step hn (by simp)
  simp only [List.length_cons, List.length_append] at hn
  simp only [List.cons_append, List.append_assoc] at hs
  rw [Stmt.fits_loop, Stmt.lower]
  refine stmt_open hs fun s1 h1 => .ite_neg ?_ (.ite_pos hw ?_)
  · simp [Token.is, Token.attr_of_is hw]
  refine .after (enter_faces .whileStmt h1) fun _ s2 h2 => .after (advance_stands h2) fun _ s3 h3 => ?_
  refine .generate_bind h3 fun again g4 s4 h4 => .generate_bind h4 fun done g5 s5 h5 => ?_
  refine .generate_bind h5 fun _ g6 s6 h6 => ?_
  refine (condition_reads he (by omega) (ExprForm.stops_keyword hl) h6).bind (fun hD => hD.1)
    fun v _ g7 s7 hc h7 => ?_
  obtain ⟨rfl, h7⟩ := h7
  refine .after (expect_stands h7 hl) fun _ s8 h8 => ?_
  refine (consume_faces h8).bind (fun _ => trivial) fun _ _ g9 s9 _ h9 => ?_
  refine (hb n (by omega) c rest g9 s9 trivial h9).bind (fun hD => hD.2) fun _ _ g10 s10 hb h10 => ?_
  refine .generate_bind h10 fun _ g11 s11 h11 => ?_
  exact .of_true (generate_ends h11) ⟨hc, hb⟩

/-- A statement with its semicolon, and what follows it. -/
theorem stmt_bind {t : Token} {ts : List Token} {a b : Stmt} {p q : Pass Unit}
    (ha : ReadsStmt .stmt trace p ts a) (ht : t.is .punct .semicolon = true)
    (h : Stands c (ts ++ t :: rest) g s) {us : List Token}
    (hq : ∀ g' s', Stands c rest g' s' →
      q.Lowers trace s' (b.Fits c.table c.program c.scope) b.lower g' fun _ _ => Stands c us) :
    (do p; expect .punct .semicolon; q : Pass Unit).Lowers trace s
      ((Stmt.seq a b).Fits c.table c.program c.scope) (Stmt.seq a b).lower g
      fun _ _ => Stands c us := by
  rw [Stmt.fits_seq, Stmt.lower]
  refine (ha c _ g s (.cons ht) h).bind (fun hD => hD.1) fun _ _ g1 s1 ha h1 => ?_
  refine .after (expect_stands h1 ht) fun _ s2 h2 => ?_
  exact (hq g1 s2 h2).congr ⟨fun hb => ⟨ha, hb⟩, fun hD => hD.2⟩

/-- The end of a list of statements. -/
theorem stmts_end {q : Pass Unit} {x : Gen Unit} (hr : Starts .keyword .endKw rest)
    (hq : q.Lowers trace s D x g fun _ _ => Stands c rest) :
    (do
      q
      if !(← at? .keyword .endKw) then unexpected (.production .stmtListRest)).Lowers trace s D x g
      fun _ _ => Stands c rest := by
  obtain ⟨t, us, rfl, ht⟩ := hr
  refine hq.last (fun hD => hD) fun _ _ g1 s1 hD h1 => .at_bind (.ite_neg ?_ (.of_pure hD h1))
  rw [h1.is_eq, ht]
  decide

theorem reads_block {b e : Token} {ts : List Token} {body : Stmt}
    (hb : b.is .keyword .beginKw = true) (hs : ReadsStmtForm trace ts body .stmtList)
    (he : e.is .keyword .endKw = true) : ReadsStmtForm trace (b :: (ts ++ [e])) body .block := by
  intro n hn c rest g s _ h
  simp only [List.length_cons, List.length_append] at hn
  simp only [List.cons_append, List.append_assoc] at h
  refine .after (enter_faces .block h) fun _ s1 h1 => .after (expect_stands h1 hb) fun _ s2 h2 => ?_
  refine (hs n (by omega) c _ g s2 (.cons he) h2).last (fun hD => hD) fun _ _ g3 s3 hD h3 => ?_
  exact .of_decides (.of_true (expect_stands h3 he) hD)

theorem reads_first {t : Token} {ts us : List Token} {a b : Stmt}
    (hstarts : ∃ u vs, ts = u :: vs ∧ u.startsStmt = true) (ha : ReadsStmtForm trace ts a .stmt)
    (ht : t.is .punct .semicolon = true) (hb : ReadsStmtForm trace us b .stmtListRest) :
    ReadsStmtForm trace (ts ++ t :: us) (.seq a b) .stmtList := by
  intro n hn c rest g s hr h
  simp only [List.length_cons, List.length_append] at hn
  rw [List.append_assoc, List.cons_append] at h
  obtain ⟨u, vs, rfl, hu⟩ := hstarts
  refine .after (enter_faces .stmtList h) fun _ s1 h1 => .atStmt_bind ?_
  rw [h1.lookahead_eq.1, hu]
  exact stmt_bind (ha n (by omega)) ht h1 fun g2 s2 h2 =>
    stmts_end hr (hb n n (by omega) (by omega) c rest g2 s2 hr h2)

theorem reads_lone {t : Token} {us : List Token} {b : Stmt} (ht : t.is .punct .semicolon = true)
    (hb : ReadsStmtForm trace us b .stmtListRest) : ReadsStmtForm trace (t :: us) b .stmtList := by
  intro n hn c rest g s hr h
  rw [List.length_cons] at hn
  rw [List.cons_append] at h
  refine .after (enter_faces .stmtList h) fun _ s1 h1 => .atStmt_bind ?_
  rw [h1.lookahead_eq.1, Token.not_startsStmt (.inl ht)]
  refine .at_bind (.ite_pos (by rw [h1.is_eq, ht]) ?_)
  refine .after (advance_stands h1) fun _ s2 h2 => ?_
  exact stmts_end hr (hb n n (by omega) (by omega) c rest g s2 hr h2)

theorem reads_done : ReadsStmtForm trace [] .skip .stmtListRest := by
  intro n m _ _ c rest g s hr h
  cases m with
  | zero => exact .of_pure Stmt.fits_skip h
  | succ m =>
    obtain ⟨t, us, rfl, ht⟩ := hr
    refine .atStmt_bind ?_
    rw [(Faces.lookahead_eq h).1, Token.not_startsStmt (.inr ht)]
    exact .of_pure Stmt.fits_skip h

theorem reads_more {t : Token} {ts us : List Token} {a b : Stmt}
    (hstarts : ∃ u vs, ts = u :: vs ∧ u.startsStmt = true) (ha : ReadsStmtForm trace ts a .stmt)
    (ht : t.is .punct .semicolon = true) (hb : ReadsStmtForm trace us b .stmtListRest) :
    ReadsStmtForm trace (ts ++ t :: us) (.seq a b) .stmtListRest := by
  intro n m hn hm c rest g s hr h
  obtain ⟨m, rfl⟩ := exists_step hm (by simp)
  simp only [List.length_cons, List.length_append] at hn hm
  rw [List.append_assoc, List.cons_append] at h
  obtain ⟨u, vs, rfl, hu⟩ := hstarts
  refine .atStmt_bind ?_
  rw [h.lookahead_eq.1, hu]
  exact stmt_bind (ha n (by omega)) ht h fun g2 s2 h2 =>
    hb n m (by omega) (by omega) c rest g2 s2 hr h2

theorem readsStmtForm_of_derives {form : StmtForm} {ts : List Token} {b : Stmt}
    (h : form.Derives ts b) : ReadsStmtForm trace ts b form := by
  induction h with
  | block hb _ he ih => exact reads_block hb ih he
  | first ha ht _ iha ihb => exact reads_first ha.starts iha ht ihb
  | lone ht _ ih => exact reads_lone ht ih
  | done => exact reads_done
  | more ha ht _ iha ihb => exact reads_more ha.starts iha ht ihb
  | assign ht hu he => exact reads_assign ht hu he
  | call ht hl hs hr => exact reads_call ht hl hs hr
  | ifThen hi hc ht _ iha => exact reads_ifThen hi hc ht iha
  | ifElse hi hc ht _ hu _ iha ihb => exact reads_ifElse hi hc ht iha hu ihb
  | loop hw hc hl _ ih => exact reads_loop hw hc hl ih
  | print hp he => exact reads_print hp he

/-- In front of the tokens of a block its production reads it. -/
theorem block_reads {ts : List Token} {b : Stmt} (hb : StmtForm.block.Derives ts b) {n : Nat}
    (hn : ts.length ≤ n) (h : Stands c (ts ++ rest) g s) :
    (block n).Lowers trace s (b.Fits c.table c.program c.scope) b.lower g fun _ _ => Stands c rest :=
  readsStmtForm_of_derives hb n hn c rest g s trivial h

end Pass

end OnePass.Compiler

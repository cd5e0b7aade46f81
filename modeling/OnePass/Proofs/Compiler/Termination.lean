import OnePass.Proofs.Compiler.Descent
import OnePass.Proofs.Compiler.Intake
import OnePass.Proofs.Compiler.TwoCalls

namespace OnePass.Compiler.Descent

open Assembly Intake Pass

variable {α β : Type} {t : Token} {m n : Nat}

theorem run_bind (d : Descent α) (f : α → Descent β) (o : Options) (s : State) :
    (d >>= f).run o s =
      match d.run o s with
      | none => none
      | some (.ok a, s') => (f a).run o s'
      | some (.error e, s') => some (.error e, s') := by
  change ((d o >>= fun a => f a o : ExceptT CompileError (StateT State Option) β)).run.run s =
    match (d o).run.run s with
      | none => none
      | some (.ok a, s') => (f a).run o s'
      | some (.error e, s') => some (.error e, s')
  simp only [ExceptT.run_bind, StateT.run_bind]
  cases (d o).run.run s with
  | none => rfl
  | some r =>
    obtain ⟨r, s'⟩ := r
    cases r <;> rfl

theorem run_lift (p : Pass α) (o : Options) (s : State) :
    (liftM p : Descent α).run o s = some (p.run o s) := rfl

/-- From a state with the lookahead `t`, where at least `m` items have been taken and at most `n` can still be taken,
descent has a result, that of the bounded run, and items are taken only while there is more to come. -/
def Follows (t : Token) (m n : Nat) (d : Descent α) (p : Pass α) : Prop :=
  ∀ o s, s.lookahead = t → s.feed.final.kind = .eof → m ≤ s.delivered → s.intake.left ≤ n →
    d.run o s = some (p.run o s) ∧ Took s.intake (p.run o s)

namespace Follows

variable {d e : Descent α} {p q : Pass α}

theorem of_reads (h : p.Reads t) : Follows t m n (liftM p) p :=
  fun o s hs _ _ _ => ⟨rfl, h o s hs⟩

theorem of_quiet (h : Quiet p) : Follows t m n (liftM p) p := of_reads (.of_quiet h)

theorem of_pure (a : α) : Follows t m n (pure a) (pure a) := of_quiet (.of_pure a)

theorem of_unexpected (e : Expectation) :
    Follows t m n (liftM (unexpected e : Pass α)) (unexpected e) := of_reads (.of_unexpected e)

theorem bind {f : α → Descent β} {g : α → Pass β} (h : Follows t m n d p)
    (hf : ∀ a u, Follows u m n (f a) (g a)) : Follows t m n (d >>= f) (p >>= g) := by
  intro o s hs hfinal hm hn
  obtain ⟨hrun, htook⟩ := h o s hs hfinal hm hn
  rw [run_bind, Pass.run_bind, hrun]
  cases hp : p.run o s with
  | mk r s' =>
    rw [hp] at htook
    cases htook with
    | ok hsteps =>
      have hfinal' : s'.feed.final.kind = .eof := (congrArg Token.kind hsteps.final).trans hfinal
      obtain ⟨hrun', htook'⟩ := hf _ _ o s' rfl hfinal' (hm.trans hsteps.taken_le)
        ((hsteps.left_le hfinal).trans hn)
      exact ⟨hrun', .trans hsteps htook'⟩
    | error hsteps hstops => exact ⟨rfl, .error hsteps hstops⟩

/-- Behind a step that takes an item, less is left. -/
theorem take {f : α → Descent β} {g : α → Pass β} (h : p.Takes t)
    (hf : ∀ a u l, l < n → Follows u (m + 1) l (f a) (g a)) :
    Follows t m n (liftM p >>= f) (p >>= g) := by
  intro o s hs hfinal hm hn
  rw [run_bind, Pass.run_bind, run_lift]
  rcases h o s hs with ⟨a, s', hp, hstep⟩ | ⟨e, s', hp, hstops⟩
  · rw [hp]
    have hfinal' : s'.feed.final.kind = .eof := (congrArg Token.kind hstep.final).trans hfinal
    have htaken : s'.delivered = s.delivered + 1 := hstep.taken_eq
    have hleft : s'.intake.left < n := (hstep.left_lt hfinal).trans_le hn
    obtain ⟨hrun', htook'⟩ := hf a _ _ hleft o s' rfl hfinal' (htaken ▸ Nat.succ_le_succ hm) (Nat.le_refl _)
    exact ⟨hrun', .trans (.single hstep) htook'⟩
  · rw [hp]
    exact ⟨rfl, .error .refl hstops⟩

theorem of_takes (h : p.Takes t) : Follows t m n (liftM p) p := of_reads h.reads

/-- Nothing has to follow from the item that is taken. -/
theorem pass {f : α → Descent β} {g : α → Pass β} (h : p.Takes t)
    (hf : ∀ a u, Follows u m n (f a) (g a)) : Follows t m n (liftM p >>= f) (p >>= g) :=
  .bind (.of_takes h) hf

/-- A step that takes nothing. -/
theorem after {f : α → Descent β} {g : α → Pass β} (h : Quiet p)
    (hf : ∀ a, Follows t m n (f a) (g a)) : Follows t m n (liftM p >>= f) (p >>= g) := by
  intro o s hs hfinal hm hn
  obtain ⟨hstill, hblind⟩ := h o s
  rw [run_bind, Pass.run_bind, run_lift]
  cases hrun : p.run o s with
  | mk r s' =>
    rw [hrun] at hstill hblind
    rw [← hstill.intake] at hn ⊢
    cases r with
    | ok a =>
      exact hf a o s' (hstill.lookahead.trans hs) (hstill.feed ▸ hfinal) (hstill.delivered ▸ hm) hn
    | error e => exact ⟨rfl, .of_plain (hblind e rfl).plain⟩

theorem modify {f : State → State} {d : Descent β} {p : Pass β} (hf : ∀ s, Still s (f s))
    (h : Follows t m n d p) :
    Follows t m n (modify f >>= fun _ => d) (modify f >>= fun _ => p) :=
  .after (.of_modify hf) fun _ => h

theorem get {f : State → Descent β} {g : State → Pass β} (hf : ∀ s, Follows t m n (f s) (g s)) :
    Follows t m n (get >>= f) (get >>= g) :=
  fun o s => hf s o s

/-- A look at the lookahead. -/
theorem sees {b : α} {f : α → Descent β} {g : α → Pass β} (h : p.Sees t b)
    (hf : Follows t m n (f b) (g b)) : Follows t m n (liftM p >>= f) (p >>= g) := by
  intro o s hs hfinal hm hn
  rw [run_bind, Pass.run_bind, run_lift, h o s hs]
  exact hf o s hs hfinal hm hn

theorem sees_left {b : α} {f : α → Descent β} {g : Pass β} (h : p.Sees t b)
    (hf : Follows t m n (f b) g) : Follows t m n (liftM p >>= f) g := by
  intro o s hs hfinal hm hn
  rw [run_bind, run_lift, h o s hs]
  exact hf o s hs hfinal hm hn

/-- A step of descent only. -/
theorem taken {f : Nat → Descent α} (h : ∀ k, Follows t k n (f k) p) :
    Follows t m n (taken >>= f) p :=
  fun o s hs hfinal _ hn => h s.delivered o s hs hfinal (Nat.le_refl _) hn

theorem progress {k : Nat} (hk : k < m) (h : Follows t m n d p) :
    Follows t m n (progress k >>= fun _ => d) p := by
  intro o s hs hfinal hm hn
  have hgo : (Descent.progress k).run o s = some (.ok (), s) := if_pos (by omega)
  rw [run_bind, hgo]
  exact h o s hs hfinal hm hn

theorem ite {c : Prop} [Decidable c] (hd : c → Follows t m n d p) (he : ¬c → Follows t m n e q) :
    Follows t m n (if c then d else e) (if c then p else q) := by
  by_cases hc : c
  · rw [if_pos hc, if_pos hc]
    exact hd hc
  · rw [if_neg hc, if_neg hc]
    exact he hc

/-- If nothing can be taken any more, the lookahead is the end of input. -/
theorem ended (h : t.kind = .eof → Follows t m 0 d p) : Follows t m 0 d p := by
  intro o s hs hfinal hm hn
  refine h ?_ o s hs hfinal hm hn
  by_contra hopen
  have hleft : s.intake.left = s.feed.ahead + 1 := if_neg (by rw [← hs] at hopen; exact hopen)
  omega

/-- What stands behind a failure does not matter. -/
theorem fails {f : α → Descent β} {g : α → Pass β} (h : Follows t m n d p) (hp : p.Fails t) :
    Follows t m n (d >>= f) (p >>= g) := by
  intro o s hs hfinal hm hn
  obtain ⟨hrun, htook⟩ := h o s hs hfinal hm hn
  obtain ⟨e, s', hfail⟩ := hp o s hs
  rw [hfail] at htook
  rw [run_bind, Pass.run_bind, hrun, hfail]
  cases htook with
  | error hsteps hstops => exact ⟨rfl, .error hsteps hstops⟩

/-- Both sides refuse the lookahead at once. -/
theorem refuse {x : CompileError} {f : α → Descent β} {q : Pass β} (hx : x.Plain)
    (hp : p.Refuses t x) (hq : q.Refuses t x) : Follows t m n (liftM p >>= f) q := by
  intro o s hs hfinal hm hn
  rw [run_bind, run_lift, hp o s hs, hq o s hs]
  exact ⟨rfl, .of_plain hx⟩

theorem within {start : State → State} {finish : State → State → State}
    (hstart : ∀ s, (start s).intake = s.intake) (hfinish : ∀ s s', (finish s s').intake = s'.intake)
    (h : Follows t m n d p) :
    Follows t m n (within start finish d) (Pass.within start finish p) := by
  intro o s hs hfinal hm hn
  have hfeed : (start s).feed = s.feed := congrArg Intake.feed (hstart s)
  have htaken : (start s).delivered = s.delivered := congrArg Intake.taken (hstart s)
  have hlookahead : (start s).lookahead = s.lookahead := congrArg Intake.lookahead (hstart s)
  obtain ⟨hrun, htook⟩ := h o (start s) (hlookahead.trans hs) (hfeed ▸ hfinal) (htaken ▸ hm)
    (hstart s ▸ hn)
  rw [hstart s] at htook
  have hwithin : (Descent.within start finish d).run o s =
    (d.run o (start s)).map fun r => (r.1, finish s r.2) := rfl
  rw [hwithin, hrun, run_within]
  refine ⟨rfl, ?_⟩
  cases hp : p.run o (start s) with
  | mk r s' =>
    rw [hp] at htook
    cases htook with
    | ok hsteps => exact .ok (hfinish s s' ▸ hsteps)
    | error hsteps hstops => exact .error hsteps (hfinish s s' ▸ hstops)

theorem suppress (h : Follows t m n d p) : Follows t m n (suppress d) (Pass.suppress p) :=
  h.within (fun _ => rfl) fun _ _ => rfl

theorem inScope (scope : Text) (h : Follows t m n d p) :
    Follows t m n (inScope scope d) (Pass.inScope scope p) :=
  h.within (fun _ => rfl) fun _ _ => rfl

end Follows

/-- With eight calls for each item that is left and `c` more, a production follows the one that carries the bound `n`. -/
def FollowsWithin (c n : Nat) (d : Nat → Descent α) (p : Pass α) : Prop :=
  ∀ ⦃k l m : Nat⦄ ⦃t : Token⦄, l ≤ n → 8 * l + c ≤ k → (d k).Follows t m l p

/-- A production that calls others hands them one call less. -/
theorem FollowsWithin.succ {c : Nat} {d : Nat → Descent α} {p : Pass α}
    (h : ∀ ⦃k l m : Nat⦄ ⦃t : Token⦄, l ≤ n → 8 * l + c ≤ k → (d (k + 1)).Follows t m l p) :
    FollowsWithin (c + 1) n d p := by
  intro k l m t hl hk
  obtain ⟨k, rfl⟩ : ∃ j, k = j + 1 := ⟨k - 1, by omega⟩
  exact h hl (by omega)

/-- With the bound zero, the lookahead is the end of input. -/
theorem FollowsWithin.zero {c : Nat} {d : Nat → Descent α} {p : Pass α}
    (h : ∀ ⦃k m : Nat⦄ ⦃t : Token⦄, c ≤ k → t.kind = .eof → (d (k + 1)).Follows t m 0 p) :
    FollowsWithin (c + 1) 0 d p := by
  refine .succ fun k l m t hl hk => ?_
  obtain rfl : l = 0 := by omega
  exact .ended fun hend => h (by omega) hend

section Expressions

/-- The loop of a chain of operators. -/
theorem follows_chain {kind : Kind} (hkind : kind ≠ .eof) {operand : Nat → Descent Value} {p : Pass Value}
    {apply : Attr → Value → Value → Pass Unit} (happly : ∀ a left right, Quiet (apply a left right))
    {loop : Nat → Value → Descent Value}
    (hloop : ∀ left k, loop (k + 1) left = do
      let i ← taken
      let t ← lookahead
      if t.kind = kind then
        advance
        let right ← operand k
        apply t.attr left right
        progress i
        loop k left
      else return left)
    {c n : Nat} (hoperand : FollowsWithin (c + 1) n operand p) {j : Nat} (hj : j ≤ n) (left : Value) :
    FollowsWithin (c + 1) j (fun k => loop k left) (chain kind p apply j left) := by
  induction j with
  | zero =>
    refine .zero fun k m t _ hend => ?_
    have hdone : t.kind ≠ kind := by
      rw [hend]
      exact hkind.symm
    rw [hloop]
    refine .taken fun i => ?_
    refine .sees_left sees_lookahead ?_
    rw [if_neg hdone]
    exact .of_pure left
  | succ j ih =>
    refine .succ fun k l m t hl hk => ?_
    rw [hloop]
    refine .taken fun i => ?_
    refine .sees sees_lookahead ?_
    refine .ite (fun ht => ?_) fun _ => .of_pure left
    have hopen : t.kind ≠ .eof := by
      rw [ht]
      exact hkind
    refine .take (.of_advance hopen) fun _ u l' hl' => ?_
    refine .bind (hoperand (by omega) (by omega)) fun right v => ?_
    refine .after (happly _ _ _) fun _ => ?_
    refine .progress (Nat.lt_succ_self i) ?_
    exact ih (by omega) (by omega) (by omega)

variable {p : Pass Value}

theorem follows_term (h : FollowsWithin 1 n factor p) : FollowsWithin 2 n term (termWith p n) := by
  refine .succ fun k l m t hl hk => ?_
  rw [term]
  refine .after (.of_enter _) fun _ => ?_
  refine .bind (h hl hk) fun left u => ?_
  exact follows_chain (by simp) quiet_multiply factors.eq_2 h (Nat.le_refl n) left hl hk

theorem follows_simpleExpr (h : FollowsWithin 1 n factor p) :
    FollowsWithin 3 n simpleExpr (simpleExprWith p n) := by
  have hterm := follows_term h
  refine .succ fun k l m t hl hk => ?_
  rw [simpleExpr]
  refine .after (.of_enter _) fun _ => ?_
  refine .bind (hterm hl hk) fun left u => ?_
  exact follows_chain (by simp) quiet_addUp terms.eq_2 hterm (Nat.le_refl n) left hl hk

theorem follows_exprWith (h : FollowsWithin 1 n factor p) : FollowsWithin 4 n expr (exprWith p n) := by
  have hsimple := follows_simpleExpr h
  refine .succ fun k l m t hl hk => ?_
  rw [expr]
  refine .after (.of_enter _) fun _ => ?_
  refine .bind (hsimple hl hk) fun left u => ?_
  refine .sees sees_lookahead ?_
  refine .ite (fun hu => ?_) fun _ => .of_pure left
  refine .pass (.of_advance (by simp [hu])) fun _ v => ?_
  refine .bind (hsimple hl hk) fun right w => ?_
  refine .after .of_check fun _ => ?_
  refine .after .of_generate fun _ => ?_
  exact .of_pure _

theorem follows_factor (n : Nat) : FollowsWithin 1 n factor (Pass.factor n) := by
  induction n with
  | zero =>
    refine .zero fun k m t _ hend => ?_
    rw [factor]
    refine .after (.of_enter _) fun _ => ?_
    refine .taken fun i => ?_
    refine .sees_left sees_lookahead ?_
    rw [if_neg (by simp [hend]), if_neg (by simp [hend]), if_neg (by simp [Token.is, hend]),
      if_neg (by simp [Token.is, hend])]
    exact .of_unexpected _
  | succ n ih =>
    refine .succ fun k l m t hl hk => ?_
    rw [factor]
    refine .after (.of_enter _) fun _ => ?_
    refine .taken fun i => ?_
    refine .sees sees_lookahead ?_
    refine .ite (fun ht => .of_reads (reads_identifierFactor ht)) fun _ => ?_
    refine .ite (fun ht => .of_reads (reads_numberFactor ht)) fun _ => ?_
    refine .ite (fun ht => ?_) fun _ => ?_
    · refine .take (.of_advance (kind_of_is (by simp) ht)) fun _ u l' hl' => ?_
      refine .progress (Nat.lt_succ_self i) ?_
      refine .bind (follows_exprWith ih (by omega) (by omega)) fun v w => ?_
      exact .pass (.of_expect (by simp) _) fun _ _ => .of_pure _
    refine .ite (fun ht => ?_) fun _ => .of_unexpected _
    have hopen : t.kind ≠ .eof := by
      simp only [Bool.or_eq_true] at ht
      rcases ht with (ht | ht) | ht <;> exact kind_of_is (by simp) ht
    refine .take (.of_advance hopen) fun _ u l' hl' => ?_
    refine .progress (Nat.lt_succ_self i) ?_
    refine .bind (ih (by omega) (by omega)) fun v w => ?_
    exact .after quiet_signed fun _ => .of_pure _

theorem follows_expr (n : Nat) : FollowsWithin 4 n expr (Pass.expr n) :=
  follows_exprWith (follows_factor n)

end Expressions

section Statements

theorem fails_factor (n : Nat) (ht : t.kind = .eof) : (Pass.factor n).Fails t := by
  cases n with
  | zero => exact .after (.of_enter _) fun _ => .of_unexpected _
  | succ n =>
    refine .after (.of_enter _) fun _ => ?_
    refine .sees sees_lookahead ?_
    rw [if_neg (by simp [ht]), if_neg (by simp [ht]), if_neg (by simp [Token.is, ht]),
      if_neg (by simp [Token.is, ht])]
    exact .of_unexpected _

/-- No expression begins with the end of input. -/
theorem fails_expr (n : Nat) (ht : t.kind = .eof) : (Pass.expr n).Fails t := by
  have hterm : (termWith (Pass.factor n) n).Fails t :=
    .after (.of_enter _) fun _ => .bind (fails_factor n ht)
  have hsimple : (simpleExprWith (Pass.factor n) n).Fails t :=
    .after (.of_enter _) fun _ => .bind hterm
  exact .after (.of_enter _) fun _ => .bind hsimple

theorem sees_atExpr : atExpr.Sees t (t.kind == .identifier || t.kind == .number ||
    t.is .punct .leftParen || t.is .addop .plus || t.is .addop .minus || t.is .keyword .notKw) := by
  rintro o s rfl
  rfl

theorem sees_atStmt : atStmt.Sees t (t.kind == .identifier || t.is .keyword .ifKw ||
    t.is .keyword .whileKw || t.is .keyword .printKw) := by
  rintro o s rfl
  rfl

variable {k l : Nat}

/-- A value is used up by one line. -/
theorem follows_consume (v : Value) (line : Int → Line) :
    Follows t m n (liftM (consume v fun r => put (line r))) (consume v fun r => put (line r)) :=
  .of_quiet (quiet_consume fun r => .of_put (line r))

theorem follows_assign (x : Token) (ht : t.kind ≠ .eof) (hl : l ≤ n) (hk : 8 * l + 4 ≤ k) :
    (assign k x).Follows t m l (Pass.assign n x) := by
  refine .get fun s => ?_
  refine .ite (fun _ => .of_quiet (.of_fail _ _)) fun _ => ?_
  refine .pass (.of_advance ht) fun _ u => ?_
  refine .bind (follows_expr n hl hk) fun v w => ?_
  refine .get fun s => ?_
  refine .ite (fun _ => .of_quiet (.of_fail _ _)) fun _ => ?_
  exact follows_consume v _

theorem follows_actuals (callee : Text) {j : Nat} (hj : j ≤ n) (position : Int) :
    FollowsWithin 5 j (fun k => actuals callee k position) (Pass.actuals n callee j position) := by
  induction j generalizing position with
  | zero =>
    refine .zero fun k m t hk hend => ?_
    rw [actuals]
    refine .taken fun i => ?_
    change Follows t i 0 _ (Pass.expr n >>= fun _ => pure ())
    exact .fails (follows_expr n hj hk) (fails_expr n hend)
  | succ j ih =>
    refine .succ fun k l m t hl hk => ?_
    rw [actuals]
    refine .taken fun i => ?_
    refine .bind (follows_expr n (by omega) hk) fun v u => ?_
    refine .get fun s => ?_
    refine .ite (fun _ => .of_quiet (.of_fail _ _)) fun _ => ?_
    refine .after .of_generate fun _ => ?_
    refine .sees sees_at ?_
    refine .ite (fun hu => ?_) fun _ => .of_pure _
    refine .take (.of_advance (kind_of_is (by simp) hu)) fun _ w l' hl' => ?_
    refine .progress (Nat.lt_succ_self i) ?_
    exact ih (by omega) _ (by omega) (by omega)

/-- A list ends where a token of this kind and attribute is next. -/
theorem follows_close (k : Kind) (a : Attr) (e : Expectation) (x : α) :
    Follows t m n (liftM (at? k a) >>= fun b => if !b then liftM (unexpected e) else pure x)
      (at? k a >>= fun b => if !b then unexpected e else pure x) := by
  refine .sees sees_at ?_
  exact .ite (fun _ => .of_unexpected _) fun _ => .of_pure x

theorem follows_exprList (callee : Text) :
    FollowsWithin 5 n (fun k => exprList k callee) (Pass.exprList n callee) := by
  intro k l m t hl hk
  refine .after (.of_enter _) fun _ => ?_
  refine .sees sees_at ?_
  refine .ite (fun _ => ?_) fun _ => .of_pure _
  refine .sees sees_atExpr ?_
  refine .ite (fun _ => .of_unexpected _) fun _ => ?_
  refine .bind (follows_actuals callee (Nat.le_refl n) 0 hl hk) fun _ u => ?_
  exact follows_close _ _ _ _

theorem follows_call (x : Token) (ht : t.kind ≠ .eof) (hl : l ≤ n) (hk : 8 * l + 5 ≤ k) :
    (call k x).Follows t m l (Pass.call n x) := by
  refine .get fun s => ?_
  refine .ite (fun _ => .of_quiet (.of_fail _ _)) fun _ => ?_
  refine .ite (fun _ => .of_quiet (.of_fail _ _)) fun _ => ?_
  refine .pass (.of_advance ht) fun _ u => ?_
  refine .bind (follows_exprList x.lexeme hl hk).suppress fun _ v => ?_
  exact .of_takes (.of_expect (by simp) _)

theorem follows_assignOrCall (x : Token) :
    FollowsWithin 5 n (fun k => assignOrCall k x) (Pass.assignOrCall n x) := by
  intro k l m t hl hk
  refine .after (.of_enter _) fun _ => ?_
  refine .sees sees_at ?_
  refine .ite (fun ht => ?_) fun _ => ?_
  · exact follows_assign x (kind_of_is (by simp) ht) hl (by omega)
  refine .sees sees_at ?_
  refine .ite (fun ht => ?_) fun _ => .of_unexpected _
  exact follows_call x (kind_of_is (by simp) ht) hl hk

theorem follows_condition : FollowsWithin 4 n condition (Pass.condition n) := by
  intro k l m t hl hk
  refine .bind (follows_expr n hl hk) fun v _ => ?_
  exact .after .of_check fun _ => .of_pure v

theorem follows_printStmt (ht : t.kind ≠ .eof) (hl : l ≤ n) (hk : 8 * l + 4 ≤ k) :
    (printStmt k).Follows t m l (Pass.printStmt n) := by
  refine .after (.of_enter _) fun _ => ?_
  refine .pass (.of_advance ht) fun _ u => ?_
  refine .bind (follows_expr n hl hk) fun v w => ?_
  refine .ite (fun _ => .of_quiet (.of_fail _ _)) fun _ => ?_
  exact follows_consume v _

variable {p : Pass Unit}

theorem follows_stmts {j : Nat} (h : FollowsWithin 6 n stmt p) (hj : j ≤ n) :
    FollowsWithin 7 j stmts (stmtsWith p j) := by
  induction j with
  | zero =>
    refine .zero fun k m t _ hend => ?_
    rw [stmts]
    refine .taken fun i => ?_
    refine .sees_left sees_atStmt ?_
    rw [if_neg (by simp [Token.is, hend])]
    exact .of_pure _
  | succ j ih =>
    refine .succ fun k l m t hl hk => ?_
    rw [stmts]
    refine .taken fun i => ?_
    refine .sees sees_atStmt ?_
    refine .ite (fun _ => ?_) fun _ => .of_pure _
    refine .bind (h (by omega) hk) fun _ u => ?_
    refine .take (.of_expect (by simp) _) fun _ v l' hl' => ?_
    refine .progress (Nat.lt_succ_self i) ?_
    exact ih (by omega) (by omega) (by omega)

theorem follows_stmtList (h : FollowsWithin 6 n stmt p) :
    FollowsWithin 8 n stmtList (stmtListWith p n) := by
  refine .succ fun k l m t hl hk => ?_
  have hrest : ∀ u, Follows u m l (do
      stmts k
      if !(← at? .keyword .endKw) then unexpected (.production .stmtListRest)) (do
      stmtsWith p n
      if !(← at? .keyword .endKw) then unexpected (.production .stmtListRest)) := by
    intro u
    refine .bind (follows_stmts h (Nat.le_refl n) hl hk) fun _ v => ?_
    exact follows_close _ _ _ _
  rw [stmtList]
  refine .after (.of_enter _) fun _ => ?_
  refine .sees sees_atStmt ?_
  refine .ite (fun _ => ?_) fun _ => ?_
  · refine .bind (h hl (by omega)) fun _ u => ?_
    exact .pass (.of_expect (by simp) _) fun _ v => hrest v
  refine .sees sees_at ?_
  refine .ite (fun ht => ?_) fun _ => .of_unexpected _
  exact .pass (.of_advance (kind_of_is (by simp) ht)) fun _ u => hrest u

theorem follows_blockWith (h : FollowsWithin 6 n stmt p) : FollowsWithin 9 n block (blockWith p n) := by
  refine .succ fun k l m t hl hk => ?_
  rw [block]
  refine .after (.of_enter _) fun _ => ?_
  refine .pass (.of_expect (by simp) _) fun _ u => ?_
  refine .bind (follows_stmtList h hl hk) fun _ v => ?_
  exact .of_takes (.of_expect (by simp) _)

theorem follows_ifStmt (h : FollowsWithin 9 n block p) (ht : t.kind ≠ .eof) (hl : l ≤ n + 1)
    (hk : 8 * l + 4 ≤ k) : (ifStmt (k + 1) m).Follows t m l (ifStmtWith p (n + 1)) := by
  have hlabel : ∀ {u m l} x, Follows u m l (liftM (put (.label x))) (put (.label x)) :=
    fun _ => .of_quiet (.of_put _)
  rw [ifStmt]
  refine .after (.of_enter _) fun _ => ?_
  refine .take (.of_advance ht) fun _ u l' hl' => ?_
  have hblock : ∀ u, (block k).Follows u (m + 1) l' p := fun _ => h (by omega) (by omega)
  refine .bind (follows_condition (by omega) (by omega)) fun v w => ?_
  refine .pass (.of_expect (by simp) _) fun _ x => ?_
  refine .after .of_generate fun r => ?_
  refine .after .of_generate fun other => ?_
  refine .after .of_generate fun done => ?_
  refine .after (.of_put _) fun _ => ?_
  refine .after .of_generate fun _ => ?_
  refine .progress (Nat.lt_succ_self m) ?_
  refine .bind (hblock x) fun _ y => ?_
  refine .after (.of_put _) fun _ => ?_
  refine .after (.of_put _) fun _ => ?_
  refine .sees sees_at ?_
  refine .ite (fun hy => ?_) fun _ => ?_
  · refine .pass (.of_advance (kind_of_is (by simp) hy)) fun _ z => ?_
    refine .progress (Nat.lt_succ_self m) ?_
    exact .bind (hblock z) fun _ _ => hlabel done
  · refine .sees sees_at ?_
    exact .ite (fun _ => .of_unexpected _) fun _ => hlabel done

theorem follows_whileStmt (h : FollowsWithin 9 n block p) (ht : t.kind ≠ .eof) (hl : l ≤ n + 1)
    (hk : 8 * l + 4 ≤ k) : (whileStmt (k + 1) m).Follows t m l (whileStmtWith p (n + 1)) := by
  rw [whileStmt]
  refine .after (.of_enter _) fun _ => ?_
  refine .take (.of_advance ht) fun _ u l' hl' => ?_
  refine .after .of_generate fun again => ?_
  refine .after .of_generate fun done => ?_
  refine .after (.of_put _) fun _ => ?_
  refine .bind (follows_condition (by omega) (by omega)) fun v w => ?_
  refine .pass (.of_expect (by simp) _) fun _ x => ?_
  refine .after (quiet_consume fun _ => .of_put _) fun _ => ?_
  refine .progress (Nat.lt_succ_self m) ?_
  refine .bind (h (by omega) (by omega)) fun _ _ => ?_
  refine .after (.of_put _) fun _ => ?_
  exact .of_quiet (.of_put _)

theorem follows_stmt (n : Nat) : FollowsWithin 6 n stmt (Pass.stmt n) := by
  induction n with
  | zero =>
    refine .zero fun k m t _ hend => ?_
    rw [stmt]
    refine .after (.of_enter _) fun _ => ?_
    refine .taken fun i => ?_
    refine .sees_left sees_lookahead ?_
    rw [if_neg (by simp [Token.is, hend]), if_neg (by simp [Token.is, hend]),
      if_neg (by simp [Token.is, hend]), if_neg (by simp [hend])]
    exact .of_unexpected _
  | succ n ih =>
    have hblock := follows_blockWith ih
    refine .succ fun k l m t hl hk => ?_
    obtain ⟨j, rfl⟩ : ∃ j, k = j + 1 := ⟨k - 1, by omega⟩
    rw [stmt]
    refine .after (.of_enter _) fun _ => ?_
    refine .taken fun i => ?_
    refine .sees sees_lookahead ?_
    refine .ite (fun ht => ?_) fun _ => ?_
    · exact follows_ifStmt hblock (kind_of_is (by simp) ht) hl (by omega)
    refine .ite (fun ht => ?_) fun _ => ?_
    · exact follows_whileStmt hblock (kind_of_is (by simp) ht) hl (by omega)
    refine .ite (fun ht => ?_) fun _ => ?_
    · exact follows_printStmt (kind_of_is (by simp) ht) hl (by omega)
    refine .ite (fun ht => ?_) fun _ => .of_unexpected _
    exact .pass (.of_advance (by simp [ht])) fun _ u => follows_assignOrCall t hl hk

theorem follows_block (n : Nat) : FollowsWithin 9 n block (Pass.block n) :=
  follows_blockWith (follows_stmt n)

end Statements

section Declarations

theorem refuses_expectIdentifier (ht : t.kind ≠ .identifier) :
    expectIdentifier.Refuses t (.unexpected .identifier t) := by
  rintro o s rfl
  rw [expectIdentifier, Pass.run_bind, sees_lookahead o s rfl]
  dsimp only
  rw [if_neg ht]
  rfl

theorem refuses_unexpected (e : Expectation) :
    (unexpected e : Pass α).Refuses t (.unexpected e t) := by
  rintro o s rfl
  rfl

variable {install : Nat → Token → Pass Unit}

theorem follows_identifiers (h : ∀ i x, Quiet (install i x)) (n i : Nat) :
    FollowsWithin 1 n (fun k => identifiers install k i) (Pass.identifiers install n i) := by
  induction n generalizing i with
  | zero =>
    refine .zero fun k m t _ hend => ?_
    rw [identifiers]
    refine .taken fun j => ?_
    exact .refuse (.inl ⟨t, rfl⟩) (refuses_expectIdentifier (by simp [hend])) (refuses_unexpected _)
  | succ n ih =>
    refine .succ fun k l m t hl hk => ?_
    rw [identifiers]
    refine .taken fun j => ?_
    refine .take .of_expectIdentifier fun x u l' hl' => ?_
    refine .after (h i x) fun _ => ?_
    refine .sees sees_at ?_
    refine .ite (fun hu => ?_) fun _ => .of_pure _
    refine .pass (.of_advance (kind_of_is (by simp) hu)) fun _ v => ?_
    refine .progress (Nat.lt_succ_self j) ?_
    exact ih _ (by omega) (by omega)

theorem follows_identifierList (h : ∀ i x, Quiet (install i x)) (n i : Nat) :
    FollowsWithin 1 n (fun k => identifierList install k i) (Pass.identifierList install n i) := by
  intro k l m t hl hk
  refine .after (.of_enter _) fun _ => ?_
  refine .bind (follows_identifiers h n i hl hk) fun j u => ?_
  exact follows_close _ _ _ j

theorem follows_variableDecl (n : Nat) : FollowsWithin 1 n variableDecl (Pass.variableDecl n) := by
  intro k l m t hl hk
  have hnames : (identifierList _ k 0).Follows t m l _ :=
    follows_identifierList (fun _ x => quiet_awaitType noPosition x) n 0 hl hk
  refine .after (.of_enter _) fun _ => ?_
  refine .bind (.bind hnames fun _ _ => .of_pure ()) fun _ u => ?_
  exact .pass (.of_expect (by simp) _) fun _ _ => .of_reads reads_standardType

theorem follows_variableDecls (n : Nat) : FollowsWithin 2 n variableDecls (Pass.variableDecls n) := by
  induction n with
  | zero =>
    refine .zero fun k m t _ hend => ?_
    rw [variableDecls]
    refine .taken fun i => ?_
    refine .sees_left sees_lookahead ?_
    rw [if_neg (by simp [hend])]
    exact .of_pure _
  | succ n ih =>
    refine .succ fun k l m t hl hk => ?_
    rw [variableDecls]
    refine .taken fun i => ?_
    refine .sees sees_lookahead ?_
    refine .ite (fun _ => ?_) fun _ => .of_pure _
    refine .bind (follows_variableDecl (n + 1) hl hk) fun _ u => ?_
    refine .take (.of_expect (by simp) _) fun _ v l' hl' => ?_
    refine .progress (Nat.lt_succ_self i) ?_
    exact ih (by omega) (by omega)

theorem follows_variableDeclList (n : Nat) :
    FollowsWithin 2 n variableDeclList (Pass.variableDeclList n) := by
  intro k l m t hl hk
  refine .after (.of_enter _) fun _ => ?_
  refine .bind (follows_variableDecls n hl hk) fun _ u => ?_
  refine .sees sees_at ?_
  refine .sees sees_at ?_
  exact .ite (fun _ => .of_unexpected _) fun _ => .of_pure _

theorem follows_formals (n i : Nat) : FollowsWithin 2 n (fun k => formals k i) (Pass.formals n i) := by
  have hnames := follows_identifierList fun (i : Nat) x => quiet_awaitType i x
  induction n generalizing i with
  | zero =>
    refine .zero fun k m t hk hend => ?_
    obtain ⟨j, rfl⟩ : ∃ j, k = j + 1 := ⟨k - 1, by omega⟩
    rw [formals]
    simp only [identifierList, bind_assoc]
    rw [identifiers]
    simp only [bind_assoc]
    refine .taken fun _ => ?_
    refine .after (.of_enter _) fun _ => ?_
    refine .taken fun _ => ?_
    exact .refuse (.inl ⟨t, rfl⟩) (refuses_expectIdentifier (by simp [hend])) (refuses_unexpected _)
  | succ n ih =>
    refine .succ fun k l m t hl hk => ?_
    rw [formals]
    refine .taken fun i' => ?_
    refine .bind (hnames (n + 1) i hl hk) fun j u => ?_
    refine .take (.of_expect (by simp) _) fun _ v l' hl' => ?_
    refine .bind (.of_reads reads_standardType) fun _ w => ?_
    refine .sees sees_at ?_
    refine .ite (fun hw => ?_) fun _ => follows_close _ _ _ _
    refine .pass (.of_advance (kind_of_is (by simp) hw)) fun _ x => ?_
    refine .progress (Nat.lt_succ_self i') ?_
    exact ih j (by omega) (by omega)

theorem follows_procedureArgs (n : Nat) : FollowsWithin 2 n procedureArgs (Pass.procedureArgs n) := by
  intro k l m t hl hk
  refine .after (.of_enter _) fun _ => ?_
  refine .sees sees_lookahead ?_
  refine .ite (fun _ => ?_) fun _ => ?_
  · exact .after (.of_enter _) fun _ => follows_formals n 0 hl hk
  · exact .ite (fun _ => .of_unexpected _) fun _ => .of_pure _

theorem follows_procedureDecl {k l : Nat} (ht : t.kind ≠ .eof) (hl : l ≤ n) (hk : 8 * l + 9 ≤ k) :
    (procedureDecl k).Follows t m l (Pass.procedureDecl n) := by
  have hargs : ∀ u, (procedureArgs k).Follows u m l (Pass.procedureArgs n) :=
    fun _ => follows_procedureArgs n hl (by omega)
  have hvariables : ∀ u, (variableDeclList k).Follows u m l (Pass.variableDeclList n) :=
    fun _ => follows_variableDeclList n hl (by omega)
  refine .after (.of_enter _) fun _ => ?_
  refine .pass (.of_advance ht) fun _ u => ?_
  refine .pass .of_expectIdentifier fun x v => ?_
  refine .get fun s => ?_
  refine .after .of_declare fun _ => ?_
  refine .inScope _ ?_
  refine .pass (.of_expect (by simp) _) fun _ w => ?_
  refine .bind (hargs w) fun _ y => ?_
  refine .pass (.of_expect (by simp) _) fun _ z => ?_
  refine .bind (hvariables z) fun _ _ => ?_
  exact (follows_block n hl hk).suppress

theorem follows_procedureDecls (n : Nat) :
    FollowsWithin 10 n procedureDecls (Pass.procedureDecls n) := by
  induction n with
  | zero =>
    refine .zero fun k m t _ hend => ?_
    rw [procedureDecls]
    refine .taken fun i => ?_
    refine .sees_left sees_at ?_
    rw [if_neg (by simp [Token.is, hend])]
    exact .of_pure _
  | succ n ih =>
    refine .succ fun k l m t hl hk => ?_
    rw [procedureDecls]
    refine .taken fun i => ?_
    refine .sees sees_at ?_
    refine .ite (fun ht => ?_) fun _ => .of_pure _
    refine .bind (follows_procedureDecl (kind_of_is (by simp) ht) hl hk) fun _ u => ?_
    refine .take (.of_expect (by simp) _) fun _ v l' hl' => ?_
    refine .progress (Nat.lt_succ_self i) ?_
    exact ih (by omega) (by omega)

theorem follows_procedureDeclList (n : Nat) :
    FollowsWithin 10 n procedureDeclList (Pass.procedureDeclList n) := by
  intro k l m t hl hk
  refine .after (.of_enter _) fun _ => ?_
  refine .bind (follows_procedureDecls n hl hk) fun _ u => ?_
  exact follows_close _ _ _ _

end Declarations

theorem follows_program (n : Nat) : FollowsWithin 10 n program (Pass.program n) := by
  intro k l m t hl hk
  have hvariables : ∀ u, (variableDeclList k).Follows u m l (Pass.variableDeclList n) :=
    fun _ => follows_variableDeclList n hl (by omega)
  have hprocedures : ∀ u, (procedureDeclList k).Follows u m l (Pass.procedureDeclList n) :=
    fun _ => follows_procedureDeclList n hl hk
  have hblock : ∀ u, (block k).Follows u m l (Pass.block n) :=
    fun _ => follows_block n hl (by omega)
  refine .after (.of_enter _) fun _ => ?_
  refine .sees sees_at ?_
  refine .ite (fun _ => .of_unexpected _) fun h => ?_
  have ht : t.is .keyword .programKw = true := by simpa using h
  refine .pass (.of_advance (kind_of_is (by simp) ht)) fun _ u => ?_
  refine .pass .of_expectIdentifier fun x v => ?_
  refine .after .of_declare fun _ => ?_
  refine .modify (fun _ => ⟨rfl, rfl, rfl⟩) ?_
  refine .pass (.of_expect (by simp) _) fun _ w => ?_
  refine .after (.of_put _) fun _ => ?_
  refine .bind (hvariables w) fun _ y => ?_
  refine .bind (hprocedures y) fun _ z => ?_
  refine .bind (hblock z) fun _ u => ?_
  refine .pass (.of_expect (by simp) _) fun _ _ => ?_
  refine .after (.of_put _) fun _ => ?_
  exact .of_quiet quiet_dataLines

/-- A compilation begins as behind an open token: it takes an item in any case. -/
theorem translate_follows (o : Options) (s : State) (hfinal : s.feed.final.kind = .eof) {u : Token}
    (hu : u.kind ≠ .eof) {k : Nat} (hk : 8 * s.feed.ahead + 10 ≤ k) :
    (Descent.translate k).run o s = some (Pass.translate.run o s) ∧
      Took ⟨s.feed, s.delivered, u⟩ (Pass.translate.run o s) := by
  rw [Descent.translate, Pass.translate, run_bind, Pass.run_bind, run_lift]
  rcases advance_takes o s hu with ⟨a, s', hadvance, hstep⟩ | ⟨e, s', hadvance, hstops⟩
  · have hfinal' : s'.feed.final.kind = .eof := (congrArg Token.kind hstep.final).trans hfinal
    have hfirst : (⟨s.feed, s.delivered, u⟩ : Intake).left = s.feed.ahead + 1 := if_neg hu
    have hleft : s'.intake.left ≤ s.feed.ahead := by
      have := hstep.left_lt hfinal
      omega
    have hdepth : 8 * s'.intake.left + 10 ≤ k := by omega
    obtain ⟨hrun, htook⟩ := follows_program (s'.feed.items.length + 1) (left_le s'.intake) hdepth o s' rfl hfinal'
      (Nat.zero_le _) (Nat.le_refl _)
    rw [hadvance]
    dsimp only
    rw [Pass.run_bind, run_get]
    exact ⟨hrun, .trans (.single hstep) htook⟩
  · rw [hadvance]
    exact ⟨rfl, .error .refl hstops⟩

theorem parse_follows {o : Options} {s : State} {k : Nat}
    (h : (Descent.translate k).run o s = some (Pass.translate.run o s)) :
    (Descent.parse k).run o s = some (Pass.parse.run o s) := by
  rw [Descent.parse, Pass.parse_eq, run_bind, Pass.run_bind, h]
  cases Pass.translate.run o s with
  | mk r s' =>
    cases r with
    | error e => rfl
    | ok a =>
      have hget : (get : Descent State).run o s' = some (.ok s', s') := rfl
      dsimp only
      rw [run_bind, hget, Pass.run_bind, run_get]
      dsimp only
      split <;> rfl

/-- The last step of a compilation changes no state. -/
theorem state_parse (o : Options) (s : State) :
    (Pass.parse.run o s).2 = (Pass.translate.run o s).2 := by
  rw [Pass.parse_eq, Pass.run_bind]
  cases Pass.translate.run o s with
  | mk r s' =>
    cases r with
    | error e => rfl
    | ok a =>
      dsimp only
      rw [Pass.run_bind, run_get]
      dsimp only
      split <;> rfl

/-- Compilation ends: from a depth on that is linear in the number of tokens left before the end of input, descent has a
result, the one of the run that is made. It takes one item for each of these tokens and one more at most, and none
behind the end of input or an error. -/
theorem parse_terminates (o : Options) (s : State) (h : s.feed.final.kind = .eof) :
    (∀ k, 8 * s.feed.ahead + 10 ≤ k → (Descent.parse k).run o s = some (Pass.parse.run o s)) ∧
      ∃ k, (Pass.parse.run o s).2.delivered = s.delivered + k ∧
        (Pass.parse.run o s).2.feed = s.feed.after k ∧
        (∀ i ∈ (s.feed.answers k).dropLast, Item.isOpen i = true) ∧ k ≤ s.feed.ahead + 1 := by
  have hopen : ({ kind := .other 0 } : Token).kind ≠ .eof := by simp
  refine ⟨fun k hk => parse_follows (translate_follows o s h hopen hk).1, ?_⟩
  obtain ⟨k, htaken, hfeed, hanswers⟩ := (translate_follows o s h hopen (Nat.le_refl _)).2.answers
  rw [← state_parse] at htaken hfeed
  have hbefore : ∀ i ∈ (s.feed.answers k).dropLast, Item.isOpen i = true := by
    intro i hi
    apply hanswers
    cases hk : s.feed.answers k with
    | nil => simp [hk] at hi
    | cons j js =>
      rw [hk] at hi
      exact List.mem_cons_of_mem _ hi
  exact ⟨k, htaken, hfeed, hbefore, Feed.le_ahead h hbefore⟩

/-- Tokens that no scanner gives: an operator and a token of unknown codes, and more behind the end of input. -/
def strangeTokens : List Token :=
  [⟨.keyword, .programKw, "program", 1, 1⟩, ⟨.identifier, .none, "p", 1, 9⟩, ⟨.punct, .semicolon, ";", 1, 10⟩,
    ⟨.keyword, .beginKw, "begin", 2, 1⟩, ⟨.keyword, .printKw, "print", 2, 7⟩, ⟨.number, .none, "1", 2, 13⟩,
    ⟨.addop, .other 77, "?", 0, 0⟩, ⟨.number, .none, "2", 2, 17⟩, ⟨.other (-3), .semicolon, [], 0, 0⟩,
    ⟨.eof, .endKw, [], 0, 0⟩, ⟨.keyword, .endKw, "end", 3, 1⟩]

theorem parse_terminates_strange :
    (Feed.ofTokens strangeTokens).final.kind = .eof ∧ (Feed.ofTokens strangeTokens).ahead = 9 ∧
      (∀ k, 8 * 9 + 10 ≤ k → (Descent.parse k).run { trace := true } (State.init (Feed.ofTokens strangeTokens)) =
        some (Pass.parse.run { trace := true } (State.init (Feed.ofTokens strangeTokens)))) ∧
      ∃ k, (Pass.parse.run { trace := true } (State.init (Feed.ofTokens strangeTokens))).2.delivered = 0 + k ∧
        (Pass.parse.run { trace := true } (State.init (Feed.ofTokens strangeTokens))).2.feed =
          (Feed.ofTokens strangeTokens).after k ∧
        (∀ i ∈ ((Feed.ofTokens strangeTokens).answers k).dropLast, Item.isOpen i = true) ∧
        k ≤ (Feed.ofTokens strangeTokens).ahead + 1 :=
  ⟨rfl, rfl, parse_terminates { trace := true } (State.init (Feed.ofTokens strangeTokens)) rfl⟩

end OnePass.Compiler.Descent

import OnePass.Proofs.Pipeline.ExpressionCode

namespace OnePass.Machine

open Assembler Assembly Source Compiler

/-- Code that brings the value of an expression into a register. -/
def Evaluates (t : SymbolTable) (scope : Text) (e : Expr) (ls : List Line) (r : Fin 3) : Prop :=
  ∀ (P : Image) (k : Nat) (σ : Store) (out : Array Word) (m : Machine), P.Linked → P.Sits k ls →
    σ.Boolean t scope → Sees P k σ out m →
      Computes P σ out m (k + width ls) (fun w m' => m'.regs.get r.castSucc = w) (e.eval σ)

/-- The code of a statement. -/
inductive StmtCode (t : SymbolTable) (scope : Text) : Stmt → List Line → Prop where
  | skip : StmtCode t scope .skip []
  | seq {a b : Stmt} {la lb : List Line} (ha : StmtCode t scope a la)
      (hb : StmtCode t scope b lb) : StmtCode t scope (.seq a b) (la ++ lb)
  | assign {x : Text} {e : Expr} {ls : List Line} {r : Fin 3} (he : Evaluates t scope e ls r) :
      StmtCode t scope (.assign x e) (ls ++ [.move (.memory x) (.register r.val)])
  | call {p : Text} {es : List Expr} : StmtCode t scope (.call p es) []
  | ite {c : Expr} {a b : Stmt} {lc la lb : List Line} {r : Fin 3} {other done : Text}
      (hc : Evaluates t scope c lc r) (ha : StmtCode t scope a la) (hb : StmtCode t scope b lb) :
      StmtCode t scope (.ite c a b) (lc ++ .branch .brez r.val other ::
        (la ++ .jump done :: .label other :: (lb ++ [.label done])))
  | loop {c : Expr} {s : Stmt} {lc ls : List Line} {r : Fin 3} {again done : Text}
      (hc : Evaluates t scope c lc r) (hs : StmtCode t scope s ls) :
      StmtCode t scope (.loop c s) (.label again :: (lc ++ .branch .brez r.val done ::
        (ls ++ [.jump again, .label done])))
  | print {e : Expr} {ls : List Line} {r : Fin 3} (he : Evaluates t scope e ls r) :
      StmtCode t scope (.print e) (ls ++ [.unary .outb r.val])

variable {t : SymbolTable} {program scope : Text} {declared : Text → Prop} {g g' : Generator} {v : Nat}

/-- An expression evaluated into a register, with nothing else in use. -/
theorem evaluates_code (hD : ∀ x, declared x → x.IsIdentifier) {e : Expr}
    (hnames : ∀ x ∈ e.names, declared x) {type : ExprType} (ht : e.type? t scope = some type) {q : Int}
    {g₁ : Generator} (hg : g.Sound declared []) (h : e.lower.Gives g v g₁)
    (h' : (Gen.materialize v).Gives g₁ q g') :
    ∃ (r : Fin 3) (ls : List Line), q = r.val ∧ g'.Sound declared [v] ∧
      Fragment declared g ls g' ∧ (∀ x ∈ e.names, x ∈ ls.flatMap Line.dataNames) ∧
      Evaluates t scope e ls r := by
  obtain ⟨-, ls, htouch, hc⟩ := expr_code hD hnames ht hg h
  obtain ⟨r, ls', rfl, hs, hfrag, hbr⟩ :=
    Gen.materialize_code hc.sound hD List.mem_cons_self h'
  refine ⟨r, ls ++ ls', rfl, hs, hc.fragment.trans hfrag, fun x hx => ?_, ?_⟩
  · rw [List.flatMap_append, List.mem_append]
    refine (htouch x hx).imp_right fun hx => ?_
    rcases hbr.touches hx with hx | ⟨u, hu, hux⟩
    · exact hx
    · rw [List.mem_singleton.1 hu, hbr.operandOf] at hux
      cases hux
  intro P k σ out m hP hsits hσ hm
  obtain ⟨hsits1, hsits2⟩ := Image.sits_append.1 hsits
  have hrun := hc.runs P k σ out m (fun _ => 0) hP hsits1 hσ hm (fun _ h => by cases h)
  have hbind : e.eval σ = (e.eval σ).bind some := by simp
  rw [hbind, width_append, ← Nat.add_assoc]
  refine hrun.bind fun w m1 _ hm1 hh1 => ?_
  obtain ⟨m2, hp, hm2, -, hreg⟩ :=
    runs_of_brings hP hD hc.sound List.mem_cons_self hbr hsits2 hm1 hh1
  rw [Function.update_self] at hreg
  exact ⟨m2, hp, hm2, hreg⟩

/-- A value is used up by one line. -/
theorem consume_code (hD : ∀ x, declared x → x.IsIdentifier) {e : Expr}
    (hnames : ∀ x ∈ e.names, declared x) {type : ExprType} (ht : e.type? t scope = some type) {f : Int → Line}
    {u : Unit} (hfits : ∀ r : Fin 3, (f r.val).IsCode) (hlabel : ∀ r, (f r).label? = none)
    (hdata : ∀ r, ∀ x ∈ (f r).dataNames, declared x)
    (hg : g.Sound declared [])
    (h : (do Source.consume (← e.lower) f : Gen Unit).Gives g u g') :
    ∃ (r : Fin 3) (ls : List Line), g'.Sound declared [] ∧
      Emits declared g (ls ++ [f r.val]) g' ∧ Balanced g (ls ++ [f r.val]) g' ∧
      Closed ls ∧ (∀ x ∈ e.names, x ∈ ls.flatMap Line.dataNames) ∧ Evaluates t scope e ls r := by
  simp only [Source.consume, Gen.gives_bind] at h
  obtain ⟨v, g1, h1, _, g2, h2, _, g3, h3, h4⟩ := h
  obtain ⟨r, ls, rfl, hs2, hfrag, htouch, heval⟩ := evaluates_code hD hnames ht hg h1 h2
  have a3 := Gen.put_code hs2 h3 (hfits r) (fun x hx => .inl (hdata _ x hx))
  obtain ⟨hs4, hl4, -⟩ := Gen.release_code a3.sound (by simp) h4
  have he := (hfrag.emits.trans a3.emits).trans (.of_listing_eq hl4)
  refine ⟨r, ls, hs4, by simpa using he, ?_, hfrag.closed, htouch, heval⟩
  intro x
  have hb := hfrag.balanced x
  have hnil : labels [f r.val] = [] := by simp [labels, hlabel]
  rw [hl4, a3.names, a3.spills, labels_append, hnil]
  simpa using hb

theorem closed_singleton {ls : List Line} {l : Line} (h : Closed ls) (hl : l.targets = []) :
    Closed (ls ++ [l]) :=
  h.append (by simp [Closed, hl])

theorem closed_ite {lc la lb : List Line} {r : Int} {other done : Text} (hc : Closed lc)
    (ha : Closed la) (hb : Closed lb) :
    Closed (lc ++ .branch .brez r other :: (la ++ .jump done :: .label other ::
      (lb ++ [.label done]))) := by
  intro l hl x hx
  simp only [List.mem_append, List.mem_cons, List.not_mem_nil, or_false] at hl
  simp only [labels_append, labels_cons_branch, labels_cons_jump, labels_cons_label, labels_nil,
    List.mem_append, List.mem_cons, List.not_mem_nil, or_false]
  rcases hl with hl | rfl | hl | rfl | rfl | hl | rfl
  · exact .inl (hc l hl x hx)
  · rw [targets_branch _ _ _ rfl] at hx
    exact .inr (.inr (.inl (List.mem_singleton.1 hx)))
  · exact .inr (.inl (ha l hl x hx))
  · exact .inr (.inr (.inr (.inr (List.mem_singleton.1 hx))))
  · cases hx
  · exact .inr (.inr (.inr (.inl (hb l hl x hx))))
  · cases hx

theorem closed_loop {lc ls : List Line} {r : Int} {again done : Text} (hc : Closed lc)
    (hs : Closed ls) :
    Closed (.label again :: (lc ++ .branch .brez r done :: (ls ++ [.jump again, .label done]))) := by
  intro l hl x hx
  simp only [List.mem_append, List.mem_cons, List.not_mem_nil, or_false] at hl
  simp only [labels_append, labels_cons_branch, labels_cons_jump, labels_cons_label, labels_nil,
    List.mem_append, List.mem_cons, List.not_mem_nil, or_false]
  rcases hl with rfl | hl | rfl | hl | rfl | rfl
  · cases hx
  · exact .inr (.inl (hc l hl x hx))
  · rw [targets_branch _ _ _ rfl] at hx
    exact .inr (.inr (.inr (List.mem_singleton.1 hx)))
  · exact .inr (.inr (.inl (hs l hl x hx)))
  · exact .inl (List.mem_singleton.1 hx)
  · cases hx

/-- Generation turns the statement into code for it, and the code uses all its variables. -/
def Coded (t : SymbolTable) (scope : Text) (declared : Text → Prop) (c : Stmt) : Prop :=
  ∀ ⦃g g' : Generator⦄ ⦃u : Unit⦄, g.Sound declared [] → c.lower.Gives g u g' →
    ∃ ls, g'.Sound declared [] ∧ Fragment declared g ls g' ∧
      (∀ x ∈ c.names, x ∈ ls.flatMap Line.dataNames) ∧ StmtCode t scope c ls

section

variable {a b s : Stmt} {c e : Expr} {x : Text} {type : ExprType}

theorem coded_seq (ha : Coded t scope declared a) (hb : Coded t scope declared b) :
    Coded t scope declared (.seq a b) := by
  intro g g' u hg h
  obtain ⟨_, g1, h1, h2⟩ := Gen.gives_bind.1 h
  obtain ⟨la, hs1, hf1, hx1, hc1⟩ := ha hg h1
  obtain ⟨lb, hs2, hf2, hx2, hc2⟩ := hb hs1 h2
  refine ⟨la ++ lb, hs2, hf1.trans hf2, fun x hx => ?_, .seq hc1 hc2⟩
  rw [List.flatMap_append, List.mem_append]
  exact (List.mem_append.1 hx).imp (hx1 x) (hx2 x)

theorem coded_assign (hD : ∀ x, declared x → x.IsIdentifier) (hdecl : declared x)
    (hne : ∀ y ∈ e.names, declared y) (he : e.type? t scope = some type) :
    Coded t scope declared (.assign x e) := by
  intro g g' u hg h
  have hdata : ∀ (r : Int), ∀ y ∈ (Line.move (.memory x) (.register r)).dataNames,
      declared y := by
    intro r y hy
    have hyx : y = x := by
      simpa [Line.dataNames, Line.move, signature, Operand.dataName?] using hy
    rw [hyx]
    exact hdecl
  have hfits : ∀ r : Fin 3, (Line.move (.memory x) (.register r.val)).IsCode := fun r =>
    ⟨by decide, .cons ⟨by decide, (hD x hdecl).isLabel⟩ (.cons (fits_register (by decide)) .nil)⟩
  obtain ⟨r, ls, hs, he, hb, hcl, hxe, hev⟩ := consume_code hD hne he hfits (fun _ => rfl) hdata hg h
  refine ⟨_, hs, ⟨he, hb, closed_singleton hcl (by simp)⟩, fun y hy => ?_, .assign hev⟩
  rw [List.flatMap_append, List.mem_append]
  rcases List.mem_cons.1 hy with rfl | hy
  · right
    simp [Line.dataNames, Line.move, signature, Operand.dataName?]
  · exact .inl (hxe y hy)

theorem coded_print (hD : ∀ x, declared x → x.IsIdentifier) (hnames : ∀ x ∈ e.names, declared x)
    (he : e.type? t scope = some type) : Coded t scope declared (.print e) := by
  intro g g' u hg h
  have hfits : ∀ r : Fin 3, (Line.unary .outb r.val).IsCode := fun r =>
    ⟨by decide, .cons (fits_register (by decide)) .nil⟩
  obtain ⟨r, ls, hs, he, hb, hcl, hxe, hev⟩ := consume_code hD hnames he hfits (fun _ => rfl)
    (fun _ _ h => by cases h) hg h
  refine ⟨_, hs, ⟨he, hb, closed_singleton hcl (targets_unary _ _ rfl)⟩, fun x hx => ?_, .print hev⟩
  rw [List.flatMap_append]
  exact List.mem_append_left _ (hxe x hx)

theorem coded_ite (hD : ∀ x, declared x → x.IsIdentifier) (hnc : ∀ x ∈ c.names, declared x)
    (htc : c.type? t scope = some type) (ha : Coded t scope declared a)
    (hb : Coded t scope declared b) : Coded t scope declared (.ite c a b) := by
  intro g g' u hg h
  simp only [Stmt.lower, Gen.gives_bind] at h
  obtain ⟨v, g1, h1, _, g2, h2, other, g3, h3, done, g4, h4, _, g5, h5, _, g6, h6, _, g7, h7, _, g8,
    h8, _, g9, h9, _, g10, h10, h11⟩ := h
  obtain ⟨r, lc, rfl, hs2, fc, hxc, hev⟩ := evaluates_code hD hnc htc hg h1 h2
  obtain ⟨hs3, he3, -, hgen3, hn3, hsp3⟩ := Gen.newLabel_code hs2 (by decide) h3
  obtain ⟨hs4, he4, -, hgen4, hn4, hsp4⟩ := Gen.newLabel_code hs3 (by decide) h4
  have a5 := Gen.put_branch_code hs4 (by decide) rfl hgen3.isLabel h5
  obtain ⟨hs6, hl6, -⟩ := Gen.release_code a5.sound (by simp) h6
  obtain ⟨la, hs7, fa, hxa, hca⟩ := ha hs6 h7
  have a8 := Gen.put_jump_code hs7 hgen4.isLabel h8
  have a9 := Gen.put_label_code a8.sound hgen3.isLabel h9
  obtain ⟨lb, hs10, fb, hxb, hcb⟩ := hb a9.sound h10
  have a11 := Gen.put_label_code hs10 hgen4.isLabel h11
  have he := fc.emits.trans (he3.trans (he4.trans (a5.emits.trans
    ((Emits.of_listing_eq hl6).trans (fa.emits.trans (a8.emits.trans (a9.emits.trans
    (fb.emits.trans a11.emits))))))))
  refine ⟨_, a11.sound, ⟨by simpa using he, ?_, closed_ite fc.closed fa.closed fb.closed⟩, ?_,
    .ite hev hca hcb⟩
  · intro x
    have hc := fc.balanced x
    have ha := fa.balanced x
    have hb := fb.balanced x
    rw [hl6, a5.names, a5.spills, hn4, hsp4, hn3, hsp3] at ha
    rw [a9.names, a9.spills, a8.names, a8.spills] at hb
    rw [a11.names, a11.spills]
    simp only [labels_append, labels_cons_branch, labels_cons_jump, labels_cons_label, labels_nil,
      Array.toList_push, List.count_append, List.count_cons, List.count_nil] at ha ⊢
    omega
  · intro x hx
    have hx' := (List.mem_append.1 hx).imp (hxc x)
      fun h => (List.mem_append.1 h).imp (hxa x) (hxb x)
    simp only [List.flatMap_append, List.flatMap_cons, List.mem_append]
    tauto

theorem coded_loop (hD : ∀ x, declared x → x.IsIdentifier) (hnc : ∀ x ∈ c.names, declared x)
    (htc : c.type? t scope = some type) (hs : Coded t scope declared s) :
    Coded t scope declared (.loop c s) := by
  intro g g' u hg h
  simp only [Stmt.lower, Gen.gives_bind] at h
  obtain ⟨again, g1, h1, done, g2, h2, _, g3, h3, v, g4, h4, _, g7, h5, _, g8, h8, _, g9, h9, h10⟩ :=
    h
  obtain ⟨hs1, he1, -, hgen1, hn1, hsp1⟩ := Gen.newLabel_code hg (by decide) h1
  obtain ⟨hs2, he2, -, hgen2, hn2, hsp2⟩ := Gen.newLabel_code hs1 (by decide) h2
  have a3 := Gen.put_label_code hs2 hgen1.isLabel h3
  have hfits : ∀ r : Fin 3, (Line.branch .brez r.val done).IsCode := fun r =>
    ⟨by decide, .cons (fits_register (by decide)) (.cons ⟨by decide, hgen2.isLabel⟩ .nil)⟩
  obtain ⟨r, lc, hs7, he7, hb7, hcl, hxc, hev⟩ := consume_code hD hnc htc hfits (fun _ => rfl)
    (fun _ _ h => by cases h) a3.sound (Gen.gives_bind.2 ⟨v, g4, h4, h5⟩)
  obtain ⟨ls, hs8, fs, hxs, hcs⟩ := hs hs7 h8
  have a9 := Gen.put_jump_code hs8 hgen1.isLabel h9
  have a10 := Gen.put_label_code a9.sound hgen2.isLabel h10
  have he := he1.trans (he2.trans (a3.emits.trans (he7.trans (fs.emits.trans
    (a9.emits.trans a10.emits)))))
  refine ⟨_, a10.sound, ⟨by simpa using he, ?_, closed_loop hcl fs.closed⟩, ?_, .loop hev hcs⟩
  · intro x
    have hc := hb7 x
    have hb := fs.balanced x
    rw [a3.names, a3.spills, hn2, hsp2, hn1, hsp1] at hc
    rw [a10.names, a10.spills, a9.names, a9.spills]
    simp only [labels_append, labels_cons_branch, labels_cons_jump, labels_cons_label, labels_nil,
      Array.toList_push, List.count_append, List.count_cons, List.count_nil] at hc ⊢
    omega
  · intro x hx
    have hx' := (List.mem_append.1 hx).imp (hxc x) (hxs x)
    simp only [List.flatMap_append, List.flatMap_cons, List.mem_append]
    tauto

end

/-- The code of a statement that keeps the rules on types. -/
theorem stmt_code (hD : ∀ x, declared x → x.IsIdentifier) {c : Stmt}
    (hnames : ∀ x ∈ c.names, declared x) (ht : c.Typed t program scope) :
    Coded t scope declared c := by
  induction c with
  | skip | call =>
    intro g g' u hg h
    obtain ⟨-, rfl⟩ := Gen.gives_pure.1 h
    exact ⟨[], hg, .refl g, fun _ hx => hx, by constructor⟩
  | seq a b iha ihb =>
    obtain ⟨hna, hnb⟩ := List.forall_mem_append.1 hnames
    exact coded_seq (iha hna ht.1) (ihb hnb ht.2)
  | assign x e =>
    obtain ⟨type, -, he⟩ := ht
    obtain ⟨hdecl, hne⟩ := List.forall_mem_cons.1 hnames
    exact coded_assign hD hdecl hne he
  | print e =>
    obtain ⟨type, he, -⟩ := ht
    exact coded_print hD hnames he
  | ite c a b iha ihb =>
    obtain ⟨htc, hta, htb⟩ := ht
    obtain ⟨hnc, hnab⟩ := List.forall_mem_append.1 hnames
    obtain ⟨hna, hnb⟩ := List.forall_mem_append.1 hnab
    exact coded_ite hD hnc htc (iha hna hta) (ihb hnb htb)
  | loop c s ih =>
    obtain ⟨htc, hts⟩ := ht
    obtain ⟨hnc, hns⟩ := List.forall_mem_append.1 hnames
    exact coded_loop hD hnc htc (ih hns hts)

end OnePass.Machine

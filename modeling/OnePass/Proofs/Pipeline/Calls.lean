import OnePass.Proofs.Pipeline.Isolation
import OnePass.Proofs.Pipeline.StaticSemantics

namespace OnePass

open Source

namespace SymbolTable

/-- In this scope the callee is found as a procedure of the program, by both searches. -/
def Resolves (t : SymbolTable) (program scope f : Text) : Prop :=
  ∃ y, t.find? f scope = some y ∧ t.find? f program = some y ∧ y.type = .procedureName

/-- In this scope the callee is found as a variable, and then as a procedure of the program. -/
def Masks (t : SymbolTable) (program scope f : Text) : Prop :=
  ∃ y z, t.find? f scope = some y ∧ y.type.isScalar = true ∧
    t.find? f program = some z ∧ z.type = .procedureName

theorem find?_of_mem {Γ : List Symbol} (h : Distinct Γ) {y : Symbol} (hy : y ∈ Γ) :
    find? ⟨Γ⟩ y.id y.scope = some y := by
  obtain ⟨z, hz⟩ : ∃ z, find? ⟨Γ⟩ y.id y.scope = some z :=
    Option.isSome_iff_exists.1 (declared_of_declared ⟨y, hy, rfl, rfl, rfl⟩)
  have hkey := List.find?_some hz
  simp only [Bool.and_eq_true, beq_iff_eq] at hkey
  rw [hz, h.eq_of_key (List.mem_of_find?_eq_some hz) hy hkey.1 hkey.2]

end SymbolTable

namespace Source

/-- The procedures that a statement calls. -/
def Stmt.calls : Stmt → List Text
  | skip => []
  | seq a b => a.calls ++ b.calls
  | assign _ _ => []
  | call f _ => [f]
  | ite _ a b => a.calls ++ b.calls
  | loop _ s => s.calls
  | print _ => []

/-- All variables and formal parameters have a type of values. -/
def Program.Scalar (p : Program) : Prop :=
  (∀ g ∈ p.vars, g.type.isScalar = true) ∧
    ∀ q ∈ p.procedures, ∀ g ∈ q.formals ++ q.locals, g.type.isScalar = true

variable {Γ : List Symbol} {program scope f : Text} {p : Program} {q : Procedure} {ts : List Token}

theorem Stmt.Checks.calls {c : Stmt} (h : c.Checks Γ program scope) (hf : f ∈ c.calls) :
    (∃ τ, Declared Γ scope f τ) ∧ Declared Γ program f .procedureName := by
  induction h with
  | skip | assign _ _ | print _ _ => cases hf
  | seq _ _ iha ihb | ite _ _ _ iha ihb =>
    rcases List.mem_append.1 hf with hf | hf
    · exact iha hf
    · exact ihb hf
  | @call g es τ hp hproc _ =>
    rw [List.mem_singleton.1 hf]
    exact ⟨⟨τ, hp⟩, hproc⟩
  | loop _ _ ih => exact ih hf

theorem ArgsDerive.isScalar {gs : List Group} (h : ArgsDerive ts gs) :
    ∀ g ∈ gs, g.type.isScalar = true := by
  cases h with
  | none => simp
  | some h =>
    induction h with
    | last hg => simpa using hg.isScalar
    | more hg _ _ ih => exact List.forall_mem_cons.2 ⟨hg.isScalar, ih⟩

theorem ProgramDerives.scalar (h : ProgramDerives ts p) : p.Scalar := by
  cases h with
  | mk _ _ _ hv hps _ _ =>
    refine ⟨hv.isScalar, ?_⟩
    clear hv
    induction hps with
    | none => simp
    | more hq _ _ ih =>
      refine List.forall_mem_cons.2 ⟨?_, ih⟩
      cases hq with
      | mk _ _ _ ha _ hl _ =>
        intro g hg
        rcases List.mem_append.1 hg with hg | hg
        · exact ha.isScalar g hg
        · exact hl.isScalar g hg

theorem type_formalEntries {i : Nat} {gs : List Group} {y : Symbol}
    (h : y ∈ formalEntries scope i gs) : ∃ g ∈ gs, y.type = g.type := by
  induction gs generalizing i with
  | nil => cases h
  | cons g gs ih =>
    rcases List.mem_append.1 h with h | h
    · exact ⟨g, List.mem_cons_self, (mem_numbered h).2⟩
    · obtain ⟨g', hg', htype⟩ := ih h
      exact ⟨g', List.mem_cons_of_mem _ hg', htype⟩

/-- Beside the program itself, procedures are declared in its scope, and variables. -/
theorem Program.entry_type (h : p.Scalar) {y : Symbol} (hy : y ∈ p.entries) :
    y.scope = Compiler.externalScope ∨ y.type.isScalar = true ∨
      y.type = .procedureName ∧ y.scope = p.name ∧ y.id ∈ p.procedures.map Procedure.name := by
  rcases List.mem_cons.1 hy with rfl | hy
  · exact .inl rfl
  rcases List.mem_append.1 hy with hy | hy
  · obtain ⟨-, g, hg, htype⟩ := mem_groupEntries hy
    exact .inr (.inl (by rw [htype]; exact h.1 g hg))
  obtain ⟨q, hq, hy⟩ := List.mem_flatMap.1 hy
  rcases List.mem_cons.1 hy with rfl | hy
  · exact .inr (.inr ⟨rfl, rfl, List.mem_map_of_mem hq⟩)
  rcases List.mem_append.1 hy with hy | hy
  · obtain ⟨g, hg, htype⟩ := type_formalEntries hy
    exact .inr (.inl (by rw [htype]; exact h.2 q hq g (List.mem_append_left _ hg)))
  · obtain ⟨-, g, hg, htype⟩ := mem_groupEntries hy
    exact .inr (.inl (by rw [htype]; exact h.2 q hq g (List.mem_append_right _ hg)))

theorem Program.Scalar.visible {qs : List Procedure} (h : p.Scalar) (hqs : qs ⊆ p.procedures) :
    Program.Scalar { p with procedures := qs } :=
  ⟨h.1, fun q hq => h.2 q (hqs hq)⟩

/-- What is called is one of the procedures that the call sees. -/
theorem Program.Scalar.callee {qs : List Procedure} (h : p.Scalar) (hqs : qs ⊆ p.procedures)
    (hp : p.name ≠ Compiler.externalScope) (hf : Declared (p.visible qs) p.name f .procedureName) :
    f ∈ qs.map Procedure.name := by
  obtain ⟨y, hy, rfl, hscope, htype⟩ := hf
  rcases Program.entry_type (h.visible hqs) hy with hout | hscalar | ⟨-, -, hname⟩
  · exact absurd (hscope.symm.trans hout) hp
  · rw [htype] at hscalar
    cases hscalar
  · exact hname

variable {before after : List Procedure}

theorem Program.procedures_split (hq : p.procedures = before ++ q :: after) :
    p.procedures = before ++ [q] ++ after := by
  rw [hq, List.append_assoc, List.singleton_append]

theorem Program.seen_subset (hq : p.procedures = before ++ q :: after) :
    before ++ [q] ⊆ p.procedures := by
  rw [Program.procedures_split hq]
  exact List.subset_append_left _ _

/-- A procedure sees a part of all declarations. -/
theorem Program.visible_subset (hq : p.procedures = before ++ q :: after) :
    p.visible (before ++ [q]) ⊆ p.entries := by
  have hall : p.entries = p.visible (before ++ [q]) ++ after.flatMap (Procedure.entries p.name) := by
    rw [← Program.visible_append, ← Program.procedures_split hq]
    rfl
  rw [hall]
  exact List.subset_append_left _ _

/-- A call in the main block makes both searches in one scope. -/
theorem Program.WellFormed.main_calls (h : p.WellFormed) (hf : f ∈ p.body.calls) :
    SymbolTable.Resolves ⟨p.entries⟩ p.name p.name f := by
  obtain ⟨-, y, hy, rfl, hscope, htype⟩ := h.main.calls hf
  have hfind := SymbolTable.find?_of_mem h.distinct hy
  rw [hscope] at hfind
  exact ⟨y, hfind, hfind, htype⟩

/-- A call in the body of a procedure. -/
theorem Program.WellFormed.body_calls (h : p.WellFormed) (hs : p.Scalar)
    (hp : p.name ≠ Compiler.externalScope) (hq : p.procedures = before ++ q :: after)
    (hout : q.name ≠ Compiler.externalScope) (hf : f ∈ q.body.calls) :
    f ∈ (before ++ [q]).map Procedure.name ∧
      (q.name = p.name ∧ SymbolTable.Resolves ⟨p.entries⟩ p.name q.name f ∨
        q.name ≠ p.name ∧ f ∈ q.own ∧ SymbolTable.Masks ⟨p.entries⟩ p.name q.name f) := by
  have hmem : q ∈ p.procedures := by simp [hq]
  obtain ⟨⟨τ, y, hy, hyid, hyscope, -⟩, hproc⟩ := (h.procedures before q after hq).calls hf
  refine ⟨hs.callee (Program.seen_subset hq) hp hproc, ?_⟩
  obtain ⟨z, hz, rfl, hzscope, hztype⟩ := hproc
  have hyall := Program.visible_subset hq hy
  have hyfind := SymbolTable.find?_of_mem h.distinct hyall
  have hzfind := SymbolTable.find?_of_mem h.distinct (Program.visible_subset hq hz)
  rw [hyid, hyscope] at hyfind
  rw [hzscope] at hzfind
  by_cases hname : q.name = p.name
  · refine .inl ⟨hname, z, ?_, hzfind, hztype⟩
    rw [hname]
    exact hzfind
  -- in a scope of its own the procedure has nothing but its own names
  refine .inr ⟨hname, ?_, y, z, hyfind, ?_, hzfind, hztype⟩
  · rcases Program.owner hyall with hext | ⟨hprogram, -⟩ | ⟨r, hr, hrname, hown⟩
    · exact absurd (hyscope.symm.trans hext) hout
    · exact absurd (hyscope.symm.trans hprogram) hname
    · have hsame : q = r := Program.procedure_unique h.distinct hmem hr (hyscope.symm.trans hrname)
      rw [← hyid, hsame]
      exact hown
  · rcases Program.entry_type hs hyall with hext | hscalar | ⟨-, hprogram, -⟩
    · exact absurd (hyscope.symm.trans hext) hout
    · exact hscalar
    · exact absurd (hyscope.symm.trans hprogram) hname

end Source

namespace Compiler

variable {trace : Bool} {source : Text}

/-- The calls of an accepted program. In the main block the callee is found as a procedure. In the body of a
procedure only that procedure and those before it can be called, and only if the procedure shares the scope of
the program, or has a formal parameter or a local variable with the name of the callee, which is what the search
in its scope finds. Where no name is used so, no procedure calls another or itself. -/
theorem calls_resolve (h : (compile { trace } source).outcome = .success) :
    ∃ p, (∀ p', Denotes source p' ↔ p' = p) ∧
      (∀ f ∈ p.body.calls, f ∈ p.procedures.map Procedure.name ∧
        (compile { trace } source).symbols.Resolves p.name p.name f) ∧
      (∀ before q after, p.procedures = before ++ q :: after → ∀ f ∈ q.body.calls,
        f ∈ (before ++ [q]).map Procedure.name ∧
          (q.name = p.name ∧ (compile { trace } source).symbols.Resolves p.name q.name f ∨
            q.name ≠ p.name ∧ f ∈ q.own ∧
              (compile { trace } source).symbols.Masks p.name q.name f)) ∧
      (p.namesakes = [] → (∀ q ∈ p.procedures, ∀ r ∈ p.procedures, r.name ∉ q.own) →
        ∀ q ∈ p.procedures, q.body.calls = []) := by
  obtain ⟨hparse, hdone⟩ := parse_of_success h
  obtain ⟨ts, p, g, e, hlex, hread⟩ := parse_sound hparse hdone
  have hwell := (success_iff hlex hread.derives).1 h
  have hscalar := hread.derives.scalar
  have hp : Denotes source p := ⟨ts, e, hlex, hread.derives⟩
  have hsymbols : (compile { trace } source).symbols = ⟨p.entries⟩ := hread.symbols
  have hexternal : ∀ {x : Text}, x.IsIdentifier → x ≠ externalScope := by
    rintro x hx rfl
    exact externalScope_not_isIdentifier hx
  have hbody : ∀ before q after, p.procedures = before ++ q :: after → ∀ f ∈ q.body.calls,
      f ∈ (before ++ [q]).map Procedure.name ∧
        (q.name = p.name ∧ SymbolTable.Resolves ⟨p.entries⟩ p.name q.name f ∨
          q.name ≠ p.name ∧ f ∈ q.own ∧ SymbolTable.Masks ⟨p.entries⟩ p.name q.name f) := by
    intro before q after hq f hf
    have hout := hexternal (hread.procedure_isIdentifier (q := q) (by simp [hq]))
    exact hwell.body_calls hscalar (hexternal hread.name_isIdentifier) hq hout hf
  rw [hsymbols]
  refine ⟨p, fun p' => ⟨fun hp' => hp'.unique hp, fun heq => heq ▸ hp⟩, fun f hf => ?_, hbody, ?_⟩
  · have hcallee := (hwell.main.calls hf).2
    exact ⟨hscalar.callee (List.Subset.refl _) (hexternal hread.name_isIdentifier) hcallee,
      hwell.main_calls hf⟩
  · intro hnamesakes hown q hq
    rw [List.eq_nil_iff_forall_not_mem]
    intro f hf
    obtain ⟨before, after, hsplit⟩ := List.append_of_mem hq
    obtain ⟨hcallee, ⟨hname, -⟩ | ⟨-, hmine, -⟩⟩ := hbody before q after hsplit f hf
    · have hmem : q ∈ p.namesakes := List.mem_filter.2 ⟨hq, decide_eq_true hname⟩
      rw [hnamesakes] at hmem
      cases hmem
    · obtain ⟨r, hr, rfl⟩ := List.mem_map.1 hcallee
      exact hown q hq r (Program.seen_subset hsplit hr) hmine

/-- A procedure with a formal parameter that is called like the procedure, which calls itself. -/
def selfCall : Text := "program p; procedure f(f: int) begin f(1); end; begin f(2); end;"

theorem compile_selfCall :
    (compile {} selfCall).outcome = .success ∧
      (compile {} selfCall).symbols.find? "f" "f" = some ⟨"f", "f", 0, .int⟩ ∧
      (compile {} selfCall).symbols.find? "f" "p" = some ⟨"f", "p", noPosition, .procedureName⟩ := by
  decide +kernel

theorem calls_resolve_selfCall :
    (compile {} selfCall).outcome = .success ∧
    ∃ p, (∀ p', Denotes selfCall p' ↔ p' = p) ∧
      (∀ f ∈ p.body.calls, f ∈ p.procedures.map Procedure.name ∧
        (compile {} selfCall).symbols.Resolves p.name p.name f) ∧
      (∀ before q after, p.procedures = before ++ q :: after → ∀ f ∈ q.body.calls,
        f ∈ (before ++ [q]).map Procedure.name ∧
          (q.name = p.name ∧ (compile {} selfCall).symbols.Resolves p.name q.name f ∨
            q.name ≠ p.name ∧ f ∈ q.own ∧ (compile {} selfCall).symbols.Masks p.name q.name f)) ∧
      (p.namesakes = [] → (∀ q ∈ p.procedures, ∀ r ∈ p.procedures, r.name ∉ q.own) →
        ∀ q ∈ p.procedures, q.body.calls = []) :=
  ⟨compile_selfCall.1, calls_resolve compile_selfCall.1⟩

/-- A recursive call is accepted. The entry that makes the callee declared is the formal parameter. -/
theorem selfCall_accepted :
    (compile {} selfCall).outcome = .success ∧
      (compile {} selfCall).symbols.find? "f" "f" = some ⟨"f", "f", 0, .int⟩ ∧
      (compile {} selfCall).symbols.find? "f" "p" = some ⟨"f", "p", noPosition, .procedureName⟩ ∧
      ∃ p, Denotes selfCall p ∧ p.name = "p" ∧ ∃ q ∈ p.procedures, q.name = "f" ∧ q.body.calls = ["f"] := by
  let keyword (a : Attr) (col : Nat) : Token := ⟨.keyword, a, Text.ofChars a.spelling, 1, col⟩
  let punct (a : Attr) (col : Nat) : Token := ⟨.punct, a, Text.ofChars a.spelling, 1, col⟩
  let name (x : Text) (col : Nat) : Token := ⟨.identifier, .none, x, 1, col⟩
  have hformals : ArgsDerive ([name "f" 24] ++ [punct .colon 25, keyword .intKw 27]) [⟨["f"], .int⟩] :=
    .some (.last (.mk (.last rfl) rfl (.int rfl)))
  have hcall : ∀ (x : Text) (c : Nat), StmtForm.block.Derives (keyword .beginKw c ::
      (((name "f" (c + 6) :: punct .leftParen (c + 7) :: ([⟨.number, .none, x, 1, c + 8⟩] ++
        [punct .rightParen (c + 9)])) ++ punct .semicolon (c + 10) :: []) ++ [keyword .endKw (c + 12)]))
      (.seq (.call "f" [.num (Nat.ofDigitChars 10 x.chars 0)]) .skip) := by
    intro x c
    have hactual : ExprForm.expr.Derives [⟨.number, .none, x, 1, c + 8⟩]
        (.num (Nat.ofDigitChars 10 x.chars 0)) :=
      .plain (.simple (.term (.number rfl) .termDone) .simpleDone)
    exact .block rfl (.first (.call rfl rfl (.some (.last hactual)) rfl) rfl .done) rfl
  have hprocedure := ProcedureDerives.mk (p := keyword .procedureKw 12) (n := name "f" 22)
    (l := punct .leftParen 23) (r := punct .rightParen 30) rfl rfl rfl hformals rfl .none (hcall "1" 32)
  have hprogram := ProgramDerives.mk (p := keyword .programKw 1) (n := name "p" 9)
    (s := punct .semicolon 10) (e := punct .semicolon 64) rfl rfl rfl .none
    (.more (t := punct .semicolon 47) hprocedure rfl .none) (hcall "2" 49) rfl
  refine ⟨compile_selfCall.1, compile_selfCall.2.1, compile_selfCall.2.2, _,
    ⟨_, ⟨.eof, .none, [], 1, 65⟩, ?_, hprogram⟩, rfl, _, List.mem_cons_self, rfl, rfl⟩
  decide +kernel

end Compiler

end OnePass

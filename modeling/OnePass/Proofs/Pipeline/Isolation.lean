import OnePass.Proofs.Pipeline.Acceptance

namespace OnePass

open Assembly Source

namespace Source

/-- The identifiers that a statement reads or writes, in actual parameters too. -/
def Stmt.mentions : Stmt → List Text
  | skip => []
  | seq a b => a.mentions ++ b.mentions
  | assign x e => x :: e.names
  | call _ es => es.flatMap Expr.names
  | ite c a b => c.names ++ (a.mentions ++ b.mentions)
  | loop c s => c.names ++ s.mentions
  | print e => e.names

/-- The formal parameters and the local variables. -/
def Procedure.own (q : Procedure) : List Text :=
  q.formals.flatMap Group.names ++ q.locals.flatMap Group.names

/-- The variables and the procedures of the program. -/
def Program.topLevel (p : Program) : List Text :=
  p.vars.flatMap Group.names ++ p.procedures.map Procedure.name

/-- The procedures that are called like the program. -/
def Program.namesakes (p : Program) : List Procedure := p.procedures.filter (·.name = p.name)

variable {t : SymbolTable} {program scope x : Text}

theorem ActualsTyped.declared {callee : Text} {i : Int} {es : List Expr}
    (h : ActualsTyped t scope callee i es) (hx : x ∈ es.flatMap Expr.names) :
    t.declared x scope = true := by
  induction es generalizing i with
  | nil => cases hx
  | cons e es ih =>
    rw [List.flatMap_cons, List.mem_append] at hx
    rcases hx with hx | hx
    · exact Expr.declared_of_type? h.1 hx
    · exact ih h.2 hx

theorem Stmt.Typed.mentioned {c : Stmt} (h : c.Typed t program scope) (hx : x ∈ c.mentions) :
    t.declared x scope = true := by
  induction c with
  | skip => cases hx
  | seq a b iha ihb =>
    rcases List.mem_append.1 hx with hx | hx
    · exact iha h.1 hx
    · exact ihb h.2 hx
  | assign y e => exact h.declared hx
  | call f es => exact h.2.2.declared hx
  | ite c a b iha ihb =>
    rcases List.mem_append.1 hx with hx | hx
    · exact Expr.declared_of_type? h.1 hx
    · rcases List.mem_append.1 hx with hx | hx
      · exact iha h.2.1 hx
      · exact ihb h.2.2 hx
  | loop c s ih =>
    rcases List.mem_append.1 hx with hx | hx
    · exact Expr.declared_of_type? h.1 hx
    · exact ih h.2 hx
  | print e => exact h.declared hx

/-- Every entry belongs to the outside, to the program or to a procedure. -/
theorem Program.owner {p : Program} {y : Symbol} (h : y ∈ p.entries) :
    y.scope = Compiler.externalScope ∨ (y.scope = p.name ∧ y.id ∈ p.topLevel) ∨
      ∃ q ∈ p.procedures, y.scope = q.name ∧ y.id ∈ q.own := by
  rcases List.mem_cons.1 h with rfl | h
  · exact .inl rfl
  rcases List.mem_append.1 h with h | h
  · obtain ⟨hscope, hid⟩ := scope_groupEntries h
    exact .inr (.inl ⟨hscope, List.mem_append_left _ hid⟩)
  obtain ⟨q, hq, h⟩ := List.mem_flatMap.1 h
  rcases List.mem_cons.1 h with rfl | h
  · exact .inr (.inl ⟨rfl, List.mem_append_right _ (List.mem_map_of_mem hq)⟩)
  rcases List.mem_append.1 h with h | h
  · obtain ⟨hscope, hid⟩ := scope_formalEntries h
    exact .inr (.inr ⟨q, hq, hscope, List.mem_append_left _ hid⟩)
  · obtain ⟨hscope, hid⟩ := scope_groupEntries h
    exact .inr (.inr ⟨q, hq, hscope, List.mem_append_right _ hid⟩)

/-- A procedure body is checked against a part of the whole table. -/
theorem ProceduresTyped.body_typed {before : List Symbol} {ps : List Procedure} {q : Procedure}
    (h : ProceduresTyped program before ps) (hq : q ∈ ps) :
    ∃ seen, seen ⊆ before ++ ps.flatMap (Procedure.entries program) ∧
      q.body.Typed ⟨seen⟩ program q.name := by
  induction ps generalizing before with
  | nil => cases hq
  | cons r ps ih =>
    rw [List.flatMap_cons, ← List.append_assoc]
    rcases List.mem_cons.1 hq with rfl | hq
    · exact ⟨_, List.subset_append_left _ _, h.1⟩
    · exact ih h.2 hq

end Source

namespace SymbolTable

theorem storage_append (a b : List Symbol) (scope : Text) :
    storage ⟨a ++ b⟩ scope = storage ⟨a⟩ scope ++ storage ⟨b⟩ scope := by
  simp [storage]

theorem storage_flatMap {α : Type} (xs : List α) (f : α → List Symbol) (scope : Text) :
    storage ⟨xs.flatMap f⟩ scope = xs.flatMap fun a => storage ⟨f a⟩ scope := by
  induction xs with
  | nil => rfl
  | cons a xs ih => rw [List.flatMap_cons, storage_append, ih, List.flatMap_cons]

/-- Of variables all get words, but only in the scope that is asked for. -/
theorem storage_groups {gs : List Group} (h : ∀ g ∈ gs, g.type.isScalar = true) (own scope : Text) :
    storage ⟨gs.flatMap (Group.entries own)⟩ scope =
      if own = scope then gs.flatMap Group.names else [] := by
  by_cases hscope : own = scope
  · have hkeep : (gs.flatMap (Group.entries own)).filter (fun s => s.scope == scope &&
        s.position == noPosition && s.type.isScalar) = gs.flatMap (Group.entries own) := by
      rw [List.filter_eq_self]
      intro y hy
      obtain ⟨hpos, g, hg, htype⟩ := mem_groupEntries hy
      simp [(scope_groupEntries hy).1, hscope, hpos, htype, h g hg]
    rw [storage, hkeep, if_pos hscope, List.map_flatMap]
    exact congrArg (List.flatMap · gs) (funext fun g => map_id_numbered _ _ _ _ _)
  · have hdrop : (gs.flatMap (Group.entries own)).filter (fun s => s.scope == scope &&
        s.position == noPosition && s.type.isScalar) = [] := by
      rw [List.filter_eq_nil_iff]
      intro y hy
      simp [(scope_groupEntries hy).1, hscope]
    rw [storage, hdrop, if_neg hscope]
    rfl

theorem storage_formals (own scope : Text) (i : Nat) (gs : List Group) :
    storage ⟨formalEntries own i gs⟩ scope = [] := by
  rw [List.eq_nil_iff_forall_not_mem]
  intro x hx
  obtain ⟨y, hy, -, -, hpos, -⟩ := mem_storage.1 hx
  have hnonneg := mem_formalEntries hy
  rw [hpos] at hnonneg
  exact absurd hnonneg (by decide)

theorem storage_procedure {q : Procedure} (h : ∀ g ∈ q.locals, g.type.isScalar = true)
    (program : Text) :
    storage ⟨q.entries program⟩ program =
      if q.name = program then q.locals.flatMap Group.names else [] := by
  have hname : storage ⟨[{ id := q.name, scope := program, type := .procedureName }]⟩ program = [] := by
    simp [storage, ExprType.isScalar]
  rw [Procedure.entries, ← List.singleton_append, storage_append, storage_append, hname,
    storage_formals, storage_groups h]
  rfl

end SymbolTable

namespace Source

/-- The words of data of a program: its variables, then the locals of a namesake. -/
theorem ProgramDerives.storage {ts : List Token} {p : Program} (h : ProgramDerives ts p) :
    SymbolTable.storage ⟨p.entries⟩ p.name =
      p.vars.flatMap Group.names ++ p.namesakes.flatMap fun q => q.locals.flatMap Group.names := by
  have hscalar : (∀ g ∈ p.vars, g.type.isScalar = true) ∧
      ∀ q ∈ p.procedures, ∀ g ∈ q.locals, g.type.isScalar = true := by
    cases h with
    | mk _ _ _ hv hps _ _ => exact ⟨hv.isScalar, hps.isScalar⟩
  have hname : SymbolTable.storage
      ⟨[{ id := p.name, scope := Compiler.externalScope, type := .programName }]⟩ p.name = [] := by
    simp [SymbolTable.storage, ExprType.isScalar]
  have hprocedures : ∀ ps : List Procedure, (∀ q ∈ ps, ∀ g ∈ q.locals, g.type.isScalar = true) →
      ps.flatMap (fun q => SymbolTable.storage ⟨q.entries p.name⟩ p.name) =
        (ps.filter (·.name = p.name)).flatMap fun q => q.locals.flatMap Group.names := by
    intro ps hps
    induction ps with
    | nil => rfl
    | cons q ps ih =>
      rw [List.forall_mem_cons] at hps
      rw [List.flatMap_cons, ih hps.2, SymbolTable.storage_procedure hps.1]
      by_cases hq : q.name = p.name
      · simp [hq]
      · simp [hq]
  rw [Program.entries, ← List.singleton_append, SymbolTable.storage_append,
    SymbolTable.storage_append, hname, SymbolTable.storage_groups hscalar.1, if_pos rfl,
    SymbolTable.storage_flatMap, hprocedures _ hscalar.2]
  rfl

end Source

namespace Compiler

theorem externalScope_not_isIdentifier : ¬Text.IsIdentifier externalScope :=
  entry_not_isIdentifier (Text.ofString "EXTERNAL")

namespace Pass.HasRead

variable {s : State} {ts : List Token} {p : Program} {g : Generator}

theorem name_isIdentifier (h : HasRead s ts p g) : p.name.IsIdentifier :=
  h.valid.program_name h.symbols

theorem valid_entries (h : HasRead s ts p g) : SymbolTable.Valid ⟨p.entries⟩ := by
  rw [← h.symbols]
  exact h.valid

theorem procedure_isIdentifier (h : HasRead s ts p g) {q : Procedure} (hq : q ∈ p.procedures) :
    q.name.IsIdentifier := by
  refine h.valid_entries.named { id := q.name, scope := p.name, type := .procedureName } ?_
  refine List.mem_cons_of_mem _ (List.mem_append_right _ ?_)
  exact List.mem_flatMap.2 ⟨q, hq, List.mem_cons_self⟩

/-- What the main block sees. -/
theorem mem_of_mentions (h : HasRead s ts p g) {x : Text} (hx : x ∈ p.body.mentions) :
    x ∈ p.topLevel ∨ ∃ q ∈ p.namesakes, x ∈ q.own := by
  have hdecl := h.typed.mentioned hx
  rw [h.symbols] at hdecl
  obtain ⟨y, hy, rfl, hscope⟩ := SymbolTable.mem_declared.1 hdecl
  rcases Program.owner hy with hout | ⟨-, htop⟩ | ⟨q, hq, hname, hown⟩
  · have hid := h.name_isIdentifier
    rw [← hscope, hout] at hid
    exact absurd hid externalScope_not_isIdentifier
  · exact .inl htop
  · refine .inr ⟨q, List.mem_filter.2 ⟨hq, ?_⟩, hown⟩
    rw [← hname, hscope]
    exact decide_eq_true rfl

/-- What the body of a procedure sees. -/
theorem mem_of_procedure_mentions (h : HasRead s ts p g) {q : Procedure} (hq : q ∈ p.procedures)
    {x : Text} (hx : x ∈ q.body.mentions) :
    x ∈ q.own ∨ q ∈ p.namesakes ∧ x ∈ p.topLevel := by
  obtain ⟨seen, hseen, htyped⟩ := h.procedures.body_typed hq
  obtain ⟨y, hy, rfl, hscope⟩ := SymbolTable.mem_declared.1 (htyped.mentioned hx)
  have hentry : y ∈ p.entries := by
    have hmem := hseen hy
    rwa [List.cons_append] at hmem
  rcases Program.owner hentry with hout | ⟨hprogram, htop⟩ | ⟨r, hr, hname, hown⟩
  · have hid := h.procedure_isIdentifier hq
    rw [← hscope, hout] at hid
    exact absurd hid externalScope_not_isIdentifier
  · refine .inr ⟨List.mem_filter.2 ⟨hq, ?_⟩, htop⟩
    rw [← hscope, hprogram]
    exact decide_eq_true rfl
  · have hsame : q = r := Program.procedure_unique h.valid_entries.distinct hq hr (hscope.symm.trans hname)
    exact .inl (hsame ▸ hown)

/-- At most one procedure is called like the program. -/
theorem namesakes_length (h : HasRead s ts p g) : p.namesakes.length ≤ 1 := by
  have hnames : (p.namesakes.map Procedure.name).Nodup :=
    (Program.procedures_nodup h.valid_entries.distinct).sublist (List.filter_sublist.map _)
  have hsame : p.namesakes.map Procedure.name = List.replicate p.namesakes.length p.name := by
    rw [List.eq_replicate_iff]
    refine ⟨List.length_map _, fun x hx => ?_⟩
    obtain ⟨q, hq, rfl⟩ := List.mem_map.1 hx
    exact of_decide_eq_true (List.mem_filter.1 hq).2
  rw [hsame] at hnames
  exact List.nodup_replicate.1 hnames

end Pass.HasRead

variable {trace : Bool} {source : Text}

/-- What a block of an accepted program sees, and what gets a word of data. A procedure sees its own
names and the main block sees those of the program, except that at most one procedure has the name of
the program and shares its scope. -/
theorem compile_isolates (h : (compile { trace } source).outcome = .success) :
    ∃ p, (∀ p', Denotes source p' ↔ p' = p) ∧ p.namesakes.length ≤ 1 ∧
      (∀ x ∈ p.body.mentions, x ∈ p.topLevel ∨ ∃ q ∈ p.namesakes, x ∈ q.own) ∧
      (∀ q ∈ p.procedures, ∀ x ∈ q.body.mentions,
        x ∈ q.own ∨ q ∈ p.namesakes ∧ x ∈ p.topLevel) ∧
      ∃ spills, (∀ x ∈ spills, ¬Text.IsIdentifier x) ∧
        (compile { trace } source).code.filterMap Line.word? =
          p.vars.flatMap Group.names ++
            (p.namesakes.flatMap fun q => q.locals.flatMap Group.names) ++ spills := by
  obtain ⟨hparse, hdone⟩ := parse_of_success h
  obtain ⟨ts, p, g, e, hlex, hread⟩ := parse_sound hparse hdone
  obtain ⟨body, ht⟩ := translates_of_hasRead hread
  have hp : Denotes source p := ⟨ts, e, hlex, hread.derives⟩
  refine ⟨p, fun p' => ⟨fun hp' => hp'.unique hp, fun heq => heq ▸ hp⟩, hread.namesakes_length,
    fun x hx => hread.mem_of_mentions hx, fun q hq x hx => hread.mem_of_procedure_mentions hq hx,
    (finalState { trace } source).main.listing.spills.toList, fun x hx => ?_, ?_⟩
  · exact ht.orderly.not_isIdentifier (ht.spills_subset (Array.mem_toList_iff.1 hx))
  · have hwords := ht.words_framed
    rw [State.dataNames, ht.program, ht.symbols, hread.derives.storage] at hwords
    exact hwords

/-- A procedure that is called like the program; its local variable is assigned to in the main block. -/
def namesake : Text := "program p; procedure p() x: int; begin ; end; begin x := 1; end;"

theorem compile_isolates_namesake :
    (compile {} namesake).outcome = .success ∧
    ∃ p, (∀ p', Denotes namesake p' ↔ p' = p) ∧ p.namesakes.length ≤ 1 ∧
      (∀ x ∈ p.body.mentions, x ∈ p.topLevel ∨ ∃ q ∈ p.namesakes, x ∈ q.own) ∧
      (∀ q ∈ p.procedures, ∀ x ∈ q.body.mentions,
        x ∈ q.own ∨ q ∈ p.namesakes ∧ x ∈ p.topLevel) ∧
      ∃ spills, (∀ x ∈ spills, ¬Text.IsIdentifier x) ∧
        (compile {} namesake).code.filterMap Line.word? =
          p.vars.flatMap Group.names ++
            (p.namesakes.flatMap fun q => q.locals.flatMap Group.names) ++ spills := by
  have hsuccess : (compile {} namesake).outcome = .success := by decide +kernel
  exact ⟨hsuccess, compile_isolates hsuccess⟩

/-- The local variable of a namesake is visible in the main block and gets a word of data. -/
theorem namesake_shares_scope :
    (compile {} namesake).outcome = .success ∧
      (compile {} namesake).code.filterMap Line.word? = ["x"] ∧
      ∃ p, Denotes namesake p ∧ p.vars = [] ∧ ∃ x : Text, x ∈ p.body.mentions ∧ x ∉ p.topLevel := by
  let keyword (a : Attr) (col : Nat) : Token := ⟨.keyword, a, Text.ofChars a.spelling, 1, col⟩
  let punct (a : Attr) (col : Nat) : Token := ⟨.punct, a, Text.ofChars a.spelling, 1, col⟩
  let name (x : Text) (col : Nat) : Token := ⟨.identifier, .none, x, 1, col⟩
  have hlocals : VarsDerive ([name "x" 26] ++ [punct .colon 27, keyword .intKw 29] ++
      punct .semicolon 32 :: []) [⟨["x"], .int⟩] :=
    .more (.mk (.last rfl) rfl (.int rfl)) rfl .none
  have hprocedure : ProcedureDerives (keyword .procedureKw 12 :: name "p" 22 ::
      punct .leftParen 23 :: ([] ++ punct .rightParen 24 :: (_ ++
        keyword .beginKw 34 :: ([punct .semicolon 40] ++ [keyword .endKw 42]))))
      ⟨"p", [], [⟨["x"], .int⟩], .skip⟩ :=
    .mk rfl rfl rfl .none rfl hlocals (.block rfl (.lone rfl .done) rfl)
  have hassign : StmtForm.stmt.Derives [name "x" 53, punct .assign 55, ⟨.number, .none, "1", 1, 58⟩]
      (.assign "x" (.num 1)) :=
    .assign rfl rfl (.plain (.simple (.term (.number rfl) .termDone) .simpleDone))
  have hbody : StmtForm.block.Derives (keyword .beginKw 47 :: ((_ ++ punct .semicolon 59 :: []) ++
      [keyword .endKw 61])) (.seq (.assign "x" (.num 1)) .skip) :=
    .block rfl (.first hassign rfl .done) rfl
  have hprogram := ProgramDerives.mk (p := keyword .programKw 1) (n := name "p" 9)
    (s := punct .semicolon 10) (e := punct .semicolon 64) rfl rfl rfl .none
    (.more (t := punct .semicolon 45) hprocedure rfl .none) hbody rfl
  refine ⟨by decide +kernel, by decide +kernel, _,
    ⟨_, ⟨.eof, .none, [], 1, 65⟩, ?_, hprogram⟩, rfl, "x", by decide, by decide⟩
  decide +kernel

end Compiler

end OnePass

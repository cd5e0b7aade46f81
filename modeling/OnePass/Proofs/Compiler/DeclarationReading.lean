import OnePass.Proofs.Compiler.StatementReading

namespace OnePass

namespace Source

variable {Γ : List Symbol} {scope : Text} {position : Nat → Int} {i : Nat} {ts : List Token}

/-- One more name is declared exactly if its scope does not have it yet. -/
theorem distinct_concat {s : Symbol} : Distinct (Γ ++ [s]) ↔
    Distinct Γ ∧ ¬SymbolTable.declared ⟨Γ⟩ s.id s.scope = true := by
  rw [SymbolTable.declared_iff, Distinct, List.map_append, List.map_singleton,
    ← List.concat_eq_append]
  exact (List.nodup_concat _ _).trans and_comm

/-- Names are declared before their type is read. -/
theorem distinct_numbered (type type' : ExprType) {names : List Text} :
    Distinct (Γ ++ numbered scope position type i names) ↔
      Distinct (Γ ++ numbered scope position type' i names) := by
  simp [Distinct, numbered, Function.comp_def]

theorem numbered_cons (type : ExprType) (x : Text) (names : List Text) :
    numbered scope position type i (x :: names) =
      ⟨x, scope, position i, type⟩ :: numbered scope position type (i + 1) names := rfl

/-- Only the names that wait for a type get it. -/
theorem patch_waiting (h : Known Γ) (type : ExprType) (names : List Text) :
    SymbolTable.patch ⟨Γ ++ numbered scope position .unknown i names⟩ type =
      ⟨Γ ++ numbered scope position type i names⟩ := by
  have hold : Γ.map (fun s => if s.type = .unknown then { s with type } else s) = Γ := by
    refine (List.map_congr_left fun s hs => ?_).trans (List.map_id _)
    rw [if_neg (h s hs).1]
    rfl
  simp [SymbolTable.patch, hold, numbered]

theorem FormalsDerive.head {gs : List Group} (h : FormalsDerive ts gs) :
    ∃ t us, ts = t :: us ∧ t.kind = .identifier := by
  cases h with
  | last hg => exact hg.head
  | more hg _ _ =>
    obtain ⟨t, us, rfl, ht⟩ := hg.head
    exact ⟨t, _, rfl, ht⟩

theorem ProceduresDerive.ahead {qs : List Procedure} {rest : List Token} (h : ProceduresDerive ts qs)
    (hr : Starts .keyword .beginKw rest) :
    Starts .keyword .procedureKw (ts ++ rest) ∨ Starts .keyword .beginKw (ts ++ rest) := by
  cases h with
  | none => exact .inr hr
  | more hq _ _ =>
    rw [List.append_assoc]
    exact .inl hq.starts

end Source

namespace Compiler

open Assembly Source

namespace Pass

variable {trace : Bool} {c : Setting} {rest ts : List Token} {g : Generator} {s : State} {n i : Nat}
  {position : Nat → Int}

theorem declare_reads {t : Token} {scope : Text} {type : ExprType} {pos : Int}
    (hΓ : Distinct c.symbols) (h : Stands c rest g s) :
    (declare t scope type pos).Decides trace s
      (Distinct (c.symbols ++ [⟨t.lexeme, scope, pos, type⟩]))
      fun _ => Stands (c.extend [⟨t.lexeme, scope, pos, type⟩]) rest g := by
  have hdecide := @distinct_concat c.symbols ⟨t.lexeme, scope, pos, type⟩
  refine .get_bind (.guard (fun hD => ?_) fun hd => ?_)
  · rw [h.symbols]
    exact (hdecide.1 hD).2
  · rw [h.symbols] at hd
    refine .of_true (.of_gives (a := ()) (gives_set.2 rfl) ?_) (hdecide.2 ⟨hΓ, hd⟩)
    refine h.moved rfl rfl ?_ h.program h.scope (h.replaces.congr rfl rfl)
    change s.symbols.install _ = _
    rw [h.symbols]
    rfl

theorem awaitType_reads {t : Token} {pos : Int} (hΓ : Distinct c.symbols) (h : Stands c rest g s) :
    (awaitType pos t).Decides trace s
      (Distinct (c.symbols ++ [⟨t.lexeme, c.scope, pos, .unknown⟩]))
      fun _ => Stands (c.extend [⟨t.lexeme, c.scope, pos, .unknown⟩]) rest g := by
  refine .get_bind ?_
  rw [h.scope]
  exact declare_reads hΓ h

theorem identifiers_reads {ns : List Text} (hns : NamesDerive ts ns) (hn : ts.length ≤ n)
    (hΓ : Distinct c.symbols) (hr : Starts .punct .colon rest) (h : Stands c (ts ++ rest) g s) :
    (identifiers (fun j t => awaitType (position j) t) n i).Decides trace s
      (Distinct (c.symbols ++ numbered c.scope position .unknown i ns)) fun k s' =>
        k = i + ns.length ∧
          Stands (c.extend (numbered c.scope position .unknown i ns)) rest g s' := by
  induction hns generalizing c s n i with
  | @last t ht =>
    obtain ⟨n, rfl⟩ := exists_step hn (by simp)
    refine (expectIdentifier_stands h ht).after ?_
    rintro _ s1 ⟨rfl, h1⟩
    refine (awaitType_reads hΓ h1).bind (fun hD => hD) fun _ s2 hD h2 => ?_
    refine .at_bind (.ite_neg ?_ (.of_pure hD ⟨rfl, h2⟩))
    obtain ⟨u, us, rfl, hu⟩ := hr
    rw [h2.is_eq]
    simp [Token.is, Token.attr_of_is hu]
  | @more t u ts ns ht hu hns ih =>
    obtain ⟨n, rfl⟩ := exists_step hn (by simp)
    rw [List.length_cons, List.length_cons] at hn
    rw [numbered_cons, List.append_cons]
    refine (expectIdentifier_stands h ht).after ?_
    rintro _ s1 ⟨rfl, h1⟩
    refine (awaitType_reads hΓ h1).bind (fun hD => hD.sublist (List.sublist_append_left _ _))
      fun _ s2 hfirst h2 => .at_bind (.ite_pos ?_ ?_)
    · rw [h2.is_eq, hu]
    refine (advance_stands h2).after fun _ s3 h3 => ?_
    -- the names that follow are checked against a table with this one
    refine (ih (by omega) hfirst h3).mono fun k s' hk => ?_
    rw [Setting.extend_extend] at hk
    refine ⟨?_, hk.2⟩
    rw [hk.1, List.length_cons]
    omega

theorem identifierList_reads {ns : List Text} (hns : NamesDerive ts ns) (hn : ts.length ≤ n)
    (hΓ : Distinct c.symbols) (hr : Starts .punct .colon rest) (h : Stands c (ts ++ rest) g s) :
    (identifierList (fun j t => awaitType (position j) t) n i).Decides trace s
      (Distinct (c.symbols ++ numbered c.scope position .unknown i ns)) fun k s' =>
        k = i + ns.length ∧
          Stands (c.extend (numbered c.scope position .unknown i ns)) rest g s' := by
  refine (enter_faces .identifierList h).after fun _ s1 h1 => ?_
  refine (identifiers_reads hns hn hΓ hr h1).bind (fun hD => hD) fun k s2 hD h2 => ?_
  obtain ⟨hk, h2⟩ := h2
  refine .at_bind (.ite_neg ?_ (.of_pure hD ⟨hk, h2⟩))
  obtain ⟨u, us, rfl, hu⟩ := hr
  rw [h2.is_eq, hu]
  decide

/-- The type of the names that wait for one. -/
theorem standardType_reads {u : Token} {type : ExprType} {scope : Text} {ns : List Text}
    (hu : TypeDerives u type) (hk : Known c.symbols)
    (h : Stands (c.extend (numbered scope position .unknown i ns)) (u :: rest) g s) :
    standardType.Decides trace s True
      fun _ => Stands (c.extend (numbered scope position type i ns)) rest g := by
  -- the same whichever of the two types is read
  have hpatch : ∀ s', Stands (c.extend (numbered scope position .unknown i ns)) (u :: rest) g s' →
      (do
        advance
        modify fun s =>
          { s with symbols := s.symbols.patch type }.report (.patch type s.symbols.unknowns) :
        Pass Unit).Decides trace s' True
        fun _ => Stands (c.extend (numbered scope position type i ns)) rest g := by
    intro s' h'
    refine (advance_stands h').after fun _ s2 h2 => .of_gives (a := ()) (gives_modify.2 rfl) ?_
    refine h2.moved rfl rfl ?_ h2.program h2.scope (h2.replaces.congr rfl rfl)
    change s2.symbols.patch type = _
    rw [h2.symbols]
    exact patch_waiting hk type ns
  refine (enter_faces .standardType h).after fun _ s1 h1 => .lookahead_bind ?_
  rw [h1.lookahead_eq.1]
  cases hu with
  | int hu => exact .ite_pos hu (hpatch s1 h1)
  | bool hu =>
    refine .ite_neg ?_ (.ite_pos hu (hpatch s1 h1))
    simp [Token.is, Token.attr_of_is hu]

theorem variableDecl_reads {d : Group} (hg : GroupDerives ts d) (hn : ts.length ≤ n)
    (hΓ : Distinct c.symbols) (hk : Known c.symbols) (h : Stands c (ts ++ rest) g s) :
    (variableDecl n).Decides trace s (Distinct (c.symbols ++ d.entries c.scope))
      fun _ => Stands (c.extend (d.entries c.scope)) rest g := by
  cases hg with
  | @mk t u ts ns type hns ht hu =>
    rw [List.append_assoc] at h
    rw [List.length_append] at hn
    rw [Group.entries, distinct_numbered type .unknown]
    refine (enter_faces .variableDecl h).after fun _ s1 h1 => ?_
    have hlen : ts.length ≤ n := by omega
    refine ((identifierList_reads hns hlen hΓ (.cons ht) h1).mono fun _ _ hk => hk.2).discard.bind
      (fun hD => hD) fun _ s2 hD h2 => ?_
    refine (expect_stands h2 ht).after fun _ s3 h3 => ?_
    exact .of_true (standardType_reads hu hk h3) hD

theorem variableDecls_reads {gs : List Group} (hgs : VarsDerive ts gs) (hn : ts.length ≤ n)
    {a : Attr} (hr : Starts .keyword a rest) (hΓ : Distinct c.symbols) (hk : Known c.symbols)
    (h : Stands c (ts ++ rest) g s) :
    (variableDecls n).Decides trace s
      (Distinct (c.symbols ++ gs.flatMap (Group.entries c.scope)))
      fun _ => Stands (c.extend (gs.flatMap (Group.entries c.scope))) rest g := by
  induction hgs generalizing c s n with
  | none =>
    rw [List.flatMap_nil, List.append_nil, Setting.extend_nil]
    cases n with
    | zero => exact .of_pure hΓ h
    | succ n =>
      obtain ⟨t, us, rfl, ht⟩ := hr
      refine .lookahead_bind (.ite_neg ?_ (.of_pure hΓ h))
      rw [h.lookahead_eq.1, Token.kind_of_is ht]
      decide
  | @more t ts us d gs hg ht hgs ih =>
    obtain ⟨n, rfl⟩ := exists_step hn (by simp)
    rw [List.length_append, List.length_cons] at hn
    rw [List.append_assoc, List.cons_append] at h
    rw [List.flatMap_cons, ← List.append_assoc, ← Setting.extend_extend]
    refine .lookahead_bind (.ite_pos ?_ ?_)
    · obtain ⟨u, vs, rfl, hu⟩ := hg.head
      rw [h.lookahead_eq.1, hu]
    refine (variableDecl_reads hg (by omega) hΓ hk h).bind
      (fun hD => hD.sublist (List.sublist_append_left _ _)) fun _ s1 hfirst h1 => ?_
    refine (expect_stands h1 ht).after fun _ s2 h2 => ?_
    exact ih (by omega) hfirst (hk.append hg.introduces.known) h2

/-- Variables stand before procedures or before a block. -/
theorem variableDeclList_reads {gs : List Group} (hgs : VarsDerive ts gs) (hn : ts.length ≤ n)
    (hr : Starts .keyword .procedureKw rest ∨ Starts .keyword .beginKw rest)
    (hΓ : Distinct c.symbols) (hk : Known c.symbols) (h : Stands c (ts ++ rest) g s) :
    (variableDeclList n).Decides trace s
      (Distinct (c.symbols ++ gs.flatMap (Group.entries c.scope)))
      fun _ => Stands (c.extend (gs.flatMap (Group.entries c.scope))) rest g := by
  have hword : ∃ a, Starts .keyword a rest := hr.elim (fun h => ⟨_, h⟩) fun h => ⟨_, h⟩
  obtain ⟨a, hword⟩ := hword
  refine (enter_faces .variableDeclList h).after fun _ s1 h1 => ?_
  refine (variableDecls_reads hgs hn hword hΓ hk h1).bind (fun hD => hD) fun _ s2 hD h2 => ?_
  refine .at_bind (.at_bind (.ite_neg ?_ (.of_pure hD h2)))
  rcases hr with ⟨t, us, rfl, ht⟩ | ⟨t, us, rfl, ht⟩
  · rw [h2.is_eq, ht]
    simp
  · rw [h2.is_eq, h2.is_eq, ht]
    simp

/-- A group of formal parameters, and what follows it. -/
theorem formal_bind {d : Group} {f : Nat → Pass Unit} {D : Prop} {Q : Unit → State → Prop}
    (hg : GroupDerives ts d) (hn : ts.length ≤ n) (hΓ : Distinct c.symbols) (hk : Known c.symbols)
    (h : Stands c (ts ++ rest) g s)
    (hD : D → Distinct (c.symbols ++ numbered c.scope position d.type i d.names))
    (hf : Distinct (c.symbols ++ numbered c.scope position d.type i d.names) →
      ∀ s', Stands (c.extend (numbered c.scope position d.type i d.names)) rest g s' →
      (f (i + d.names.length)).Decides trace s' D Q) :
    (do
      let k ← identifierList (fun j t => awaitType (position j) t) n i
      expect .punct .colon
      standardType
      f k).Decides trace s D Q := by
  cases hg with
  | @mk t u ts ns type hns ht hu =>
    rw [List.append_assoc] at h
    rw [List.length_append] at hn
    have hsame : Distinct (c.symbols ++ numbered c.scope position type i ns) ↔
        Distinct (c.symbols ++ numbered c.scope position .unknown i ns) := distinct_numbered _ _
    refine (identifierList_reads hns (by omega) hΓ (.cons ht) h).bind (fun hd => hsame.1 (hD hd)) ?_
    rintro _ s1 hd ⟨rfl, h1⟩
    refine (expect_stands h1 ht).after fun _ s2 h2 => ?_
    refine (standardType_reads hu hk h2).after fun _ s3 h3 => ?_
    exact hf (hsame.2 hd) s3 h3

theorem formals_reads {gs : List Group} (hgs : FormalsDerive ts gs) (hn : ts.length ≤ n)
    (hr : Starts .punct .rightParen rest) (hΓ : Distinct c.symbols) (hk : Known c.symbols)
    (h : Stands c (ts ++ rest) g s) :
    (formals n i).Decides trace s (Distinct (c.symbols ++ formalEntries c.scope i gs))
      fun _ => Stands (c.extend (formalEntries c.scope i gs)) rest g := by
  induction hgs generalizing c s n i with
  | @last ts d hg =>
    have hne : ts ≠ [] := by
      obtain ⟨t, us, rfl, -⟩ := hg.head
      exact List.cons_ne_nil t us
    obtain ⟨n, rfl⟩ := exists_step hn hne
    rw [formalEntries, formalEntries, List.append_nil]
    refine formal_bind hg hn hΓ hk h (fun hD => hD) fun hD s1 h1 => ?_
    obtain ⟨t, us, rfl, ht⟩ := hr
    refine .at_bind (.ite_neg ?_ (.at_bind (.ite_neg ?_ (.of_pure hD h1))))
    · rw [h1.is_eq]
      simp [Token.is, Token.attr_of_is ht]
    · rw [h1.is_eq, ht]
      decide
  | @more t ts us d gs hg ht hgs ih =>
    obtain ⟨n, rfl⟩ := exists_step hn (by simp)
    rw [List.length_append, List.length_cons] at hn
    rw [List.append_assoc, List.cons_append] at h
    rw [formalEntries, ← List.append_assoc, ← Setting.extend_extend]
    refine formal_bind hg (by omega) hΓ hk h
      (fun hD => hD.sublist (List.sublist_append_left _ _)) fun hfirst s1 h1 => ?_
    refine .at_bind (.ite_pos (by rw [h1.is_eq, ht]) ?_)
    refine (advance_stands h1).after fun _ s2 h2 => ?_
    exact ih (by omega) hfirst (hk.append hg.introduces.known) h2

theorem procedureArgs_reads {gs : List Group} (hgs : ArgsDerive ts gs) (hn : ts.length ≤ n)
    (hr : Starts .punct .rightParen rest) (hΓ : Distinct c.symbols) (hk : Known c.symbols)
    (h : Stands c (ts ++ rest) g s) :
    (procedureArgs n).Decides trace s (Distinct (c.symbols ++ formalEntries c.scope 0 gs))
      fun _ => Stands (c.extend (formalEntries c.scope 0 gs)) rest g := by
  refine (enter_faces .procedureArgs h).after fun _ s1 h1 => .lookahead_bind ?_
  cases hgs with
  | none =>
    obtain ⟨t, us, rfl, ht⟩ := hr
    rw [formalEntries, List.append_nil, Setting.extend_nil, h1.lookahead_eq.1]
    refine .ite_neg ?_ (.ite_neg ?_ (.of_pure hΓ h1))
    · rw [Token.kind_of_is ht]
      decide
    · rw [ht]
      decide
  | some hgs =>
    refine .ite_pos ?_ ?_
    · obtain ⟨t, us, rfl, ht⟩ := hgs.head
      rw [h1.lookahead_eq.1, ht]
    refine (enter_faces .formalList h1).after fun _ s2 h2 => ?_
    exact formals_reads hgs hn hr hΓ hk h2

/-- What follows the name of a procedure, in its scope. -/
theorem procedureRest_reads {l r : Token} {as vs bs : List Token} {formals locals : List Group}
    {body : Stmt} {es : List Symbol}
    (hes : es = formalEntries c.scope 0 formals ++ locals.flatMap (Group.entries c.scope))
    (hl : l.is .punct .leftParen = true) (ha : ArgsDerive as formals)
    (hr : r.is .punct .rightParen = true) (hv : VarsDerive vs locals)
    (hb : StmtForm.block.Derives bs body) (hn : as.length + vs.length + bs.length ≤ n)
    (hΓ : Distinct c.symbols) (hk : Known c.symbols)
    (h : Stands c (l :: (as ++ r :: (vs ++ (bs ++ rest)))) g s) :
    (do
      expect .punct .leftParen
      procedureArgs n
      expect .punct .rightParen
      variableDeclList n
      suppress (block n)).Decides trace s
      (Distinct (c.symbols ++ es) ∧ body.Fits ⟨c.symbols ++ es⟩ c.program c.scope)
      fun _ => Stands (c.extend es) rest g := by
  have hsplit : c.symbols ++ formalEntries c.scope 0 formals ++
      locals.flatMap (Group.entries c.scope) = c.symbols ++ es := by
    rw [hes, List.append_assoc]
  refine (expect_stands h hl).after fun _ s1 h1 => ?_
  refine (procedureArgs_reads ha (by omega) (.cons hr) hΓ hk h1).bind (fun hD => ?_)
    fun _ s2 hargs h2 => (expect_stands h2 hr).after fun _ s3 h3 => ?_
  · rw [← hsplit] at hD
    exact hD.1.sublist (List.sublist_append_left _ _)
  refine (variableDeclList_reads hv (by omega) (.inr hb.starts_block) hargs
    (hk.append ha.introduces.known) h3).bind (fun hD => hsplit ▸ hD.1) fun _ s4 hall h4 => ?_
  have hall : Distinct (c.symbols ++ es) := hsplit ▸ hall
  rw [Setting.extend_extend] at h4
  subst hes
  obtain ⟨_, b, g', hcode, -⟩ := body.lower_works Generator.Fit.empty
  refine suppress_stands h4 ⟨b, g', hcode⟩ fun b s5 h5 => ?_
  exact (block_reads hb (by omega) h5).congr ⟨fun hD => ⟨hall, hD⟩, fun hD => hD.2⟩

/-- A procedure is read exactly if its names are new and its body fits. -/
theorem procedureDecl_reads {q : Procedure} (hq : ProcedureDerives ts q) (hn : ts.length ≤ n)
    (hc : c.scope = c.program) (hΓ : Distinct c.symbols) (hk : Known c.symbols)
    (h : Stands c (ts ++ rest) g s) :
    (procedureDecl n).Decides trace s
      (Distinct (c.symbols ++ q.entries c.program) ∧
        q.body.Fits ⟨c.symbols ++ q.entries c.program⟩ c.program q.name)
      fun _ => Stands (c.extend (q.entries c.program)) rest g := by
  cases hq with
  | mk hp hm hl ha hr hv hb =>
    simp only [List.length_cons, List.length_append] at hn
    simp only [List.cons_append, List.append_assoc] at h
    refine (enter_faces .procedureDecl h).after fun _ s1 h1 => ?_
    refine (advance_stands h1).after fun _ s2 h2 => (expectIdentifier_stands h2 hm).after ?_
    rintro m s3 ⟨rfl, h3⟩
    refine .get_bind ?_
    rw [h3.scope, hc, Procedure.entries, List.append_cons]
    refine (declare_reads hΓ h3).bind (fun hD => ?_) fun _ s4 hname h4 => ?_
    · exact hD.1.sublist (List.sublist_append_left _ _)
    have hknown : Known (c.symbols ++ [⟨m.lexeme, c.program, noPosition, .procedureName⟩]) :=
      hk.append fun s hs => by simp [List.mem_singleton.1 hs]
    rw [Setting.extend_cons]
    exact inScope_stands h4 fun s5 h5 =>
      procedureRest_reads rfl hl ha hr hv hb (by omega) hname hknown h5

theorem procedureDecls_reads {qs : List Procedure} (hqs : ProceduresDerive ts qs)
    (hn : ts.length ≤ n) (hr : Starts .keyword .beginKw rest) (hc : c.scope = c.program)
    (hΓ : Distinct c.symbols) (hk : Known c.symbols) (h : Stands c (ts ++ rest) g s) :
    (procedureDecls n).Decides trace s
      (Distinct (c.symbols ++ qs.flatMap (Procedure.entries c.program)) ∧
        ProceduresFit c.program c.symbols qs)
      fun _ => Stands (c.extend (qs.flatMap (Procedure.entries c.program))) rest g := by
  induction hqs generalizing c s n with
  | none =>
    rw [List.flatMap_nil, List.append_nil, Setting.extend_nil]
    cases n with
    | zero => exact .of_pure ⟨hΓ, trivial⟩ h
    | succ n =>
      obtain ⟨t, us, rfl, ht⟩ := hr
      refine .at_bind (.ite_neg ?_ (.of_pure ⟨hΓ, trivial⟩ h))
      rw [Faces.is_eq h]
      simp [Token.is, Token.attr_of_is ht]
  | @more t ts us q qs hq ht hqs ih =>
    obtain ⟨n, rfl⟩ := exists_step hn (by simp)
    rw [List.length_append, List.length_cons] at hn
    rw [List.append_assoc, List.cons_append] at h
    rw [List.flatMap_cons, ← List.append_assoc, ← Setting.extend_extend, ProceduresFit]
    refine .at_bind (.ite_pos ?_ ?_)
    · have hstarts : Starts .keyword .procedureKw (ts ++ t :: (us ++ rest)) := hq.starts
      obtain ⟨u, vs, hvs, hu⟩ := hstarts
      rw [hvs] at h
      rw [h.is_eq, hu]
    refine (procedureDecl_reads hq (by omega) hc hΓ hk h).bind
      (fun hD => ⟨hD.1.sublist (List.sublist_append_left _ _), hD.2.1⟩)
      fun _ s1 hfirst h1 => (expect_stands h1 ht).after fun _ s2 h2 => ?_
    have hrest := ih (c := c.extend (q.entries c.program)) (n := n) (by omega) hc hfirst.1
      (hk.append hq.introduces.known) h2
    exact hrest.congr ⟨fun hD => ⟨hD.1, hfirst.2, hD.2⟩, fun hD => ⟨hD.1, hD.2.2⟩⟩

theorem procedureDeclList_reads {qs : List Procedure} (hqs : ProceduresDerive ts qs)
    (hn : ts.length ≤ n) (hr : Starts .keyword .beginKw rest) (hc : c.scope = c.program)
    (hΓ : Distinct c.symbols) (hk : Known c.symbols) (h : Stands c (ts ++ rest) g s) :
    (procedureDeclList n).Decides trace s
      (Distinct (c.symbols ++ qs.flatMap (Procedure.entries c.program)) ∧
        ProceduresFit c.program c.symbols qs)
      fun _ => Stands (c.extend (qs.flatMap (Procedure.entries c.program))) rest g := by
  refine (enter_faces .procedureDeclList h).after fun _ s1 h1 => ?_
  refine (procedureDecls_reads hqs hn hr hc hΓ hk h1).bind (fun hD => hD) fun _ s2 hD h2 => ?_
  obtain ⟨t, us, rfl, ht⟩ := hr
  refine .at_bind (.ite_neg ?_ (.of_pure hD h2))
  rw [h2.is_eq, ht]
  decide

end Pass

end Compiler

end OnePass

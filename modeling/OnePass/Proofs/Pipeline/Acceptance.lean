import OnePass.Proofs.Pipeline.Output
import OnePass.Proofs.Source.Unambiguous

namespace OnePass

open Assembler Assembly Source

/-- The name of a word of data. -/
def Assembly.Line.word? : Line → Option Text
  | .data x _ => some x
  | _ => none

namespace Source

theorem GroupDerives.isScalar {ts : List Token} {g : Group} (h : GroupDerives ts g) :
    g.type.isScalar = true := by
  cases h with
  | mk _ _ hu => cases hu <;> rfl

theorem VarsDerive.isScalar {ts : List Token} {gs : List Group} (h : VarsDerive ts gs) :
    ∀ g ∈ gs, g.type.isScalar = true := by
  induction h with
  | none => simp
  | more hg _ _ ih => exact List.forall_mem_cons.2 ⟨hg.isScalar, ih⟩

theorem ProceduresDerive.isScalar {ts : List Token} {ps : List Procedure}
    (h : ProceduresDerive ts ps) : ∀ p ∈ ps, ∀ g ∈ p.locals, g.type.isScalar = true := by
  induction h with
  | none => simp
  | more hp _ _ ih =>
    refine List.forall_mem_cons.2 ⟨?_, ih⟩
    cases hp with
    | mk _ _ _ _ _ hv _ => exact hv.isScalar

/-- What is declared beside the program is a variable, a procedure or a formal parameter. -/
theorem ProgramDerives.entry_kind {ts : List Token} {p : Program} (h : ProgramDerives ts p)
    {y : Symbol} (hy : y ∈ p.entries) (hscope : y.scope ≠ Compiler.externalScope) :
    y.position = noPosition ∧ y.type.isScalar = true ∨ y.type = .procedureName ∨ 0 ≤ y.position := by
  cases h with
  | mk _ _ _ hv hps _ _ =>
    rcases List.mem_cons.1 hy with rfl | hy
    · exact absurd rfl hscope
    rcases List.mem_append.1 hy with hy | hy
    · obtain ⟨hpos, g, hg, htype⟩ := mem_groupEntries hy
      exact .inl ⟨hpos, by rw [htype]; exact hv.isScalar g hg⟩
    · obtain ⟨q, hq, hy⟩ := List.mem_flatMap.1 hy
      rcases List.mem_cons.1 hy with rfl | hy
      · exact .inr (.inl rfl)
      rcases List.mem_append.1 hy with hy | hy
      · exact .inr (.inr (mem_formalEntries hy))
      · obtain ⟨hpos, g, hg, htype⟩ := mem_groupEntries hy
        exact .inl ⟨hpos, by rw [htype]; exact hps.isScalar q hq g hg⟩

end Source

/-- The tokens of the source derive as the program. -/
def Source.Denotes (source : Text) (p : Program) : Prop :=
  ∃ ts e, lex source = .ok (ts ++ [e]) ∧ ProgramDerives ts p

theorem Source.Denotes.unique {source : Text} {p p' : Program} (h : Denotes source p)
    (h' : Denotes source p') : p = p' := by
  obtain ⟨ts, e, hlex, hp⟩ := h
  obtain ⟨ts', e', hlex', hp'⟩ := h'
  rw [hlex, Except.ok.injEq] at hlex'
  obtain rfl : ts = ts' := List.append_inj_left' hlex' rfl
  exact hp.unique hp'

namespace Compiler

/-- A source that is compiled denotes one program, and that is translated. -/
theorem translates_of_success {trace : Bool} {source : Text}
    (h : (compile { trace } source).outcome = .success) :
    ∃ p body, (∀ p', Denotes source p' ↔ p' = p) ∧
      Translates (finalState { trace } source) p body := by
  obtain ⟨hparse, hdone⟩ := parse_of_success h
  obtain ⟨ts, p, g, e, hlex, hread⟩ := parse_sound hparse hdone
  obtain ⟨body, ht⟩ := translates_of_hasRead hread
  have hp : Denotes source p := ⟨ts, e, hlex, hread.derives⟩
  exact ⟨p, body, fun p' => ⟨fun hp' => hp'.unique hp, fun heq => heq ▸ hp⟩, ht⟩

theorem entry_not_isIdentifier (name : Text) : ¬Text.IsIdentifier ("_" ++ name) := by
  rintro ⟨c, cs, hx, hc, -⟩
  have hhead : c = '_' := by
    have hglyph := (List.cons.inj hx).1
    cases hglyph
    rfl
  subst hhead
  exact absurd hc (by decide)

/-- A name that the code uses as a word of memory, although the program has no word for it: it names a
procedure or a formal parameter. -/
structure Wordless (s : State) (x : Text) : Prop where
  operand : ∃ l ∈ s.main.listing.written, x ∈ l.dataNames
  symbol : ∃ y ∈ s.symbols.symbols, y.id = x ∧ y.scope = s.program ∧
    (y.type = .procedureName ∨ 0 ≤ y.position)
  not_storage : x ∉ s.symbols.storage s.program
  not_spill : x ∉ s.main.listing.spills

/-- The names in the output of a compilation fit together. -/
structure Coherent (s : State) : Prop where
  names_nodup : s.main.listing.names.toList.Nodup
  names_new : ∀ x ∈ s.main.listing.names, ∀ y ∈ s.symbols.symbols, y.id ≠ x
  targets : ∀ l ∈ s.main.listing.written, ∀ x ∈ l.targets, x ∈ labels s.main.listing.written.toList
  operands : ∀ l ∈ s.main.listing.written, ∀ x ∈ l.dataNames,
    s.symbols.declared x s.program = true ∨ x ∈ s.main.listing.spills
  spill_words : ∀ x ∈ s.main.listing.spills,
    (s.main.listing.written.toList.filterMap Line.word?).count x = 1
  reads : ∀ l ∈ s.main.listing.written, l.Fits ∧ Statement.read l.text = .ok l.statement

namespace Translates

variable {s : State} {p : Program} {body : List Line}

theorem storage_isIdentifier (h : Translates s p body) {x : Text}
    (hx : x ∈ s.symbols.storage s.program) : x.IsIdentifier :=
  h.valid.isIdentifier_of_declared (SymbolTable.declared_of_mem_storage hx)

theorem spills_subset (h : Translates s p body) {x : Text} (hx : x ∈ s.main.listing.spills) :
    x ∈ s.main.listing.names := h.orderly.spills x hx

theorem name_isIdentifier (h : Translates s p body) : p.name.IsIdentifier :=
  h.valid.program_name h.symbols

theorem labels_framed (name : Text) (body : List Line) :
    labels (framed name body) = ("_" ++ name) :: labels body := by
  rw [framed, labels_cons_label, labels_append]
  exact congrArg _ (List.append_nil _)

theorem closed_framed (h : Closed body) (name : Text) : Closed (framed name body) := by
  intro l hl x hx
  rw [labels_framed]
  rcases List.mem_cons.1 hl with rfl | hl
  · cases hx
  · rcases List.mem_append.1 hl with hl | hl
    · exact List.mem_cons_of_mem _ (h l hl x hx)
    · rw [List.mem_singleton.1 hl] at hx
      cases hx

theorem isModule (h : Translates s p body) : IsModule (framed p.name body) s.dataNames := by
  refine ⟨?_, ⟨.label ("_" ++ p.name) :: body, .halt, [], rfl⟩, closed_framed h.closed _, ?_⟩
  · refine List.forall_mem_cons.2 ⟨h.name_isIdentifier.underscore_isLabel,
      List.forall_mem_append.2 ⟨h.code, List.forall_mem_singleton.2 ⟨by decide, .nil⟩⟩⟩
  · intro x hx
    rcases State.mem_dataNames.1 hx with hx | hx
    · exact (h.storage_isIdentifier hx).isLabel
    · obtain ⟨i, hi⟩ := h.orderly.generated (h.spills_subset hx)
      exact hi.isLabel

/-- The names with a place are the entry label, the names handed out and the variables. -/
theorem names_perm (h : Translates s p body) :
    (labels (framed p.name body) ++ s.dataNames).Perm
      (("_" ++ p.name) :: (s.main.listing.names.toList ++ s.symbols.storage s.program)) := by
  rw [labels_framed, State.dataNames, List.cons_append]
  refine List.Perm.cons _ ?_
  refine (List.perm_append_comm.append_left _).trans ?_
  rw [← List.append_assoc]
  exact h.names.append_right _

theorem nodup_names (h : Translates s p body) :
    (s.main.listing.names.toList ++ s.symbols.storage s.program).Nodup := by
  refine List.nodup_append.2 ⟨h.orderly.nodup, h.valid.storage_nodup _, fun x hx y hy hxy => ?_⟩
  subst hxy
  exact h.orderly.not_isIdentifier (Array.mem_toList_iff.1 hx) (h.storage_isIdentifier hy)

theorem entry_mem_iff (h : Translates s p body) :
    "_" ++ p.name ∈ s.main.listing.names.toList ++ s.symbols.storage s.program ↔
      "_" ++ p.name ∈ s.main.listing.names := by
  rw [List.mem_append, Array.mem_toList_iff]
  exact or_iff_left fun hx => entry_not_isIdentifier _ (h.storage_isIdentifier hx)

/-- Names with a place come once, unless the entry label is one that was handed out. -/
theorem nodup_iff (h : Translates s p body) :
    (labels (framed p.name body) ++ s.dataNames).Nodup ↔ "_" ++ p.name ∉ s.main.listing.names := by
  rw [h.names_perm.nodup_iff, List.nodup_cons, h.entry_mem_iff]
  exact and_iff_left h.nodup_names

/-- The operands have their words if the main block uses only variables of the program. -/
theorem data_iff (h : Translates s p body) :
    (∀ l ∈ framed p.name body, ∀ x ∈ l.dataNames, x ∈ s.dataNames) ↔
      ∀ x ∈ p.body.names, x ∈ s.symbols.storage s.program := by
  constructor
  · intro hall x hx
    obtain ⟨l, hl, hlx⟩ := List.mem_flatMap.1 (h.reached x hx)
    have hmem := hall l (List.mem_cons_of_mem _ (List.mem_append_left _ hl)) x hlx
    rcases State.mem_dataNames.1 hmem with hmem | hmem
    · exact hmem
    · refine absurd (h.valid.isIdentifier_of_declared (h.typed.declared hx)) ?_
      exact h.orderly.not_isIdentifier (h.spills_subset hmem)
  · intro hall l hl x hx
    rcases List.mem_cons.1 hl with rfl | hl
    · cases hx
    · rcases List.mem_append.1 hl with hl | hl
      · exact State.mem_dataNames.2 ((h.data l hl x hx).imp_left (hall x))
      · rw [List.mem_singleton.1 hl] at hx
        cases hx

/-- When the assembler takes the code. -/
theorem assembles_iff (h : Translates s p body) :
    (∃ q, assemble (render s.main.listing.written.toList) = .ok q) ↔
      "_" ++ p.name ∉ s.main.listing.names ∧
        ∀ x ∈ p.body.names, x ∈ s.symbols.storage s.program := by
  rw [h.written, assemble_eq_ok_iff h.isModule, h.nodup_iff, h.data_iff]

theorem mem_written (h : Translates s p body) {l : Line} (hl : l ∈ framed p.name body) :
    l ∈ s.main.listing.written := by
  rw [← Array.mem_toList_iff, h.written]
  exact List.mem_append_left _ hl

/-- An operand without a word names a procedure or a formal parameter. -/
theorem wordless (h : Translates s p body) {ts : List Token} (hp : ProgramDerives ts p) {l : Line}
    (hl : l ∈ framed p.name body) {x : Text} (hx : x ∈ l.dataNames) (hno : x ∉ s.dataNames) :
    Wordless s x := by
  rw [State.mem_dataNames, not_or] at hno
  have hdecl : s.symbols.declared x p.name = true := by
    rcases List.mem_cons.1 hl with rfl | hl
    · cases hx
    · rcases List.mem_append.1 hl with hl | hl
      · exact h.typed.declared ((h.data l hl x hx).resolve_right hno.2)
      · rw [List.mem_singleton.1 hl] at hx
        cases hx
  obtain ⟨y, hy, hid, hscope⟩ := SymbolTable.mem_declared.1 hdecl
  have hexternal : y.scope ≠ externalScope := by
    rw [hscope]
    intro heq
    have hid := h.name_isIdentifier
    rw [heq] at hid
    exact entry_not_isIdentifier (Text.ofString "EXTERNAL") hid
  have hentry : y ∈ p.entries := by
    rw [h.symbols] at hy
    exact hy
  rw [← h.program] at hscope
  refine ⟨⟨l, h.mem_written hl, hx⟩, ⟨y, hy, hid, hscope, ?_⟩, hno.1, hno.2⟩
  refine (hp.entry_kind hentry hexternal).resolve_left fun hk => ?_
  exact hno.1 (SymbolTable.mem_storage.2 ⟨y, hy, hid, hscope, hk⟩)

/-- Why the assembler refuses the code. -/
theorem cause_of_error (h : Translates s p body) {ts : List Token} (hp : ProgramDerives ts p)
    {e : AssembleError} (he : assemble (render s.main.listing.written.toList) = .error e) :
    "_" ++ p.name ∈ s.main.listing.names ∧ e.cause = .duplicateLabel ("_" ++ p.name) ∨
      ∃ x, Wordless s x ∧ e.cause = .undefinedData x := by
  rw [h.written] at he
  by_cases hn : (labels (framed p.name body) ++ s.dataNames).Nodup
  · right
    rcases assemble_module h.isModule hn with ⟨q, hq, -⟩ | ⟨i, l, hl, x, hx, hno, he'⟩
    · rw [hq] at he
      cases he
    · rw [he'] at he
      cases he
      exact ⟨x, h.wordless hp hl hx hno, rfl⟩
  · left
    obtain ⟨i, x, hx, he'⟩ := assemble_duplicate h.isModule hn
    rw [he'] at he
    cases he
    have hentry : x = "_" ++ p.name := by
      by_contra hne
      rw [h.names_perm.count_eq, List.count_cons_of_ne (Ne.symm hne)] at hx
      have hle := List.nodup_iff_count_le_one.1 h.nodup_names x
      omega
    rw [hentry]
    exact ⟨not_not.1 (mt h.nodup_iff.2 hn), rfl⟩

theorem rejected_iff (h : Translates s p body) {source : Text} (hp : Denotes source p) :
    (∃ e, assemble (render s.main.listing.written.toList) = .error e) ↔
      "_" ++ p.name ∈ s.main.listing.names ∨ ∃ x, Wordless s x := by
  constructor
  · rintro ⟨e, he⟩
    obtain ⟨ts, -, -, hderives⟩ := hp
    exact (h.cause_of_error hderives he).imp (fun h => h.1) fun ⟨x, hx, _⟩ => ⟨x, hx⟩
  · intro hbad
    cases hr : assemble (render s.main.listing.written.toList) with
    | error e => exact ⟨e, rfl⟩
    | ok q =>
      rw [h.written] at hr
      obtain ⟨hn, hd⟩ := (assemble_eq_ok_iff h.isModule).1 ⟨q, hr⟩
      rcases hbad with hentry | ⟨x, hx⟩
      · exact absurd hentry (h.nodup_iff.1 hn)
      · obtain ⟨l, hl, hlx⟩ := hx.operand
        rw [← Array.mem_toList_iff, h.written] at hl
        rcases List.mem_append.1 hl with hl | hl
        · rcases State.mem_dataNames.1 (hd l hl x hlx) with hmem | hmem
          · exact absurd hmem hx.not_storage
          · exact absurd hmem hx.not_spill
        · obtain ⟨y, -, rfl⟩ := List.mem_map.1 hl
          cases hlx

theorem words_framed (h : Translates s p body) :
    s.main.listing.written.toList.filterMap Line.word? = s.dataNames := by
  have hcode : (framed p.name body).filterMap Line.word? = [] := by
    rw [List.filterMap_eq_nil_iff]
    intro l hl
    have hl' := h.isModule.code l hl
    cases l with
    | label x => rfl
    | instruction m os => rfl
    | data x n => exact hl'.elim
  rw [h.written, moduleLines, List.filterMap_append, hcode, List.filterMap_map, List.nil_append]
  exact List.filterMap_some

theorem dataNames_nodup (h : Translates s p body) : s.dataNames.Nodup := by
  refine List.nodup_append.2 ⟨h.valid.storage_nodup _, ?_, fun x hx y hy hxy => ?_⟩
  · exact (h.names.nodup_iff.2 h.orderly.nodup).of_append_right
  · subst hxy
    exact h.orderly.not_isIdentifier (h.spills_subset (Array.mem_toList_iff.1 hy))
      (h.storage_isIdentifier hx)

theorem coherent (h : Translates s p body) : Coherent s := by
  have hlines : ∀ l ∈ s.main.listing.written, l ∈ framed p.name body ∨
      ∃ x ∈ s.dataNames, l = .data x 1 := by
    intro l hl
    rw [← Array.mem_toList_iff, h.written, moduleLines, List.mem_append, List.mem_map] at hl
    rcases hl with hl | ⟨x, hx, rfl⟩
    · exact .inl hl
    · exact .inr ⟨x, hx, rfl⟩
  refine ⟨h.orderly.nodup, fun x hx y hy heq => ?_, fun l hl x hx => ?_, fun l hl x hx => ?_,
    fun x hx => ?_, fun l hl => ?_⟩
  · exact h.orderly.not_isIdentifier hx (heq ▸ h.valid.named y hy)
  · rcases hlines l hl with hl | ⟨y, -, rfl⟩
    · rw [h.written, moduleLines, labels_append]
      exact List.mem_append_left _ (h.isModule.closed l hl x hx)
    · cases hx
  · rcases hlines l hl with hl | ⟨y, -, rfl⟩
    · rcases List.mem_cons.1 hl with rfl | hl
      · cases hx
      · rcases List.mem_append.1 hl with hl | hl
        · rw [h.program]
          exact (h.data l hl x hx).imp_left h.typed.declared
        · rw [List.mem_singleton.1 hl] at hx
          cases hx
    · cases hx
  · rw [h.words_framed]
    exact List.count_eq_one_of_mem h.dataNames_nodup (State.mem_dataNames.2 (.inr hx))
  · rw [← Array.mem_toList_iff, h.written] at hl
    have hf := h.isModule.fits l hl
    exact ⟨hf, Line.read_text hf⟩

end Translates

variable {trace : Bool} {source : Text}

/-- When the assembler takes the code of a source that has been compiled: the entry label is none of the
names handed out, and the main block reads and writes only variables of the program. -/
theorem compile_accepted_iff (h : (compile { trace } source).outcome = .success) :
    ∃ p, (∀ p', Denotes source p' ↔ p' = p) ∧
      ((∃ q, assemble (compile { trace } source).assembly = .ok q) ↔
        "_" ++ p.name ∉ (finalState { trace } source).main.listing.names ∧
          ∀ x ∈ p.body.names, x ∈ (compile { trace } source).symbols.storage p.name) := by
  obtain ⟨p, body, hp, ht⟩ := translates_of_success h
  have hiff := ht.assembles_iff
  rw [ht.program] at hiff
  exact ⟨p, hp, hiff⟩

/-- The first label of the main block has the name of the program. -/
def entryTaken : Text := "program done0; x: bool; begin x := x or x; end;"

theorem compile_accepted_iff_entryTaken :
    (compile {} entryTaken).outcome = .success ∧
      ∃ p, (∀ p', Denotes entryTaken p' ↔ p' = p) ∧
        ((∃ q, assemble (compile {} entryTaken).assembly = .ok q) ↔
          "_" ++ p.name ∉ (finalState {} entryTaken).main.listing.names ∧
            ∀ x ∈ p.body.names, x ∈ (compile {} entryTaken).symbols.storage p.name) := by
  have hsuccess : (compile {} entryTaken).outcome = .success := by decide +kernel
  exact ⟨hsuccess, compile_accepted_iff hsuccess⟩

/-- The assembler does not take all code: a label of the main block can meet the entry label. -/
theorem entryTaken_rejected :
    (compile {} entryTaken).outcome = .success ∧
      assemble (compile {} entryTaken).assembly = .error ⟨6, .duplicateLabel "_done0"⟩ := by
  decide +kernel

/-- Why the assembler refuses the code of a source that has been compiled. Only the entry label can be
defined twice, and only procedures and formal parameters can be missing. -/
theorem compile_rejected_iff (h : (compile { trace } source).outcome = .success) :
    ∃ p, (∀ p', Denotes source p' ↔ p' = p) ∧ (finalState { trace } source).program = p.name ∧
      ((∃ e, assemble (compile { trace } source).assembly = .error e) ↔
        "_" ++ p.name ∈ (finalState { trace } source).main.listing.names ∨
          ∃ x, Wordless (finalState { trace } source) x) ∧
      (∀ e, assemble (compile { trace } source).assembly = .error e →
        e.cause = .duplicateLabel ("_" ++ p.name) ∨
          ∃ x, Wordless (finalState { trace } source) x ∧ e.cause = .undefinedData x) ∧
      Coherent (finalState { trace } source) := by
  obtain ⟨p, body, hp, ht⟩ := translates_of_success h
  have hsource : Denotes source p := (hp p).2 rfl
  refine ⟨p, hp, ht.program, ht.rejected_iff hsource, fun e he => ?_, ht.coherent⟩
  obtain ⟨ts, -, -, hderives⟩ := hsource
  exact (ht.cause_of_error hderives he).imp_left And.right

/-- A procedure that is assigned to like a variable. -/
def procedureAssigned : Text := "program p; procedure q() begin ; end; begin q := q; end;"

theorem compile_rejected_iff_procedureAssigned :
    (compile {} procedureAssigned).outcome = .success ∧
      assemble (compile {} procedureAssigned).assembly = .error ⟨2, .undefinedData "q"⟩ ∧
      ∃ p, (∀ p', Denotes procedureAssigned p' ↔ p' = p) ∧
        (finalState {} procedureAssigned).program = p.name ∧
        ((∃ e, assemble (compile {} procedureAssigned).assembly = .error e) ↔
          "_" ++ p.name ∈ (finalState {} procedureAssigned).main.listing.names ∨
            ∃ x, Wordless (finalState {} procedureAssigned) x) ∧
        (∀ e, assemble (compile {} procedureAssigned).assembly = .error e →
          e.cause = .duplicateLabel ("_" ++ p.name) ∨
            ∃ x, Wordless (finalState {} procedureAssigned) x ∧ e.cause = .undefinedData x) ∧
        Coherent (finalState {} procedureAssigned) := by
  obtain ⟨hsuccess, herror⟩ : (compile {} procedureAssigned).outcome = .success ∧
      assemble (compile {} procedureAssigned).assembly = .error ⟨2, .undefinedData "q"⟩ := by decide +kernel
  exact ⟨hsuccess, herror, compile_rejected_iff hsuccess⟩

end Compiler

end OnePass

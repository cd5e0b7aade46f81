import OnePass.Proofs.Compiler.Input
import OnePass.Proofs.Source.Semantics
import Mathlib.Data.List.Nodup

namespace OnePass

namespace SymbolTable

/-- Symbols are named by identifiers, none twice in a scope. -/
structure Valid (t : SymbolTable) : Prop where
  distinct : (t.symbols.map fun s => (s.id, s.scope)).Nodup
  named : ∀ s ∈ t.symbols, s.id.IsIdentifier

theorem declared_iff {t : SymbolTable} {id scope : Text} :
    t.declared id scope = true ↔ (id, scope) ∈ t.symbols.map fun s => (s.id, s.scope) := by
  simp [declared, find?, List.find?_isSome]

end SymbolTable

namespace Source

/-- Entries of one type; the `i`-th name has the position that belongs to `i`. -/
def numbered (scope : Text) (position : Nat → Int) (type : ExprType) (i : Nat) (names : List Text) :
    List Symbol :=
  (names.zipIdx i).map fun x => { id := x.1, scope, position := position x.2, type }

def Group.entries (scope : Text) (g : Group) : List Symbol :=
  numbered scope (fun _ => noPosition) g.type 0 g.names

/-- Formal parameters are numbered through all their groups. -/
def formalEntries (scope : Text) : Nat → List Group → List Symbol
  | _, [] => []
  | i, g :: gs =>
    numbered scope (fun j => j) g.type i g.names ++ formalEntries scope (i + g.names.length) gs

/-- The name belongs to the scope of the program, all else to a scope of its own. -/
def Procedure.entries (program : Text) (p : Procedure) : List Symbol :=
  { id := p.name, scope := program, type := .procedureName } ::
    (formalEntries p.name 0 p.formals ++ p.locals.flatMap (Group.entries p.name))

def Program.entries (p : Program) : List Symbol :=
  { id := p.name, scope := Compiler.externalScope, type := .programName } ::
    (p.vars.flatMap (Group.entries p.name) ++ p.procedures.flatMap (Procedure.entries p.name))

/-- Procedure bodies see the declarations before them, and their own. -/
def ProceduresTyped (program : Text) : List Symbol → List Procedure → Prop
  | _, [] => True
  | before, p :: ps =>
    p.body.Typed ⟨before ++ p.entries program⟩ program p.name ∧
      ProceduresTyped program (before ++ p.entries program) ps

/-- No identifier is declared twice in a scope. -/
def Distinct (Γ : List Symbol) : Prop := (Γ.map fun s => (s.id, s.scope)).Nodup

theorem Distinct.sublist {Γ Δ : List Symbol} (h : Distinct Γ) (hs : Δ.Sublist Γ) : Distinct Δ :=
  List.Nodup.sublist (hs.map _) h

theorem mem_numbered {scope : Text} {position : Nat → Int} {type : ExprType} {i : Nat}
    {names : List Text} {y : Symbol} (h : y ∈ numbered scope position type i names) :
    (∃ j, y.position = position j) ∧ y.type = type := by
  obtain ⟨x, -, rfl⟩ := List.mem_map.1 h
  exact ⟨⟨x.2, rfl⟩, rfl⟩

theorem mem_formalEntries {scope : Text} {i : Nat} {gs : List Group} {y : Symbol}
    (h : y ∈ formalEntries scope i gs) : 0 ≤ y.position := by
  induction gs generalizing i with
  | nil => cases h
  | cons g gs ih =>
    rcases List.mem_append.1 h with h | h
    · obtain ⟨⟨j, hj⟩, -⟩ := mem_numbered h
      omega
    · exact ih h

theorem mem_groupEntries {scope : Text} {gs : List Group} {y : Symbol}
    (h : y ∈ gs.flatMap (Group.entries scope)) :
    y.position = noPosition ∧ ∃ g ∈ gs, y.type = g.type := by
  obtain ⟨g, hg, hy⟩ := List.mem_flatMap.1 h
  obtain ⟨⟨-, hpos⟩, htype⟩ := mem_numbered hy
  exact ⟨hpos, g, hg, htype⟩

theorem map_id_numbered (scope : Text) (position : Nat → Int) (type : ExprType) (i : Nat)
    (names : List Text) : (numbered scope position type i names).map Symbol.id = names := by
  rw [numbered, List.map_map]
  exact List.zipIdx_map_fst i names

theorem scope_numbered {scope : Text} {position : Nat → Int} {type : ExprType} {i : Nat}
    {names : List Text} {y : Symbol} (h : y ∈ numbered scope position type i names) :
    y.scope = scope ∧ y.id ∈ names := by
  constructor
  · obtain ⟨z, -, rfl⟩ := List.mem_map.1 h
    rfl
  · have hid := List.mem_map_of_mem (f := Symbol.id) h
    rwa [map_id_numbered] at hid

theorem scope_formalEntries {scope : Text} {i : Nat} {gs : List Group} {y : Symbol}
    (h : y ∈ formalEntries scope i gs) : y.scope = scope ∧ y.id ∈ gs.flatMap Group.names := by
  induction gs generalizing i with
  | nil => cases h
  | cons g gs ih =>
    rw [List.flatMap_cons, List.mem_append]
    rcases List.mem_append.1 h with h | h
    · exact ⟨(scope_numbered h).1, .inl (scope_numbered h).2⟩
    · exact ⟨(ih h).1, .inr (ih h).2⟩

theorem scope_groupEntries {scope : Text} {gs : List Group} {y : Symbol}
    (h : y ∈ gs.flatMap (Group.entries scope)) : y.scope = scope ∧ y.id ∈ gs.flatMap Group.names := by
  obtain ⟨g, hg, hy⟩ := List.mem_flatMap.1 h
  exact ⟨(scope_numbered hy).1, List.mem_flatMap.2 ⟨g, hg, (scope_numbered hy).2⟩⟩

theorem procedures_sublist (program : Text) (ps : List Procedure) :
    (ps.map fun q => { id := q.name, scope := program, type := .procedureName : Symbol }).Sublist
      (ps.flatMap (Procedure.entries program)) := by
  induction ps with
  | nil => exact List.Sublist.refl _
  | cons q ps ih =>
    rw [List.map_cons, List.flatMap_cons, Procedure.entries, List.cons_append]
    exact (ih.trans (List.sublist_append_right _ _)).cons_cons _

/-- Procedures have different names. -/
theorem Program.procedures_nodup {p : Program} (h : Distinct p.entries) :
    (p.procedures.map Procedure.name).Nodup := by
  have hsub : (p.procedures.map fun q =>
      { id := q.name, scope := p.name, type := .procedureName : Symbol }).Sublist p.entries :=
    ((procedures_sublist p.name p.procedures).trans (List.sublist_append_right _ _)).cons _
  have hkeys := h.sublist hsub
  rw [Distinct, List.map_map] at hkeys
  refine List.Nodup.of_map (fun x => (x, p.name)) ?_
  rwa [List.map_map]

theorem Program.procedure_unique {p : Program} (h : Distinct p.entries) {q r : Procedure}
    (hq : q ∈ p.procedures) (hr : r ∈ p.procedures) (hname : q.name = r.name) : q = r :=
  List.inj_on_of_nodup_map (Program.procedures_nodup h) hq hr hname

/-- Every declaration has got its type, and the type can be told from a failed search. -/
def Known (Γ : List Symbol) : Prop := ∀ s ∈ Γ, s.type ≠ .unknown ∧ s.type ≠ .garbage

theorem Known.append {Γ Δ : List Symbol} (hΓ : Known Γ) (hΔ : Known Δ) : Known (Γ ++ Δ) :=
  List.forall_mem_append.2 ⟨hΓ, hΔ⟩

/-- The declarations are known, and named by identifiers among the tokens. -/
structure Introduces (ts : List Token) (Γ : List Symbol) : Prop where
  known : Known Γ
  named : ∀ s ∈ Γ, ∃ t ∈ ts, t.kind = .identifier ∧ t.lexeme = s.id

section

variable {ts us : List Token} {Γ Δ : List Symbol} {scope : Text} {position : Nat → Int} {i : Nat}

theorem Introduces.append (hΓ : Introduces ts Γ) (hΔ : Introduces us Δ) :
    Introduces (ts ++ us) (Γ ++ Δ) := by
  refine ⟨hΓ.known.append hΔ.known, List.forall_mem_append.2 ⟨fun s hs => ?_, fun s hs => ?_⟩⟩
  · obtain ⟨t, ht, hname⟩ := hΓ.named s hs
    exact ⟨t, List.mem_append_left us ht, hname⟩
  · obtain ⟨t, ht, hname⟩ := hΔ.named s hs
    exact ⟨t, List.mem_append_right ts ht, hname⟩

theorem Introduces.mono (h : Introduces ts Γ) (hts : ts ⊆ us) : Introduces us Γ := by
  refine ⟨h.known, fun s hs => ?_⟩
  obtain ⟨t, ht, hname⟩ := h.named s hs
  exact ⟨t, hts ht, hname⟩

theorem Introduces.none : Introduces ts [] := ⟨List.forall_mem_nil _, List.forall_mem_nil _⟩

theorem Introduces.single {t : Token} {s : Symbol} (ht : t.kind = .identifier) (hid : s.id = t.lexeme)
    (htype : s.type ≠ .unknown ∧ s.type ≠ .garbage) : Introduces [t] [s] :=
  ⟨List.forall_mem_singleton.2 htype,
    List.forall_mem_singleton.2 ⟨t, List.mem_singleton_self t, ht, hid.symm⟩⟩

theorem NamesDerive.exists_token {ns : List Text} (h : NamesDerive ts ns) {x : Text} (hx : x ∈ ns) :
    ∃ t ∈ ts, t.kind = .identifier ∧ t.lexeme = x := by
  induction h with
  | @last t ht =>
    rw [List.mem_singleton.1 hx]
    exact ⟨t, List.mem_singleton_self t, ht, rfl⟩
  | @more t u ts ns ht _ _ ih =>
    rcases List.mem_cons.1 hx with rfl | hx
    · exact ⟨t, List.mem_cons_self, ht, rfl⟩
    · obtain ⟨v, hv, hname⟩ := ih hx
      exact ⟨v, List.mem_cons_of_mem _ (List.mem_cons_of_mem _ hv), hname⟩

theorem GroupDerives.introduces {g : Group} (h : GroupDerives ts g) :
    Introduces ts (numbered scope position g.type i g.names) := by
  cases h with
  | mk hs _ hu =>
    refine ⟨fun s hs => ?_, fun s hmem => ?_⟩
    · rw [(mem_numbered hs).2]
      cases hu <;> simp
    · obtain ⟨t, ht, hname⟩ := hs.exists_token (scope_numbered hmem).2
      exact ⟨t, List.mem_append_left _ ht, hname⟩

theorem VarsDerive.introduces {gs : List Group} (h : VarsDerive ts gs) :
    Introduces ts (gs.flatMap (Group.entries scope)) := by
  induction h with
  | none => exact .none
  | more hg _ _ ih => exact hg.introduces.append (ih.mono (List.subset_cons_self _ _))

theorem FormalsDerive.introduces {gs : List Group} (h : FormalsDerive ts gs) :
    Introduces ts (formalEntries scope i gs) := by
  induction h generalizing i with
  | last hg =>
    rw [formalEntries, formalEntries, List.append_nil]
    exact hg.introduces
  | more hg _ _ ih => exact hg.introduces.append (ih.mono (List.subset_cons_self _ _))

theorem ArgsDerive.introduces {gs : List Group} (h : ArgsDerive ts gs) :
    Introduces ts (formalEntries scope i gs) := by
  cases h with
  | none => exact .none
  | some h => exact h.introduces

theorem ProcedureDerives.introduces {q : Procedure} (h : ProcedureDerives ts q) :
    Introduces ts (q.entries scope) := by
  cases h with
  | @mk p n l r as vs bs _ _ _ _ hn _ ha _ hv _ =>
    have hname : Introduces [n] [{ id := n.lexeme, scope, type := .procedureName }] :=
      .single hn rfl (by simp)
    refine (hname.append (ha.introduces.append hv.introduces)).mono fun t ht => ?_
    simp only [List.mem_append, List.mem_cons] at ht ⊢
    grind

theorem ProceduresDerive.introduces {qs : List Procedure} (h : ProceduresDerive ts qs) :
    Introduces ts (qs.flatMap (Procedure.entries scope)) := by
  induction h with
  | none => exact .none
  | more hq _ _ ih => exact hq.introduces.append (ih.mono (List.subset_cons_self _ _))

/-- What a program declares. -/
theorem ProgramDerives.introduces {p : Program} (h : ProgramDerives ts p) :
    Introduces ts p.entries := by
  cases h with
  | @mk p n s e vs ps bs _ _ _ _ hn _ hv hps _ _ =>
    have hname : Introduces [n] [{ id := n.lexeme, scope := Compiler.externalScope, type := .programName }] :=
      .single hn rfl (by simp)
    refine (hname.append (hv.introduces.append hps.introduces)).mono fun t ht => ?_
    simp only [List.mem_append, List.mem_cons] at ht ⊢
    grind

end

end Source

end OnePass

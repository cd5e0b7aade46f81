import OnePass.Proofs.Source.Declaration

namespace OnePass.Source

/-- The scope declares the identifier with this type. -/
def Declared (Γ : List Symbol) (scope x : Text) (τ : ExprType) : Prop :=
  ∃ s ∈ Γ, s.id = x ∧ s.scope = scope ∧ s.type = τ

/-- The formal parameter of a procedure at this position has this type. -/
def FormalAt (Γ : List Symbol) (callee : Text) (i : Nat) (τ : ExprType) : Prop :=
  ∃ s ∈ Γ, s.scope = callee ∧ s.position = i ∧ s.type = τ

inductive Expr.HasType (Γ : List Symbol) (scope : Text) : Expr → ExprType → Prop where
  | var {x : Text} {τ : ExprType} (hx : Declared Γ scope x τ) : HasType Γ scope (.var x) τ
  | num {n : Nat} (hn : n < wordLimit) : HasType Γ scope (.num n) .int
  | sign {s : Sign} {e : Expr} (he : HasType Γ scope e s.type) : HasType Γ scope (.sign s e) s.type
  | binary {op : Operator} {a b : Expr} (ha : HasType Γ scope a op.operandType)
      (hb : HasType Γ scope b op.operandType) : HasType Γ scope (.binary op a b) op.resultType

/-- A statement of a scope keeps the rules. A call may leave out actual parameters at the end. -/
inductive Stmt.Checks (Γ : List Symbol) (program scope : Text) : Stmt → Prop where
  | skip : Checks Γ program scope .skip
  | seq {a b : Stmt} (ha : Checks Γ program scope a) (hb : Checks Γ program scope b) :
      Checks Γ program scope (.seq a b)
  | assign {x : Text} {e : Expr} {τ : ExprType} (hx : Declared Γ scope x τ)
      (he : e.HasType Γ scope τ) : Checks Γ program scope (.assign x e)
  | call {p : Text} {es : List Expr} {τ : ExprType} (hp : Declared Γ scope p τ)
      (hproc : Declared Γ program p .procedureName)
      (hes : ∀ i e, es[i]? = some e → ∃ τ, FormalAt Γ p i τ ∧ e.HasType Γ scope τ) :
      Checks Γ program scope (.call p es)
  | ite {c : Expr} {a b : Stmt} (hc : c.HasType Γ scope .bool) (ha : Checks Γ program scope a)
      (hb : Checks Γ program scope b) : Checks Γ program scope (.ite c a b)
  | loop {c : Expr} {s : Stmt} (hc : c.HasType Γ scope .bool) (hs : Checks Γ program scope s) :
      Checks Γ program scope (.loop c s)
  | print {e : Expr} {τ : ExprType} (he : e.HasType Γ scope τ) (hτ : τ = .int ∨ τ = .bool) :
      Checks Γ program scope (.print e)

/-- The declarations of a program before the end of these procedures. -/
def Program.visible (p : Program) (qs : List Procedure) : List Symbol :=
  Program.entries { p with procedures := qs }

/-- A program keeps the rules. The body of a procedure sees the procedures up to its own. -/
structure Program.WellFormed (p : Program) : Prop where
  distinct : Distinct p.entries
  procedures : ∀ before q after, p.procedures = before ++ q :: after →
    q.body.Checks (p.visible (before ++ [q])) p.name q.name
  main : p.body.Checks p.entries p.name p.name

/-- What the declarations of a program have in common. -/
structure Regular (Γ : List Symbol) : Prop where
  distinct : Distinct Γ
  formals : ∀ s ∈ Γ, ∀ s' ∈ Γ, s.scope = s'.scope → s.position = s'.position → 0 ≤ s.position →
    s = s'
  typed : ∀ s ∈ Γ, s.type ≠ .garbage

variable {Γ : List Symbol} {scope : Text}

theorem Distinct.eq_of_key (h : Distinct Γ) {s s' : Symbol} (hs : s ∈ Γ) (hs' : s' ∈ Γ)
    (hid : s.id = s'.id) (hscope : s.scope = s'.scope) : s = s' :=
  List.inj_on_of_nodup_map h hs hs' (Prod.ext hid hscope)

theorem Declared.unique {x : Text} {τ τ' : ExprType} (h : Distinct Γ) (hx : Declared Γ scope x τ)
    (hx' : Declared Γ scope x τ') : τ = τ' := by
  obtain ⟨s, hs, hid, hscope, rfl⟩ := hx
  obtain ⟨s', hs', hid', hscope', rfl⟩ := hx'
  rw [h.eq_of_key hs hs' (hid.trans hid'.symm) (hscope.trans hscope'.symm)]

theorem FormalAt.unique {callee : Text} {i : Nat} {τ τ' : ExprType} (h : Regular Γ)
    (hi : FormalAt Γ callee i τ) (hi' : FormalAt Γ callee i τ') : τ = τ' := by
  obtain ⟨s, hs, hscope, hpos, rfl⟩ := hi
  obtain ⟨s', hs', hscope', hpos', rfl⟩ := hi'
  rw [h.formals s hs s' hs' (hscope.trans hscope'.symm) (hpos.trans hpos'.symm) (by omega)]

theorem positions_formalEntries (scope : Text) (i : Nat) (gs : List Group) :
    (formalEntries scope i gs).map Symbol.position =
      (List.range' i (gs.flatMap Group.names).length).map Int.ofNat := by
  induction gs generalizing i with
  | nil => rfl
  | cons g gs ih =>
    have hfirst : (numbered scope (fun j => j) g.type i g.names).map Symbol.position =
        (List.range' i g.names.length).map Int.ofNat := by
      rw [numbered, List.map_map, ← List.zipIdx_map_snd i g.names, List.map_map]
      rfl
    rw [formalEntries, List.map_append, hfirst, ih, List.flatMap_cons, List.length_append,
      ← List.map_append, List.range'_append_1]

/-- The formal parameters of one procedure have different positions. -/
theorem formalEntries_unique {i : Nat} {gs : List Group} {s s' : Symbol}
    (hs : s ∈ formalEntries scope i gs) (hs' : s' ∈ formalEntries scope i gs)
    (hpos : s.position = s'.position) : s = s' := by
  have hnodup : ((formalEntries scope i gs).map Symbol.position).Nodup := by
    rw [positions_formalEntries]
    exact (List.nodup_range' (s := i)).map fun _ _ h => Int.ofNat.inj h
  exact List.inj_on_of_nodup_map hnodup hs hs' hpos

/-- Only formal parameters have a position. -/
theorem Program.formal_of_position {p : Program} {s : Symbol} (hs : s ∈ p.entries)
    (hpos : 0 ≤ s.position) : ∃ q ∈ p.procedures, s ∈ formalEntries q.name 0 q.formals := by
  have hneg : ¬0 ≤ noPosition := by decide
  have hnone : ∀ {scope : Text} {gs : List Group}, s ∉ gs.flatMap (Group.entries scope) := by
    intro scope gs hmem
    rw [(mem_groupEntries hmem).1] at hpos
    exact hneg hpos
  rcases List.mem_cons.1 hs with rfl | hs
  · exact absurd hpos hneg
  rcases List.mem_append.1 hs with hs | hs
  · exact absurd hs hnone
  obtain ⟨q, hq, hs⟩ := List.mem_flatMap.1 hs
  rcases List.mem_cons.1 hs with rfl | hs
  · exact absurd hpos hneg
  rcases List.mem_append.1 hs with hs | hs
  · exact ⟨q, hq, hs⟩
  · exact absurd hs hnone

theorem Program.regular {p : Program} (h : Distinct p.entries)
    (htyped : ∀ s ∈ p.entries, s.type ≠ .garbage) : Regular p.entries := by
  refine ⟨h, fun s hs s' hs' hscope hpos hnonneg => ?_, htyped⟩
  obtain ⟨q, hq, hsq⟩ := Program.formal_of_position hs hnonneg
  obtain ⟨q', hq', hsq'⟩ := Program.formal_of_position hs' (hpos ▸ hnonneg)
  have hname : q.name = q'.name := by
    rw [← (scope_formalEntries hsq).1, ← (scope_formalEntries hsq').1, hscope]
  obtain rfl := Program.procedure_unique h hq hq' hname
  exact formalEntries_unique hsq hsq' hpos

end OnePass.Source

namespace OnePass.SymbolTable

open Source

variable {Γ : List Symbol} {scope x : Text}

theorem declared_typeOf (h : declared ⟨Γ⟩ x scope = true) :
    Declared Γ scope x (typeOf ⟨Γ⟩ x scope) := by
  obtain ⟨s, hs⟩ := Option.isSome_iff_exists.1 h
  have hkey := List.find?_some hs
  simp only [Bool.and_eq_true, beq_iff_eq] at hkey
  refine ⟨s, List.mem_of_find?_eq_some hs, hkey.1, hkey.2, ?_⟩
  rw [typeOf, hs]

theorem declared_of_declared {τ : ExprType} (h : Declared Γ scope x τ) :
    declared ⟨Γ⟩ x scope = true := by
  obtain ⟨s, hs, rfl, rfl, -⟩ := h
  exact declared_iff.2 (List.mem_map.2 ⟨s, hs, rfl⟩)

theorem lookUp_iff {τ : ExprType} (hΓ : Distinct Γ) :
    lookUp ⟨Γ⟩ scope x = some τ ↔ Declared Γ scope x τ := by
  rw [lookUp, Option.ite_none_right_eq_some, Option.some.injEq]
  constructor
  · rintro ⟨hx, rfl⟩
    exact declared_typeOf hx
  · intro h
    have hx := declared_of_declared h
    exact ⟨hx, (declared_typeOf hx).unique hΓ h⟩

/-- A type other than garbage is the type of a declaration. -/
theorem typeOf_iff {τ : ExprType} (hΓ : Distinct Γ) (hτ : τ ≠ .garbage) :
    typeOf ⟨Γ⟩ x scope = τ ↔ Declared Γ scope x τ := by
  constructor
  · rintro rfl
    apply declared_typeOf
    unfold declared
    unfold typeOf at hτ
    split at hτ
    · rename_i hs
      rw [hs]
      rfl
    · exact absurd rfl hτ
  · intro h
    exact (declared_typeOf (declared_of_declared h)).unique hΓ h

/-- A formal parameter is found, unless the answer is garbage. -/
theorem formalAt_typeAt {callee : Text} {i : Nat} (h : typeAt ⟨Γ⟩ callee i ≠ .garbage) :
    FormalAt Γ callee i (typeAt ⟨Γ⟩ callee i) := by
  unfold typeAt at h ⊢
  split at h
  · rename_i s hs
    have hkey := List.find?_some hs
    simp only [Bool.and_eq_true, beq_iff_eq] at hkey
    exact ⟨s, List.mem_of_find?_eq_some hs, hkey.1, hkey.2, rfl⟩
  · exact absurd rfl h

theorem typeAt_of_formalAt {callee : Text} {i : Nat} {τ : ExprType} (hΓ : Regular Γ)
    (h : FormalAt Γ callee i τ) : typeAt ⟨Γ⟩ callee i = τ := by
  have hne : typeAt ⟨Γ⟩ callee i ≠ .garbage := by
    obtain ⟨s, hs, hscope, hpos, -⟩ := h
    unfold typeAt
    split
    · rename_i s' hs'
      exact hΓ.typed s' (List.mem_of_find?_eq_some hs')
    · rename_i hnone
      have hno := List.find?_eq_none.1 hnone s hs
      simp [hscope, hpos] at hno
  exact (formalAt_typeAt hne).unique hΓ h

end OnePass.SymbolTable

namespace OnePass.Source

/-- The numbers of an expression. -/
def Expr.literals : Expr → List Nat
  | var _ => []
  | num n => [n]
  | sign _ e => e.literals
  | binary _ a b => a.literals ++ b.literals

def Stmt.literals : Stmt → List Nat
  | skip => []
  | seq a b => a.literals ++ b.literals
  | assign _ e | print e => e.literals
  | call _ es => es.flatMap Expr.literals
  | ite c a b => c.literals ++ (a.literals ++ b.literals)
  | loop c s => c.literals ++ s.literals

/-- The expression has this type, and its numbers are words. -/
structure Expr.Fits (t : SymbolTable) (scope : Text) (e : Expr) (τ : ExprType) : Prop where
  type : e.type? t scope = some τ
  small : ∀ n ∈ e.literals, n < wordLimit

structure ActualsFit (t : SymbolTable) (scope callee : Text) (i : Int) (es : List Expr) : Prop where
  typed : ActualsTyped t scope callee i es
  small : ∀ n ∈ es.flatMap Expr.literals, n < wordLimit

structure Stmt.Fits (t : SymbolTable) (program scope : Text) (c : Stmt) : Prop where
  typed : c.Typed t program scope
  small : ∀ n ∈ c.literals, n < wordLimit

namespace Expr

variable {t : SymbolTable} {scope : Text} {e a b : Expr} {τ τ' : ExprType}

theorem Fits.unique (h : e.Fits t scope τ) (h' : e.Fits t scope τ') : τ = τ' :=
  Option.some.inj (h.type.symm.trans h'.type)

theorem fits_var {x : Text} : (var x).Fits t scope τ ↔ lookUp t scope x = some τ :=
  ⟨Fits.type, fun h => ⟨h, fun _ hn => by cases hn⟩⟩

theorem fits_num {n : Nat} : (num n).Fits t scope τ ↔ τ = .int ∧ n < wordLimit := by
  constructor
  · intro h
    exact ⟨(Option.some.inj h.type).symm, h.small n (List.mem_singleton_self n)⟩
  · rintro ⟨rfl, hn⟩
    exact ⟨rfl, List.forall_mem_singleton.2 hn⟩

theorem fits_sign {s : Sign} : (sign s e).Fits t scope τ ↔ τ = s.type ∧ e.Fits t scope s.type := by
  constructor
  · intro h
    have htype := h.type
    simp only [type?, Option.ite_none_right_eq_some, Option.some.injEq] at htype
    exact ⟨htype.2.symm, htype.1, h.small⟩
  · rintro ⟨rfl, h⟩
    exact ⟨if_pos h.type, h.small⟩

theorem fits_binary {op : Operator} : (binary op a b).Fits t scope τ ↔
    τ = op.resultType ∧ a.Fits t scope op.operandType ∧ b.Fits t scope op.operandType := by
  constructor
  · intro h
    have htype := h.type
    have hsmall := List.forall_mem_append.1 h.small
    simp only [type?, Option.ite_none_right_eq_some, Option.some.injEq] at htype
    exact ⟨htype.2.symm, ⟨htype.1.1, hsmall.1⟩, htype.1.2, hsmall.2⟩
  · rintro ⟨rfl, ha, hb⟩
    exact ⟨if_pos ⟨ha.type, hb.type⟩, List.forall_mem_append.2 ⟨ha.small, hb.small⟩⟩

end Expr

theorem actualsFit_nil {t : SymbolTable} {scope callee : Text} {i : Int} :
    ActualsFit t scope callee i [] := ⟨trivial, fun _ hn => by cases hn⟩

theorem actualsFit_cons {t : SymbolTable} {scope callee : Text} {i : Int} {e : Expr} {es : List Expr} :
    ActualsFit t scope callee i (e :: es) ↔
      e.Fits t scope (t.typeAt callee i) ∧ ActualsFit t scope callee (i + 1) es := by
  constructor
  · intro h
    have hsmall := List.forall_mem_append.1 h.small
    exact ⟨⟨h.typed.1, hsmall.1⟩, h.typed.2, hsmall.2⟩
  · intro h
    exact ⟨⟨h.1.type, h.2.typed⟩, List.forall_mem_append.2 ⟨h.1.small, h.2.small⟩⟩

namespace Stmt

variable {t : SymbolTable} {program scope x : Text} {e : Expr} {es : List Expr} {a b : Stmt}

theorem fits_skip : skip.Fits t program scope := ⟨trivial, fun _ hn => by cases hn⟩

theorem fits_seq : (seq a b).Fits t program scope ↔
    a.Fits t program scope ∧ b.Fits t program scope := by
  constructor
  · intro h
    have hsmall := List.forall_mem_append.1 h.small
    exact ⟨⟨h.typed.1, hsmall.1⟩, h.typed.2, hsmall.2⟩
  · intro h
    exact ⟨⟨h.1.typed, h.2.typed⟩, List.forall_mem_append.2 ⟨h.1.small, h.2.small⟩⟩

theorem fits_assign : (assign x e).Fits t program scope ↔
    ∃ τ, lookUp t scope x = some τ ∧ e.Fits t scope τ := by
  constructor
  · intro h
    obtain ⟨τ, hx, he⟩ := h.typed
    exact ⟨τ, hx, he, h.small⟩
  · rintro ⟨τ, hx, he⟩
    exact ⟨⟨τ, hx, he.type⟩, he.small⟩

theorem fits_call : (call x es).Fits t program scope ↔
    t.declared x scope = true ∧ t.typeOf x program = .procedureName ∧ ActualsFit t scope x 0 es :=
  ⟨fun h => ⟨h.typed.1, h.typed.2.1, h.typed.2.2, h.small⟩,
    fun h => ⟨⟨h.1, h.2.1, h.2.2.typed⟩, h.2.2.small⟩⟩

theorem fits_ite : (ite e a b).Fits t program scope ↔
    e.Fits t scope .bool ∧ a.Fits t program scope ∧ b.Fits t program scope := by
  constructor
  · intro h
    have hsmall := List.forall_mem_append.1 h.small
    have hbranches := List.forall_mem_append.1 hsmall.2
    exact ⟨⟨h.typed.1, hsmall.1⟩, ⟨h.typed.2.1, hbranches.1⟩, h.typed.2.2, hbranches.2⟩
  · rintro ⟨he, ha, hb⟩
    exact ⟨⟨he.type, ha.typed, hb.typed⟩,
      List.forall_mem_append.2 ⟨he.small, List.forall_mem_append.2 ⟨ha.small, hb.small⟩⟩⟩

theorem fits_loop : (loop e a).Fits t program scope ↔
    e.Fits t scope .bool ∧ a.Fits t program scope := by
  constructor
  · intro h
    have hsmall := List.forall_mem_append.1 h.small
    exact ⟨⟨h.typed.1, hsmall.1⟩, h.typed.2, hsmall.2⟩
  · intro h
    exact ⟨⟨h.1.type, h.2.typed⟩, List.forall_mem_append.2 ⟨h.1.small, h.2.small⟩⟩

theorem fits_print : (print e).Fits t program scope ↔
    ∃ τ, e.Fits t scope τ ∧ τ.isScalar = true := by
  constructor
  · intro h
    obtain ⟨τ, he, hτ⟩ := h.typed
    exact ⟨τ, ⟨he, h.small⟩, hτ⟩
  · rintro ⟨τ, he, hτ⟩
    exact ⟨⟨τ, he.type, hτ⟩, he.small⟩

end Stmt

variable {Γ : List Symbol} {scope : Text}

/-- The types that are computed are those of the rules. -/
theorem Expr.hasType_iff {e : Expr} {τ : ExprType} (hΓ : Distinct Γ) :
    e.HasType Γ scope τ ↔ e.Fits ⟨Γ⟩ scope τ := by
  induction e generalizing τ with
  | var x =>
    rw [fits_var, SymbolTable.lookUp_iff hΓ]
    constructor
    · intro h
      cases h with
      | var hx => exact hx
    · exact .var
  | num n =>
    rw [fits_num]
    constructor
    · intro h
      cases h with
      | num hn => exact ⟨rfl, hn⟩
    · rintro ⟨rfl, hn⟩
      exact .num hn
  | sign s e ih =>
    rw [fits_sign, ← ih]
    constructor
    · intro h
      cases h with
      | sign he => exact ⟨rfl, he⟩
    · rintro ⟨rfl, he⟩
      exact .sign he
  | binary op a b iha ihb =>
    rw [fits_binary, ← iha, ← ihb]
    constructor
    · intro h
      cases h with
      | binary ha hb => exact ⟨rfl, ha, hb⟩
    · rintro ⟨rfl, ha, hb⟩
      exact .binary ha hb

theorem Expr.Fits.ne_garbage {e : Expr} {τ : ExprType} (hΓ : Regular Γ) (h : e.Fits ⟨Γ⟩ scope τ) :
    τ ≠ .garbage := by
  cases (Expr.hasType_iff hΓ.distinct).2 h with
  | var hx =>
    obtain ⟨s, hs, -, -, rfl⟩ := hx
    exact hΓ.typed s hs
  | num _ => decide
  | @sign s _ _ => cases s <;> decide
  | @binary op _ _ _ _ => cases op <;> decide

theorem actualsFit_iff {callee : Text} {i : Nat} {es : List Expr} (hΓ : Regular Γ) :
    ActualsFit ⟨Γ⟩ scope callee i es ↔
      ∀ j e, es[j]? = some e → ∃ τ, FormalAt Γ callee (i + j) τ ∧ e.HasType Γ scope τ := by
  induction es generalizing i with
  | nil => exact ⟨fun _ j e he => by simp at he, fun _ => actualsFit_nil⟩
  | cons e es ih =>
    have hfirst : e.Fits ⟨Γ⟩ scope (SymbolTable.typeAt ⟨Γ⟩ callee i) ↔
        ∃ τ, FormalAt Γ callee i τ ∧ e.HasType Γ scope τ := by
      constructor
      · intro h
        exact ⟨_, SymbolTable.formalAt_typeAt (h.ne_garbage hΓ), (Expr.hasType_iff hΓ.distinct).2 h⟩
      · rintro ⟨τ, hformal, he⟩
        rw [SymbolTable.typeAt_of_formalAt hΓ hformal]
        exact (Expr.hasType_iff hΓ.distinct).1 he
    have hrest := ih (i := i + 1)
    rw [Int.natCast_succ] at hrest
    rw [actualsFit_cons, hfirst, hrest]
    constructor
    · rintro ⟨hfirst, hrest⟩ j e' he'
      cases j with
      | zero =>
        cases he'
        exact hfirst
      | succ j =>
        have hnext := hrest j e' he'
        rwa [Nat.add_right_comm, Nat.add_assoc] at hnext
    · intro h
      refine ⟨h 0 e rfl, fun j e' he' => ?_⟩
      have hnext := h (j + 1) e' he'
      rwa [← Nat.add_assoc, Nat.add_right_comm] at hnext

/-- The rules on a statement can be computed. -/
theorem Stmt.checks_iff {c : Stmt} {program : Text} (hΓ : Regular Γ) :
    c.Checks Γ program scope ↔ c.Fits ⟨Γ⟩ program scope := by
  induction c with
  | skip => exact ⟨fun _ => fits_skip, fun _ => .skip⟩
  | seq a b iha ihb =>
    rw [fits_seq, ← iha, ← ihb]
    constructor
    · intro h
      cases h with
      | seq ha hb => exact ⟨ha, hb⟩
    · exact fun h => .seq h.1 h.2
  | assign x e =>
    simp only [fits_assign, SymbolTable.lookUp_iff hΓ.distinct, ← Expr.hasType_iff hΓ.distinct]
    constructor
    · intro h
      cases h with
      | assign hx he => exact ⟨_, hx, he⟩
    · rintro ⟨τ, hx, he⟩
      exact .assign hx he
  | call x es =>
    have hactuals : ActualsFit ⟨Γ⟩ scope x 0 es ↔
        ∀ j e, es[j]? = some e → ∃ τ, FormalAt Γ x j τ ∧ e.HasType Γ scope τ := by
      simpa using @actualsFit_iff Γ scope x 0 es hΓ
    rw [fits_call, SymbolTable.typeOf_iff hΓ.distinct (by decide), hactuals]
    constructor
    · intro h
      cases h with
      | call hp hproc hes => exact ⟨SymbolTable.declared_of_declared hp, hproc, hes⟩
    · rintro ⟨hp, hproc, hes⟩
      exact .call (SymbolTable.declared_typeOf hp) hproc hes
  | ite e a b iha ihb =>
    rw [fits_ite, ← iha, ← ihb, ← Expr.hasType_iff hΓ.distinct]
    constructor
    · intro h
      cases h with
      | ite he ha hb => exact ⟨he, ha, hb⟩
    · exact fun h => .ite h.1 h.2.1 h.2.2
  | loop e a ih =>
    rw [fits_loop, ← ih, ← Expr.hasType_iff hΓ.distinct]
    constructor
    · intro h
      cases h with
      | loop he ha => exact ⟨he, ha⟩
    · exact fun h => .loop h.1 h.2
  | print e =>
    have hscalar : ∀ τ : ExprType, τ.isScalar = true ↔ τ = .int ∨ τ = .bool := by
      intro τ
      simp [ExprType.isScalar]
    simp only [fits_print, hscalar, ← Expr.hasType_iff hΓ.distinct]
    constructor
    · intro h
      cases h with
      | print he hτ => exact ⟨_, he, hτ⟩
    · rintro ⟨τ, he, hτ⟩
      exact .print he hτ

/-- The bodies of procedures fit. Each sees the declarations before it, and its own. -/
def ProceduresFit (program : Text) : List Symbol → List Procedure → Prop
  | _, [] => True
  | before, q :: qs =>
    q.body.Fits ⟨before ++ q.entries program⟩ program q.name ∧
      ProceduresFit program (before ++ q.entries program) qs

theorem ProceduresFit.typed {program : Text} {qs : List Procedure} (h : ProceduresFit program Γ qs) :
    ProceduresTyped program Γ qs := by
  induction qs generalizing Γ with
  | nil => trivial
  | cons q qs ih => exact ⟨h.1.typed, ih h.2⟩

namespace Program

variable {p : Program} {before qs : List Procedure} {q : Procedure}

/-- The program keeps the rules, by what is computed. -/
structure Fits (p : Program) : Prop where
  distinct : Distinct p.entries
  procedures : ProceduresFit p.name (p.visible []) p.procedures
  main : p.body.Fits ⟨p.entries⟩ p.name p.name

theorem visible_append :
    p.visible (before ++ qs) = p.visible before ++ qs.flatMap (Procedure.entries p.name) := by
  simp [visible, entries]

theorem visible_concat : p.visible (before ++ [q]) = p.visible before ++ q.entries p.name := by
  simp [visible_append]

/-- The same in the order in which a program declares its names: itself, its variables, its procedures. -/
theorem fits_iff : p.Fits ↔
    (Distinct ([⟨p.name, Compiler.externalScope, noPosition, .programName⟩] ++
        p.vars.flatMap (Group.entries p.name) ++ p.procedures.flatMap (Procedure.entries p.name)) ∧
      ProceduresFit p.name ([⟨p.name, Compiler.externalScope, noPosition, .programName⟩] ++
        p.vars.flatMap (Group.entries p.name)) p.procedures) ∧
    p.body.Fits ⟨p.entries⟩ p.name p.name := by
  have hvisible : p.visible [] = [⟨p.name, Compiler.externalScope, noPosition, .programName⟩] ++
      p.vars.flatMap (Group.entries p.name) := by simp [visible, entries]
  have hentries : p.entries = p.visible [] ++ p.procedures.flatMap (Procedure.entries p.name) :=
    @visible_append p [] p.procedures
  rw [← hvisible, ← hentries]
  exact ⟨fun h => ⟨⟨h.distinct, h.procedures⟩, h.main⟩, fun h => ⟨h.1.1, h.1.2, h.2⟩⟩

/-- What a program declares up to some procedure is regular if the names are distinct. -/
theorem regular_visible (hΓ : Distinct (p.visible qs)) (hk : Known (p.visible qs)) :
    Regular (p.visible qs) :=
  Program.regular hΓ fun s hs => (hk s hs).2

theorem proceduresFit_iff (hΓ : Distinct (p.visible (before ++ qs)))
    (hk : Known (p.visible (before ++ qs))) :
    ProceduresFit p.name (p.visible before) qs ↔ ∀ b q a, qs = b ++ q :: a →
      q.body.Checks (p.visible (before ++ b ++ [q])) p.name q.name := by
  induction qs generalizing before with
  | nil => simp [ProceduresFit]
  | cons q qs ih =>
    rw [List.append_cons] at hΓ hk
    -- the body of `q` sees a part of these declarations
    have hall : p.visible (before ++ [q] ++ qs) =
        p.visible (before ++ [q]) ++ qs.flatMap (Procedure.entries p.name) := visible_append
    have hsub : (p.visible (before ++ [q])).Sublist (p.visible (before ++ [q] ++ qs)) := by
      rw [hall]
      exact List.sublist_append_left _ _
    have hfirst := regular_visible (hΓ.sublist hsub) fun s hs => hk s (hsub.subset hs)
    rw [ProceduresFit, ← visible_concat, ← Stmt.checks_iff hfirst, ih hΓ hk]
    constructor
    · rintro ⟨hfirst, hrest⟩ b r a hr
      cases b with
      | nil =>
        cases hr
        simpa using hfirst
      | cons x b =>
        cases hr
        simpa using hrest b r a rfl
    · intro h
      refine ⟨by simpa using h [] q qs rfl, fun b r a hr => ?_⟩
      simpa using h (q :: b) r a (by rw [hr, List.cons_append])

/-- The rules on a program can be computed. -/
theorem wellFormed_iff (hk : Known p.entries) : p.WellFormed ↔ p.Fits := by
  have hprocedures (hΓ : Distinct p.entries) := @proceduresFit_iff p [] p.procedures hΓ hk
  have hmain (hΓ : Distinct p.entries) : p.body.Checks p.entries p.name p.name ↔ _ :=
    Stmt.checks_iff (Program.regular hΓ fun s hs => (hk s hs).2)
  constructor
  · intro h
    exact ⟨h.distinct, (hprocedures h.distinct).2 h.procedures, (hmain h.distinct).1 h.main⟩
  · intro h
    exact ⟨h.distinct, (hprocedures h.distinct).1 h.procedures, (hmain h.distinct).2 h.main⟩

end Program

end OnePass.Source

import OnePass.Compiler.Program

namespace OnePass.Compiler

open Assembly

/-- The action ends well from `g` with an answer and a new generator. -/
def Gen.Gives {α : Type} (x : Gen α) (g : Generator) (a : α) (g' : Generator) : Prop :=
  x.run.run g = (.ok a, g')

namespace Gen

variable {α β : Type} {g g' : Generator}

theorem run_bind (x : Gen α) (f : α → Gen β) (g : Generator) :
    (x >>= f).run.run g =
      match x.run.run g with
      | (.ok a, g') => (f a).run.run g'
      | (.error e, g') => (.error e, g') := by
  simp only [ExceptT.run_bind, StateT.run_bind]
  cases h : x.run.run g with
  | mk r g' => cases r <;> rfl

theorem gives_bind {x : Gen α} {f : α → Gen β} {b : β} :
    (x >>= f).Gives g b g' ↔ ∃ a h, x.Gives g a h ∧ (f a).Gives h b g' := by
  unfold Gives
  rw [run_bind]
  constructor
  · intro hx
    cases h : x.run.run g with
    | mk r g1 =>
      rw [h] at hx
      cases r with
      | ok a => exact ⟨a, g1, rfl, hx⟩
      | error e => cases hx
  · rintro ⟨a, g1, hx, hf⟩
    rw [hx]
    exact hf

theorem gives_pure {a b : α} : (pure a : Gen α).Gives g b g' ↔ a = b ∧ g = g' := by
  change (Except.ok a, g) = (Except.ok b, g') ↔ _
  constructor
  · intro h
    cases h
    exact ⟨rfl, rfl⟩
  · rintro ⟨rfl, rfl⟩
    rfl

theorem gives_get {a : Generator} : (get : Gen Generator).Gives g a g' ↔ g = a ∧ g = g' := by
  change (Except.ok g, g) = (Except.ok a, g') ↔ _
  constructor
  · intro h
    cases h
    exact ⟨rfl, rfl⟩
  · rintro ⟨rfl, rfl⟩
    rfl

theorem gives_modifyGet {f : Generator → α × Generator} {a : α} :
    (modifyGet f : Gen α).Gives g a g' ↔ (f g).1 = a ∧ (f g).2 = g' := by
  change (Except.ok (f g).1, (f g).2) = (Except.ok a, g') ↔ _
  constructor
  · intro h
    cases h
    exact ⟨rfl, rfl⟩
  · rintro ⟨rfl, rfl⟩
    rfl

theorem gives_modify {f : Generator → Generator} {u : Unit} :
    (modify f : Gen Unit).Gives g u g' ↔ f g = g' := by
  change (Except.ok (), f g) = (Except.ok u, g') ↔ _
  constructor
  · intro h
    cases h
    rfl
  · rintro rfl
    rfl

theorem gives_set {u : Unit} {h : Generator} : (set h : Gen Unit).Gives g u g' ↔ h = g' := by
  change (Except.ok (), h) = (Except.ok u, g') ↔ _
  constructor
  · intro h
    cases h
    rfl
  · rintro rfl
    rfl

theorem not_gives_throw {e : RegisterError} {a : α} : ¬(throw e : Gen α).Gives g a g' := by
  intro h
  cases h

theorem gives_discard {x : Gen α} {u : Unit} :
    (discard x).Gives g u g' ↔ ∃ a, x.Gives g a g' := by
  change (x >>= fun _ => pure ()).Gives g u g' ↔ _
  simp only [gives_bind, gives_pure]
  constructor
  · rintro ⟨a, h, hx, -, rfl⟩
    exact ⟨a, hx⟩
  · rintro ⟨a, hx⟩
    exact ⟨a, g', hx, trivial, rfl⟩

theorem gives_put {l : Line} {u : Unit} :
    (put l).Gives g u g' ↔ { g with listing := g.listing.put l } = g' := gives_modify

theorem gives_newValue {o : Operand} {v : Nat} :
    (newValue o).Gives g v g' ↔
      g.operands.size = v ∧ { g with operands := g.operands.push o } = g' := gives_modifyGet

theorem gives_newLabel {stem : String} {name : Text} :
    (newLabel stem).Gives g name g' ↔
      (g.listing.newLabel stem).1 = name ∧
        { g with listing := (g.listing.newLabel stem).2 } = g' := gives_modifyGet

theorem gives_newSpill {name : Text} :
    newSpill.Gives g name g' ↔
      g.listing.newSpill.1 = name ∧ { g with listing := g.listing.newSpill.2 } = g' :=
  gives_modifyGet

end Gen

/-- Where a value is. -/
def Generator.operandOf (g : Generator) (v : Nat) : Operand := g.operands[v]?.getD (.immediate 0)

namespace Gen

variable {α : Type} {g g' : Generator}

theorem gives_operand {v : Nat} {o : Operand} :
    (operand v).Gives g o g' ↔ g.operandOf v = o ∧ g = g' := by
  simp only [operand, gives_bind, gives_get, gives_pure]
  constructor
  · rintro ⟨_, _, ⟨rfl, rfl⟩, h⟩
    exact h
  · intro h
    exact ⟨g, g, ⟨rfl, rfl⟩, h⟩

theorem gives_setOperand {v : Nat} {o : Operand} {u : Unit} :
    (setOperand v o).Gives g u g' ↔
      { g with operands := g.operands.setIfInBounds v o } = g' := gives_modify

end Gen

/-- The compilation step ends well from `s` with an answer and a new state. -/
def Pass.Gives {α : Type} (p : Pass α) (trace : Bool) (s : State) (a : α) (s' : State) : Prop :=
  p.run { trace } s = (.ok a, s')

namespace Pass

variable {α β : Type} {trace : Bool} {s s' : State}

theorem run_bind (x : Pass α) (f : α → Pass β) (o : Options) (s : State) :
    (x >>= f).run o s =
      match x.run o s with
      | (.ok a, s') => (f a).run o s'
      | (.error e, s') => (.error e, s') := by
  change ((x o >>= fun a => f a o : ExceptT CompileError (StateM State) β)).run.run s =
    match (x o).run.run s with
      | (.ok a, s') => (f a).run o s'
      | (.error e, s') => (.error e, s')
  simp only [ExceptT.run_bind, StateT.run_bind]
  cases h : (x o).run.run s with
  | mk r g' => cases r <;> rfl

theorem gives_bind {x : Pass α} {f : α → Pass β} {b : β} :
    (x >>= f).Gives trace s b s' ↔ ∃ a u, x.Gives trace s a u ∧ (f a).Gives trace u b s' := by
  unfold Gives
  rw [run_bind]
  constructor
  · intro hx
    cases h : x.run { trace } s with
    | mk r u =>
      rw [h] at hx
      cases r with
      | ok a => exact ⟨a, u, rfl, hx⟩
      | error e => cases hx
  · rintro ⟨a, u, hx, hf⟩
    rw [hx]
    exact hf

theorem gives_pure {a b : α} : (pure a : Pass α).Gives trace s b s' ↔ a = b ∧ s = s' := by
  change (Except.ok a, s) = (Except.ok b, s') ↔ _
  constructor
  · intro h
    cases h
    exact ⟨rfl, rfl⟩
  · rintro ⟨rfl, rfl⟩
    rfl

theorem gives_get {a : State} : (get : Pass State).Gives trace s a s' ↔ s = a ∧ s = s' := by
  change (Except.ok s, s) = (Except.ok a, s') ↔ _
  constructor
  · intro h
    cases h
    exact ⟨rfl, rfl⟩
  · rintro ⟨rfl, rfl⟩
    rfl

theorem gives_set {u : Unit} {r : State} : (set r : Pass Unit).Gives trace s u s' ↔ r = s' := by
  change (Except.ok (), r) = (Except.ok u, s') ↔ _
  constructor
  · intro h
    cases h
    rfl
  · rintro rfl
    rfl

theorem gives_modify {f : State → State} {u : Unit} :
    (modify f : Pass Unit).Gives trace s u s' ↔ f s = s' := by
  change (Except.ok (), f s) = (Except.ok u, s') ↔ _
  constructor
  · intro h
    cases h
    rfl
  · rintro rfl
    rfl

theorem not_gives_throw {e : CompileError} {a : α} : ¬(throw e : Pass α).Gives trace s a s' := by
  intro h
  cases h

theorem gives_lookahead {a : Token} :
    lookahead.Gives trace s a s' ↔ s.lookahead = a ∧ s = s' := by
  change (Except.ok s.lookahead, s) = (Except.ok a, s') ↔ _
  constructor
  · intro h
    cases h
    exact ⟨rfl, rfl⟩
  · rintro ⟨rfl, rfl⟩
    rfl

theorem gives_at {k : Kind} {a : Attr} {b : Bool} :
    (at? k a).Gives trace s b s' ↔ s.lookahead.is k a = b ∧ s = s' := by
  change (Except.ok (s.lookahead.is k a), s) = (Except.ok b, s') ↔ _
  constructor
  · intro h
    cases h
    exact ⟨rfl, rfl⟩
  · rintro ⟨rfl, rfl⟩
    rfl

theorem not_gives_fail {c : SemanticCause} {t : Token} {a : α} :
    ¬(fail c t : Pass α).Gives trace s a s' := not_gives_throw

theorem gives_generate {x : Gen α} {a : α} :
    (generate x).Gives trace s a s' ↔ ∃ g, x.Gives s.current a g ∧ s.setCurrent g = s' := by
  simp only [generate, gives_bind, gives_get, gives_set]
  constructor
  · rintro ⟨_, _, ⟨rfl, rfl⟩, _, _, rfl, h⟩
    cases hx : x.run.run s.current with
    | mk r g =>
      rw [hx] at h
      cases r with
      | ok b =>
        obtain ⟨rfl, rfl⟩ := gives_pure.1 h
        exact ⟨g, hx, rfl⟩
      | error e => exact absurd h not_gives_throw
  · rintro ⟨g, hx, rfl⟩
    refine ⟨s, s, ⟨rfl, rfl⟩, (), s.setCurrent g, ?_, ?_⟩
    · rw [hx]
    · rw [hx]
      exact gives_pure.2 ⟨rfl, rfl⟩

theorem gives_within {start : State → State} {finish : State → State → State} {p : Pass α} {a : α} :
    (within start finish p).Gives trace s a s' ↔
      ∃ u, p.Gives trace (start s) a u ∧ finish s u = s' := by
  change ((p.run { trace } (start s)).1, finish s (p.run { trace } (start s)).2) = _ ↔ _
  unfold Gives
  constructor
  · intro h
    obtain ⟨h1, h2⟩ := Prod.mk.inj h
    exact ⟨_, Prod.ext h1 rfl, h2⟩
  · rintro ⟨u, h, rfl⟩
    rw [h]

theorem gives_check {type : ExprType} {vs : List Value} {u : Unit} :
    (check type vs).Gives trace s u s' ↔ (∀ v ∈ vs, v.type = type) ∧ s = s' := by
  induction vs with
  | nil =>
    simp only [check, gives_pure]
    simp
  | cons v vs ih =>
    simp only [check]
    split
    · rename_i hv
      rw [ih]
      simp [hv]
    · rename_i hv
      simp [not_gives_fail, hv]

end Pass

end OnePass.Compiler

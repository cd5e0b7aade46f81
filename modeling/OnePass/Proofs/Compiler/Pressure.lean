import OnePass.Proofs.Compiler.Allocation

namespace OnePass.Compiler

open Assembly Source

namespace Gen

variable {declared : Text → Prop} {g g' : Generator} {used : List Nat} {v left right : Nat}

theorem release_gives (hg : g.Holding used) (hv : v ∈ used) : ∃ g', (release v).Gives g () g' := by
  by_cases hr : ∃ r, g.operandOf v = .register r
  · obtain ⟨r, hr⟩ := hr
    obtain ⟨-, i, rfl, hbusy⟩ := hg.register hv hr
    exact ⟨_, release_of_register hr hbusy⟩
  · exact ⟨g, release_of_other fun r hv => hr ⟨r, hv⟩⟩

theorem spill_gives (hg : g.Holding used) (hv : v ∈ g.live) : ∃ g', (spill v).Gives g () g' := by
  obtain ⟨i, hi, hbusy⟩ := hg.held v hv
  have hmoved : ∃ g', (do
      let name ← newSpill
      put (.move (.memory name) (.register i.val))
      release v
      setOperand v (.memory name) : Gen Unit).Gives g () g' := by
    simp only [gives_bind, gives_newSpill, gives_put, gives_setOperand]
    exact ⟨_, _, _, ⟨rfl, rfl⟩, (), _, rfl, (), _, release_of_register hi hbusy, rfl⟩
  obtain ⟨g', h⟩ := hmoved
  exact ⟨g', gives_bind.2 ⟨_, g, gives_operand.2 ⟨hi, rfl⟩, h⟩⟩

theorem makeRoom_gives (hg : g.Sound declared used) :
    ∃ g', makeRoom.Gives g () g' ∧ ∃ i : Fin 3, g'.pool.busy.get i = false := by
  cases hroom : g.pool.available with
  | true =>
    refine ⟨g, gives_bind.2 ⟨g, g, gives_get.2 ⟨rfl, rfl⟩, ?_⟩, RegisterPool.exists_free hroom⟩
    simp only [hroom, Bool.not_true, Bool.false_eq_true, if_false]
    exact gives_pure.2 ⟨rfl, rfl⟩
  | false =>
    have hbusy := RegisterPool.busy_of_not_available hroom
    -- no register is free, so the one that can be had belongs to a live value
    obtain ⟨w, ws, hlive⟩ : ∃ w ws, g.live = w :: ws := by
      obtain ⟨j, hj | ⟨w, hw, -⟩⟩ := hg.holding.roomy
      · simp [hbusy j] at hj
      · exact List.exists_cons_of_ne_nil (List.ne_nil_of_mem hw)
    have hw : w ∈ g.live := by simp [hlive]
    obtain ⟨g', hspill⟩ := spill_gives hg.holding hw
    obtain ⟨i, -, -, -, -, -, -, -, hpool⟩ := spill_code hg hw hspill
    refine ⟨g', gives_bind.2 ⟨g, g, gives_get.2 ⟨rfl, rfl⟩, ?_⟩, i, ?_⟩
    · simp only [hroom, hlive, Bool.not_false, if_true]
      exact hspill
    · rw [hpool, RegisterPool.get_set, if_pos rfl]

theorem load_gives (hfree : ∃ i : Fin 3, g.pool.busy.get i = false) (v : Nat) (o : Operand) :
    ∃ r g', (load v o).Gives g r g' := by
  obtain ⟨i, -, hclaim⟩ := claim_gives hfree
  simp only [load, gives_bind, gives_put, gives_setOperand, gives_modify, gives_pure]
  exact ⟨_, _, _, _, hclaim, (), _, rfl, (), _, rfl, (), _, rfl, rfl, rfl⟩

theorem materialize_gives (hg : g.Sound declared used) (v : Nat) :
    ∃ r g', (materialize v).Gives g r g' := by
  rw [materialize_eq]
  have hbring : ∃ r g', (bring v (g.operandOf v)).Gives g r g' := by
    obtain ⟨g₁, hroom, hfree⟩ := makeRoom_gives hg
    obtain ⟨r, g₂, hload⟩ := load_gives hfree v (g.operandOf v)
    cases ho : g.operandOf v with
    | register q => exact ⟨q, g, gives_pure.2 ⟨rfl, rfl⟩⟩
    | immediate n | memory x =>
      rw [ho] at hload
      exact ⟨r, g₂, gives_bind.2 ⟨(), g₁, hroom, hload⟩⟩
  obtain ⟨r, g', h⟩ := hbring
  exact ⟨r, g', gives_bind.2 ⟨_, g, gives_operand.2 ⟨rfl, rfl⟩, h⟩⟩

variable (hD : ∀ x, declared x → x.IsIdentifier)

include hD

theorem combine_gives (hg : g.Sound declared (right :: left :: used)) (m : Mnemonic) :
    ∃ r g', (combine m left right).Gives g r g' := by
  obtain ⟨r, g₁, h₁⟩ := materialize_gives hg left
  obtain ⟨i, ls, -, hs, -⟩ := materialize_code hg hD (by simp) h₁
  have hput := hs.put (.binary m r (g₁.operandOf right))
  obtain ⟨g₂, h₂⟩ := release_gives hput.holding List.mem_cons_self
  simp only [combine, gives_bind, gives_operand, gives_put, gives_pure]
  exact ⟨r, g₂, r, g₁, h₁, _, g₁, ⟨rfl, rfl⟩, (), _, rfl, (), g₂, h₂, rfl, rfl⟩

omit hD in
/-- A row of tests is written in any state. -/
theorem tests_give (g : Generator) (r : Int) (x : Text) (ms : List Mnemonic) :
    ∃ g', (forIn ms PUnit.unit fun m _ => do
      put (.branch m r x)
      pure (ForInStep.yield PUnit.unit) : Gen PUnit).Gives g PUnit.unit g' := by
  induction ms generalizing g with
  | nil => exact ⟨g, gives_pure.2 ⟨rfl, rfl⟩⟩
  | cons m ms ih =>
    obtain ⟨g', h⟩ := ih { g with listing := g.listing.put (.branch m r x) }
    refine ⟨g', ?_⟩
    simp only [List.forIn_cons, gives_bind, gives_pure, gives_put]
    exact ⟨_, _, ⟨(), _, rfl, rfl, rfl⟩, h⟩

theorem disjoin_gives (hg : g.Sound declared (right :: left :: used)) :
    ∃ g', (disjoin left right).Gives g () g' := by
  obtain ⟨r, g₁, h₁⟩ := combine_gives hD hg .add
  simp only [disjoin, gives_bind, gives_newLabel, gives_put]
  exact ⟨_, r, g₁, h₁, _, _, ⟨rfl, rfl⟩, (), _, rfl, (), _, rfl, rfl⟩

theorem compare_gives (hg : g.Sound declared (right :: left :: used)) (op : Attr) :
    ∃ g', (compare op left right).Gives g () g' := by
  obtain ⟨r, g₁, h₁⟩ := combine_gives hD hg .sub
  simp only [compare, gives_bind, gives_newLabel, gives_put]
  obtain ⟨g₄, h₄⟩ := tests_give _ r _ (refutations op)
  exact ⟨_, r, g₁, h₁, _, _, ⟨rfl, rfl⟩, _, _, ⟨rfl, rfl⟩, _, g₄, h₄, (), _, rfl, (), _, rfl, (), _, rfl,
    (), _, rfl, rfl⟩

end Gen

end OnePass.Compiler

namespace OnePass.Source

open Compiler Assembly

variable {declared : Text → Prop} {g : Generator} {used : List Nat} {v left right : Nat}

theorem Sign.lower_gives (hg : g.Sound declared used) (s : Sign) (v : Nat) :
    ∃ g', (s.lower v).Gives g () g' := by
  obtain ⟨r, g₁, h₁⟩ := Gen.materialize_gives hg v
  cases s with
  | plus => exact ⟨g, Gen.gives_pure.2 ⟨rfl, rfl⟩⟩
  | minus | not => exact ⟨_, Gen.gives_bind.2 ⟨r, g₁, h₁, Gen.gives_put.2 rfl⟩⟩

theorem Operator.lower_gives (hD : ∀ x, declared x → x.IsIdentifier)
    (hg : g.Sound declared (right :: left :: used)) (op : Operator) :
    ∃ g', (op.lower left right).Gives g () g' := by
  have hcombine : ∀ m, ∃ g', (discard (Gen.combine m left right)).Gives g () g' := by
    intro m
    obtain ⟨r, g', h⟩ := Gen.combine_gives hD hg m
    exact ⟨g', Gen.gives_discard.2 ⟨r, h⟩⟩
  cases op with
  | times | slash | and | plus | minus => exact hcombine _
  | or => exact Gen.disjoin_gives hD hg
  | equal | notEqual | greater | greaterEqual | less | lessEqual => exact Gen.compare_gives hD hg _

end OnePass.Source

import OnePass.Proofs.Compiler.Emission

namespace OnePass

namespace RegisterPool

variable {p : RegisterPool}

theorem inUse_fin (i : Fin 3) : p.inUse i.val = p.busy.get i := by
  change ((i.val : Int) == 3 || (decide (0 ≤ (i.val : Int)) && p.busy[(i.val : Int).toNat]? == some true)) =
    p.busy[i.val]
  have hthree : ((i.val : Int) == 3) = false := by simp; omega
  have hget : p.busy[i.val]? = some p.busy[i.val] := Vector.getElem?_eq_getElem i.isLt
  rw [hthree, Int.toNat_natCast, hget]
  cases p.busy[i.val] <;> simp

/-- Only the three registers of the pool and the reserved one are ever in use. -/
theorem exists_of_inUse {r : Int} (h : p.inUse r = true) (hr : r ≠ 3) :
    ∃ i : Fin 3, r = i.val ∧ p.busy.get i = true := by
  have hpos : 0 ≤ r ∧ p.busy[r.toNat]? = some true := by
    simpa [inUse, hr] using h
  obtain ⟨hlt, -⟩ := Vector.getElem?_eq_some_iff.1 hpos.2
  have heq : r = ((⟨r.toNat, hlt⟩ : Fin 3).val : Int) := by
    simp only
    omega
  refine ⟨⟨r.toNat, hlt⟩, heq, ?_⟩
  rw [← inUse_fin, ← heq]
  exact h

theorem free_of_busy {i : Fin 3} (h : p.busy.get i = true) :
    p.free i.val = .ok ⟨p.busy.setIfInBounds i false⟩ := by
  have hget : p.busy[(i.val : Int).toNat]? = some true := by
    rw [Int.toNat_natCast, Vector.getElem?_eq_getElem i.isLt]
    exact congrArg some h
  unfold free
  rw [if_pos ⟨by omega, hget⟩, Int.toNat_natCast]

theorem allocate_of_free {i : Fin 3} (h : p.busy.get i = false) :
    ∃ r p', p.allocate = .ok (r, p') := by
  unfold allocate
  split
  · exact ⟨_, _, rfl⟩
  · rename_i hnone
    have hbusy := List.find?_eq_none.1 hnone i (List.mem_finRange i)
    exact absurd (show (!p.busy.get i) = true by rw [h]; rfl) hbusy

theorem exists_free (h : p.available = true) : ∃ i : Fin 3, p.busy.get i = false := by
  obtain ⟨b, hb, hfree⟩ := List.any_eq_true.1 h
  obtain ⟨i, hi, rfl⟩ := Vector.mem_iff_getElem.1 (Vector.mem_toList_iff.1 hb)
  refine ⟨⟨i, hi⟩, ?_⟩
  change p.busy[i] = false
  simpa using hfree

end RegisterPool

namespace Assembly

def Operand.register? : Operand → Option Int
  | register r => some r
  | _ => none

/-- The registers that a line names. -/
def Line.registers : Line → List Int
  | instruction _ os => os.filterMap Operand.register?
  | _ => []

/-- The registers that can be handed out. -/
def poolRegisters : List Int := [0, 1, 2]

@[simp] theorem mem_poolRegisters (i : Fin 3) : (i.val : Int) ∈ poolRegisters := by
  revert i
  decide

namespace Line

def Pooled (l : Line) : Prop := ∀ r ∈ l.registers, r ∈ poolRegisters

theorem Pooled.label (x : Text) : (Line.label x).Pooled := fun _ h => by cases h

theorem Pooled.data (x : Text) (n : Word) : (Line.data x n).Pooled := fun _ h => by cases h

theorem Pooled.instruction {m : Mnemonic} {os : List Operand}
    (h : ∀ r, .register r ∈ os → r ∈ poolRegisters) : (Line.instruction m os).Pooled := by
  intro r hr
  obtain ⟨o, ho, hor⟩ := List.mem_filterMap.1 hr
  cases o with
  | register q =>
    cases hor
    exact h r ho
  | immediate n => cases hor
  | memory x => cases hor

end Line

end Assembly

namespace Compiler

open Assembly

namespace Generator

/-- The live values are different and hold registers, and these are the registers in use. -/
structure Disciplined (g : Generator) : Prop where
  nodup : g.live.Nodup
  held : ∀ v ∈ g.live, ∃ r, g.operandOf v = .register r
  inUse_iff : ∀ r, (∃ v ∈ g.live, g.operandOf v = .register r) ↔ g.pool.inUse r = true ∧ r ≠ 3

/-- No value is live and all registers of the pool are free. -/
def AtRest (g : Generator) : Prop := g.live = [] ∧ ∀ r ∈ poolRegisters, g.pool.inUse r = false

/-- All lines written so far name registers of the pool. -/
structure Steady (g : Generator) : Prop extends g.Disciplined where
  pooled : ∀ l ∈ g.listing.written, l.Pooled

/-- What holds of a generator while these values are in use. -/
structure Fit (used : List Nat) (g : Generator) : Prop where
  nodup : used.Nodup
  holding : g.Holding used
  owned : g.Owned
  accepting : g.listing.Accepting
  pooled : ∀ l ∈ g.listing.written, l.Pooled

variable {g g' : Generator} {used : List Nat} {v : Nat}

theorem Holding.disciplined (h : g.Holding used) (ho : g.Owned) : g.Disciplined := by
  refine ⟨h.nodup, fun v hv => ((h.live_iff v).1 hv).2, fun r => ⟨?_, ?_⟩⟩
  · intro ⟨v, hv, hr⟩
    obtain ⟨i, hi, hbusy⟩ := h.held v hv
    rw [hr] at hi
    cases hi
    rw [RegisterPool.inUse_fin]
    exact ⟨hbusy, by omega⟩
  · intro ⟨hr, hne⟩
    obtain ⟨i, rfl, hbusy⟩ := RegisterPool.exists_of_inUse hr hne
    exact ho i hbusy

namespace Fit

theorem steady (h : g.Fit used) : g.Steady := ⟨h.holding.disciplined h.owned, h.pooled⟩

theorem empty : Fit [] {} :=
  ⟨List.nodup_nil, holding_empty, owned_empty, ⟨rfl, rfl, rfl⟩, by simp⟩

theorem atRest (h : g.Fit []) : g.AtRest := by
  have hlive : g.live = [] := by
    rw [List.eq_nil_iff_forall_not_mem]
    intro v hv
    cases ((h.holding.live_iff v).1 hv).1
  refine ⟨hlive, fun r hr => ?_⟩
  by_contra hbusy
  have hne : r ≠ 3 := by
    intro heq
    rw [heq] at hr
    exact absurd hr (by decide)
  obtain ⟨v, hv, -⟩ := (h.steady.inUse_iff r).2 ⟨by simpa using hbusy, hne⟩
  rw [hlive] at hv
  cases hv

/-- Only the lines have changed, by one that names registers of the pool. -/
theorem put (h : g.Fit used) {l : Line} (hl : l.Pooled) :
    Fit used { g with listing := g.listing.put l } := by
  rw [Listing.put_eq h.accepting]
  refine ⟨h.nodup, h.holding.congr rfl rfl rfl, h.owned.congr rfl rfl rfl, h.accepting, ?_⟩
  intro k hk
  rcases Array.mem_push.1 hk with hk | rfl
  · exact h.pooled k hk
  · exact hl

/-- A value in use never names a register outside the pool. -/
theorem register (h : g.Fit used) (hv : v ∈ used) {r : Int} (hr : g.operandOf v = .register r) :
    r ∈ poolRegisters := by
  obtain ⟨-, i, rfl, -⟩ := h.holding.register hv hr
  exact mem_poolRegisters i

end Fit

end Generator

namespace Gen

open Generator

/-- If no register is free, the newest value gives up its own. -/
def makeRoom : Gen Unit := do
  let g ← get
  if !g.pool.available then
    match g.live with
    | v :: _ => spill v
    | [] => pure ()

def claim : Gen Int := do
  let g ← get
  match g.pool.allocate with
  | .ok (r, pool) =>
    set { g with pool }
    return r
  | .error e => throw e

/-- Moves an operand into a free register, which becomes the register of the value. -/
def load (v : Nat) (o : Operand) : Gen Int := do
  let r ← claim
  put (.move (.register r) o)
  setOperand v (.register r)
  modify fun g => { g with live := v :: g.live }
  return r

/-- Brings a value that stands at this operand into a register. -/
def bring (v : Nat) : Operand → Gen Int
  | .register r => pure r
  | o => makeRoom >>= fun _ => load v o

theorem allocate_eq : allocate = makeRoom >>= fun _ => claim := by
  unfold allocate makeRoom
  rw [bind_assoc]
  congr 1
  funext g
  dsimp only
  split
  · cases g.live <;> rfl
  · rfl

theorem materialize_eq (v : Nat) : materialize v = operand v >>= bring v := by
  unfold materialize
  congr 1
  funext o
  cases o with
  | register r => rfl
  | immediate n | memory x =>
    dsimp only
    rw [allocate_eq, bind_assoc]
    rfl

/-- The steps of code generation. Moving a value into a free register is one of them. -/
inductive Elementary : {α : Type} → Gen α → Prop where
  | pure {α : Type} (a : α) : Elementary (pure a)
  | get : Elementary get
  | put (l : Line) : Elementary (put l)
  | newLabel (stem : String) : Elementary (newLabel stem)
  | newSpill : Elementary newSpill
  | newValue (o : Operand) : Elementary (newValue o)
  | setOperand (v : Nat) (o : Operand) : Elementary (setOperand v o)
  | release (v : Nat) : Elementary (release v)
  | load (v : Nat) (o : Operand) : Elementary (load v o)

/-- The action goes step by step through generators with this property. -/
inductive Throughout (I : Generator → Prop) : {α : Type} → Gen α → Generator → Prop where
  | step {α : Type} {x : Gen α} {g : Generator} (hx : x.Elementary) (hg : I g)
      (hg' : I (x.run.run g).2) : Throughout I x g
  | bind {α β : Type} {x : Gen α} {f : α → Gen β} {g : Generator} (hx : Throughout I x g)
      (hf : ∀ a g', x.Gives g a g' → Throughout I (f a) g') : Throughout I (x >>= f) g

variable {α β : Type} {I I' : Generator → Prop} {x : Gen α} {f : α → Gen β} {g g' : Generator}
  {used : List Nat} {v : Nat}

theorem Throughout.initial (h : x.Throughout I g) : I g := by
  induction h with
  | step _ hg _ => exact hg
  | bind _ _ ihx _ => exact ihx

/-- The action also ends in a generator with the property, with or without success. -/
theorem Throughout.final (h : x.Throughout I g) : I (x.run.run g).2 := by
  induction h with
  | step _ _ hg' => exact hg'
  | @bind α β x f g hx hf ihx ihf =>
    rw [run_bind]
    cases hrun : x.run.run g with
    | mk r g1 =>
      rw [hrun] at ihx
      cases r with
      | ok a => exact ihf a g1 hrun
      | error e => exact ihx

theorem Throughout.mono (h : x.Throughout I g) (hI : ∀ g, I g → I' g) : x.Throughout I' g := by
  induction h with
  | step hx hg hg' => exact .step hx (hI _ hg) (hI _ hg')
  | bind _ _ ihx ihf => exact .bind ihx ihf

/-- The action keeps the registers in order all along, does not fail, and gives what is asked for. -/
def Works (x : Gen α) (g : Generator) (R : α → Generator → Prop) : Prop :=
  x.Throughout Steady g ∧ ∃ a g', x.Gives g a g' ∧ R a g'

namespace Works

variable {R : α → Generator → Prop} {Q : β → Generator → Prop}

theorem mono {R' : α → Generator → Prop} (h : x.Works g R) (hR : ∀ a g', R a g' → R' a g') :
    x.Works g R' := by
  obtain ⟨ht, a, g', hx, hr⟩ := h
  exact ⟨ht, a, g', hx, hR a g' hr⟩

theorem bind (hx : x.Works g R) (hf : ∀ a g', R a g' → (f a).Works g' Q) : (x >>= f).Works g Q := by
  obtain ⟨ht, a, g1, h1, hr⟩ := hx
  obtain ⟨-, b, g2, h2, hq⟩ := hf a g1 hr
  refine ⟨.bind ht fun a' g' h' => ?_, b, g2, gives_bind.2 ⟨a, g1, h1, h2⟩, hq⟩
  have heq : (Except.ok a, g1) = (Except.ok a', g') := h1.symm.trans h'
  cases heq
  exact (hf a g1 hr).1

theorem step {a : α} (hx : x.Elementary) (hg : g.Steady) (h : x.Gives g a g') (hg' : g'.Steady)
    (hr : R a g') : x.Works g R := by
  refine ⟨.step hx hg ?_, a, g', h, hr⟩
  have hrun : x.run.run g = (.ok a, g') := h
  rw [hrun]
  exact hg'

theorem of_pure {a : α} (hg : g.Steady) (hr : R a g) : (Pure.pure a : Gen α).Works g R :=
  .step (.pure a) hg (gives_pure.2 ⟨rfl, rfl⟩) hg hr

/-- One step whose result is known, and the rest. -/
theorem next {a : α} (hx : x.Elementary) (hg : g.Steady) (h : x.Gives g a g')
    (hf : (f a).Works g' Q) : (x >>= f).Works g Q := by
  refine (step (R := fun b k => b = a ∧ k = g') hx hg h hf.1.initial ⟨rfl, rfl⟩).bind ?_
  intro b k ⟨hb, hk⟩
  rw [hb, hk]
  exact hf

theorem get_bind {f : Generator → Gen β} (hf : (f g).Works g Q) :
    (MonadState.get >>= f).Works g Q :=
  next .get hf.1.initial (gives_get.2 ⟨rfl, rfl⟩) hf

theorem operand_bind {f : Operand → Gen β} (hf : (f (g.operandOf v)).Works g Q) :
    (operand v >>= f).Works g Q := by
  rw [operand, bind_assoc]
  refine get_bind ?_
  rw [pure_bind]
  exact hf

end Works

theorem put_works (h : g.Fit used) {l : Line} (hl : l.Pooled) :
    (put l).Works g fun _ => Fit used :=
  .step (a := ()) (.put l) h.steady (gives_put.2 rfl) (h.put hl).steady (h.put hl)

theorem newLabel_works (h : g.Fit used) (stem : String) :
    (newLabel stem).Works g fun _ => Fit used := by
  have hg' : Fit used { g with listing := (g.listing.newLabel stem).2 } :=
    ⟨h.nodup, h.holding.congr rfl rfl rfl, h.owned.congr rfl rfl rfl, h.accepting, h.pooled⟩
  exact .step (.newLabel stem) h.steady (gives_newLabel.2 ⟨rfl, rfl⟩) hg'.steady hg'

theorem newValue_works (h : g.Fit used) {o : Operand} (ho : ∀ r, o ≠ .register r) :
    (newValue o).Works g fun v => Fit (v :: used) := by
  have hnew : g.operands.size ∉ used := fun hm => Nat.lt_irrefl _ (h.holding.lt _ hm)
  have hg' : Fit (g.operands.size :: used) { g with operands := g.operands.push o } :=
    ⟨List.nodup_cons.2 ⟨hnew, h.nodup⟩, h.holding.push ho, h.owned.push h.holding o, h.accepting,
      h.pooled⟩
  exact .step (.newValue o) h.steady (gives_newValue.2 ⟨rfl, rfl⟩) hg'.steady hg'

theorem release_of_register {i : Fin 3} (hi : g.operandOf v = .register i.val)
    (hb : g.pool.busy.get i = true) :
    (release v).Gives g ()
      { g with pool := ⟨g.pool.busy.setIfInBounds i false⟩, live := g.live.erase v } := by
  refine gives_bind.2 ⟨_, g, gives_operand.2 ⟨hi, rfl⟩, gives_bind.2 ⟨g, g, gives_get.2 ⟨rfl, rfl⟩, ?_⟩⟩
  rw [RegisterPool.free_of_busy hb]
  exact gives_set.2 rfl

theorem release_of_other (hnot : ∀ r, g.operandOf v ≠ .register r) : (release v).Gives g () g := by
  refine gives_bind.2 ⟨_, g, gives_operand.2 ⟨rfl, rfl⟩, ?_⟩
  split
  · rename_i r hr
    exact absurd hr (hnot r)
  · exact gives_pure.2 ⟨rfl, rfl⟩

/-- A value that is no longer in use gives up its register, if it holds one. -/
theorem release_works (h : g.Fit (v :: used)) : (release v).Works g fun _ => Fit used := by
  obtain ⟨hv, hnodup⟩ := List.nodup_cons.1 h.nodup
  by_cases hr : ∃ r, g.operandOf v = .register r
  · obtain ⟨r, hr⟩ := hr
    obtain ⟨hlive, i, rfl, hbusy⟩ := h.holding.register List.mem_cons_self hr
    have hg' : Fit used { g with
        pool := ⟨g.pool.busy.setIfInBounds i false⟩, live := g.live.erase v } := by
      refine ⟨hnodup, ?_, h.owned.vacate h.holding hr rfl rfl fun _ _ => rfl, h.accepting, h.pooled⟩
      exact h.holding.vacate hlive hr rfl rfl rfl (fun _ _ => rfl) (fun u hu => by simp [hu])
        (fun u hu => List.mem_cons_of_mem _ hu) (fun hin => absurd hin hv)
    exact .step (.release v) h.steady (release_of_register hr hbusy) hg'.steady hg'
  · have hnot : ∀ r, g.operandOf v ≠ .register r := fun r hv => hr ⟨r, hv⟩
    have hg' : Fit used g := ⟨hnodup, h.holding.forget hv hnot, h.owned, h.accepting, h.pooled⟩
    exact .step (.release v) h.steady (release_of_other hnot) hg'.steady hg'

/-- A live value goes to memory: its register becomes free. Between the two steps it is neither live nor
in memory. -/
theorem vacate_works (h : g.Fit used) (hv : v ∈ g.live) (x : Text) :
    (release v >>= fun _ => setOperand v (.memory x)).Works g fun _ g' =>
      Fit used g' ∧ (∃ i : Fin 3, g'.pool.busy.get i = false) ∧
        ∀ w, (∀ r, g.operandOf w ≠ .register r) → ∀ r, g'.operandOf w ≠ .register r := by
  obtain ⟨i, hi, hbusy⟩ := h.holding.held v hv
  have hused := ((h.holding.live_iff v).1 hv).1
  refine .next (.release v) h.steady (release_of_register hi hbusy) ?_
  have hmid : Fit (used.erase v) { g with
      pool := ⟨g.pool.busy.setIfInBounds i false⟩, live := g.live.erase v } := by
    refine ⟨h.nodup.erase v, ?_, h.owned.vacate h.holding hi rfl rfl fun _ _ => rfl, h.accepting,
      h.pooled⟩
    refine h.holding.vacate hv hi rfl rfl rfl (fun _ _ => rfl) (fun u hu => ?_) (fun u hu => ?_)
      (fun hin => ?_)
    · rw [h.nodup.mem_erase_iff]
      exact and_iff_right hu
    · exact List.mem_of_mem_erase hu
    · exact absurd rfl (h.nodup.mem_erase_iff.1 hin).1
  have hop : ∀ w, operandOf { g with
      pool := ⟨g.pool.busy.setIfInBounds i false⟩
      operands := g.operands.setIfInBounds v (.memory x)
      live := g.live.erase v } w = if w = v then .memory x else g.operandOf w :=
    fun w => operandOf_set (h.holding.lt v hused) _
  have hend : Fit used { g with
      pool := ⟨g.pool.busy.setIfInBounds i false⟩
      operands := g.operands.setIfInBounds v (.memory x)
      live := g.live.erase v } := by
    have hother : ∀ u, u ≠ v → _ = g.operandOf u := fun u hu => (hop u).trans (if_neg hu)
    refine ⟨h.nodup, ?_, h.owned.vacate h.holding hi rfl rfl hother, h.accepting, h.pooled⟩
    refine h.holding.vacate hv hi rfl rfl (Array.size_setIfInBounds ..) hother (fun _ _ => Iff.rfl)
      (fun _ hu => hu) (fun _ r hr => ?_)
    rw [hop, if_pos rfl] at hr
    cases hr
  refine .step (a := ()) (.setOperand v _) hmid.steady (gives_setOperand.2 rfl) hend.steady
    ⟨hend, ⟨i, ?_⟩, fun w hw r => ?_⟩
  · rw [RegisterPool.get_set, if_pos rfl]
  · rw [hop]
    split
    · exact Operand.noConfusion
    · exact hw r

theorem spill_works (h : g.Fit used) (hv : v ∈ g.live) :
    (spill v).Works g fun _ g' => Fit used g' ∧ (∃ i : Fin 3, g'.pool.busy.get i = false) ∧
      ∀ w, (∀ r, g.operandOf w ≠ .register r) → ∀ r, g'.operandOf w ≠ .register r := by
  obtain ⟨i, hi, -⟩ := h.holding.held v hv
  refine .operand_bind ?_
  rw [hi]
  have hname : Fit used { g with listing := g.listing.newSpill.2 } := by
    rw [Listing.newSpill_eq]
    exact ⟨h.nodup, h.holding.congr rfl rfl rfl, h.owned.congr rfl rfl rfl, h.accepting, h.pooled⟩
  refine .next .newSpill h.steady (gives_newSpill.2 ⟨rfl, rfl⟩) ?_
  generalize g.listing.newSpill.1 = x
  have hput := hname.put (l := .move (.memory x) (.register i.val)) (.instruction (by simp))
  exact .next (a := ()) (.put _) hname.steady (gives_put.2 rfl) (vacate_works hput hv x)

theorem makeRoom_works (h : g.Fit used) :
    makeRoom.Works g fun _ g' => Fit used g' ∧ (∃ i : Fin 3, g'.pool.busy.get i = false) ∧
      ∀ w, (∀ r, g.operandOf w ≠ .register r) → ∀ r, g'.operandOf w ≠ .register r := by
  refine .get_bind ?_
  split
  · rename_i hfull
    split
    · rename_i w ws hlive
      exact spill_works h (by rw [hlive]; exact List.mem_cons_self)
    · rename_i hlive
      have hbusy := RegisterPool.busy_of_not_available (p := g.pool) (by simpa using hfull)
      obtain ⟨w, hw, -⟩ := h.owned 0 (hbusy 0)
      rw [hlive] at hw
      cases hw
  · rename_i hroom
    exact .of_pure h.steady ⟨h, RegisterPool.exists_free (by simpa using hroom), fun _ hw => hw⟩

/-- The register that is claimed was free. -/
theorem claim_gives (h : ∃ i : Fin 3, g.pool.busy.get i = false) :
    ∃ i : Fin 3, g.pool.busy.get i = false ∧
      claim.Gives g i.val { g with pool := ⟨g.pool.busy.setIfInBounds i true⟩ } := by
  obtain ⟨j, hj⟩ := h
  obtain ⟨r, p', hp⟩ := RegisterPool.allocate_of_free hj
  obtain ⟨i, rfl, hi, rfl⟩ := RegisterPool.allocate_eq_ok hp
  refine ⟨i, hi, gives_bind.2 ⟨g, g, gives_get.2 ⟨rfl, rfl⟩, ?_⟩⟩
  rw [hp]
  exact gives_bind.2 ⟨(), _, gives_set.2 rfl, gives_pure.2 ⟨rfl, rfl⟩⟩

theorem load_works (h : g.Fit used) (hv : v ∈ used) (hnot : ∀ r, g.operandOf v ≠ .register r)
    (hfree : ∃ i : Fin 3, g.pool.busy.get i = false) {o : Operand} (ho : ∀ r, o ≠ .register r) :
    (load v o).Works g fun r g' => Fit used g' ∧ ∃ i : Fin 3, r = i.val := by
  obtain ⟨i, hi, hclaim⟩ := claim_gives hfree
  have hload := h.holding.load hv hnot hi
  have hline : (Line.move (.register i.val) o).Pooled := by
    refine .instruction fun r hr => ?_
    have hro : .register r = o ∨ r = i.val := by simpa [or_comm] using hr
    rcases hro with hro | rfl
    · exact absurd hro.symm (ho r)
    · exact mem_poolRegisters i
  have hput := h.put hline
  have hg' : Fit used { g with
      listing := g.listing.put (.move (.register i.val) o)
      pool := ⟨g.pool.busy.setIfInBounds i true⟩
      operands := g.operands.setIfInBounds v (.register i.val)
      live := v :: g.live } :=
    ⟨h.nodup, hload.congr rfl rfl rfl, (h.owned.load h.holding hv hnot i).congr rfl rfl rfl,
      hput.accepting, hput.pooled⟩
  refine .step (.load v o) h.steady ?_ hg'.steady ⟨hg', i, rfl⟩
  refine gives_bind.2 ⟨_, _, hclaim, ?_⟩
  refine gives_bind.2 ⟨(), _, gives_put.2 rfl, ?_⟩
  refine gives_bind.2 ⟨(), _, gives_setOperand.2 rfl, ?_⟩
  exact gives_bind.2 ⟨(), _, gives_modify.2 rfl, gives_pure.2 ⟨rfl, rfl⟩⟩

theorem materialize_works (h : g.Fit used) (hv : v ∈ used) :
    (materialize v).Works g fun r g' => Fit used g' ∧ ∃ i : Fin 3, r = i.val := by
  rw [materialize_eq]
  refine .operand_bind ?_
  have hbring : (∀ r, g.operandOf v ≠ .register r) →
      (makeRoom >>= fun _ => load v (g.operandOf v)).Works g
        fun r g' => Fit used g' ∧ ∃ i : Fin 3, r = i.val := by
    intro hnot
    refine (makeRoom_works h).bind fun _ g1 ⟨h1, hfree, hkeep⟩ => ?_
    exact load_works h1 hv (hkeep v hnot) hfree hnot
  cases ho : g.operandOf v with
  | register r =>
    obtain ⟨-, i, hr, -⟩ := h.holding.register hv ho
    exact .of_pure h.steady ⟨h, i, hr⟩
  | immediate n | memory x =>
    rw [ho] at hbring
    exact hbring fun _ => Operand.noConfusion

variable {left right : Nat}

theorem combine_works (h : g.Fit (right :: left :: used)) (m : Mnemonic) :
    (combine m left right).Works g fun r g' => Fit (left :: used) g' ∧ ∃ i : Fin 3, r = i.val := by
  refine (materialize_works h (by simp)).bind fun r g1 ⟨h1, i, hr⟩ => ?_
  refine .operand_bind ?_
  have hline : (Line.binary m r (g1.operandOf right)).Pooled := by
    refine .instruction fun q hq => ?_
    have hqo : .register q = g1.operandOf right ∨ q = r := by simpa [or_comm] using hq
    rcases hqo with hqo | rfl
    · exact h1.register List.mem_cons_self hqo.symm
    · rw [hr]
      exact mem_poolRegisters i
  refine (put_works h1 hline).bind fun _ g2 h2 => ?_
  refine (release_works h2).bind fun _ g3 h3 => ?_
  exact .of_pure h3.steady ⟨h3, i, hr⟩

theorem disjoin_works (h : g.Fit (right :: left :: used)) :
    (disjoin left right).Works g fun _ => Fit (left :: used) := by
  refine (combine_works h .add).bind fun r g1 ⟨h1, i, hr⟩ => ?_
  rw [hr]
  refine (newLabel_works h1 "done").bind fun x g2 h2 => ?_
  refine (put_works h2 (.instruction (by simp))).bind fun _ g3 h3 => ?_
  refine (put_works h3 (.instruction (by simp))).bind fun _ g4 h4 => ?_
  exact put_works h4 (.label x)

theorem tests_work (h : g.Fit used) (i : Fin 3) (x : Text) (ms : List Mnemonic) :
    (forIn ms PUnit.unit fun m _ => do
      put (.branch m i.val x)
      pure (ForInStep.yield PUnit.unit) : Gen PUnit).Works g fun _ => Fit used := by
  induction ms generalizing g with
  | nil => exact .of_pure h.steady h
  | cons m ms ih =>
    rw [List.forIn_cons, bind_assoc]
    refine (put_works h (.instruction (by simp))).bind fun _ g1 h1 => ?_
    rw [pure_bind]
    exact ih h1

theorem compare_works (h : g.Fit (right :: left :: used)) (op : Attr) :
    (compare op left right).Works g fun _ => Fit (left :: used) := by
  refine (combine_works h .sub).bind fun r g1 ⟨h1, i, hr⟩ => ?_
  rw [hr]
  refine (newLabel_works h1 "false").bind fun no g2 h2 => ?_
  refine (newLabel_works h2 "done").bind fun done g3 h3 => ?_
  refine (tests_work h3 i no (refutations op)).bind fun _ g4 h4 => ?_
  refine (put_works h4 (.instruction (by simp))).bind fun _ g5 h5 => ?_
  refine (put_works h5 (.instruction (by simp))).bind fun _ g6 h6 => ?_
  refine (put_works h6 (.label no)).bind fun _ g7 h7 => ?_
  refine (put_works h7 (.instruction (by simp))).bind fun _ g8 h8 => ?_
  exact put_works h8 (.label done)

end Gen

end Compiler

namespace Source

open Compiler Assembly

variable {g : Generator} {used : List Nat} {v l r : Nat}

theorem Sign.lower_works (s : Sign) (h : g.Fit (v :: used)) :
    (s.lower v).Works g fun _ => Generator.Fit (v :: used) := by
  cases s with
  | plus => exact .of_pure h.steady h
  | minus | not =>
    refine (Gen.materialize_works h List.mem_cons_self).bind fun r g1 ⟨h1, i, hr⟩ => ?_
    rw [hr]
    exact Gen.put_works h1 (.instruction (by simp))

theorem combine_discard_works (m : Mnemonic) (h : g.Fit (r :: l :: used)) :
    Gen.Works (discard (Gen.combine m l r)) g fun _ => Generator.Fit (l :: used) :=
  (Gen.combine_works h m).bind fun _ _ h1 => .of_pure h1.1.steady h1.1

theorem Operator.lower_works (op : Operator) (h : g.Fit (r :: l :: used)) :
    (op.lower l r).Works g fun _ => Generator.Fit (l :: used) := by
  cases op with
  | times | and | slash | plus | minus => exact combine_discard_works _ h
  | or => exact Gen.disjoin_works h
  | _ => exact Gen.compare_works h _

/-- There are always enough registers for an expression. -/
theorem Expr.lower_works (e : Expr) (h : g.Fit used) :
    e.lower.Works g fun v => Generator.Fit (v :: used) := by
  induction e generalizing g used with
  | var x => exact Gen.newValue_works h fun _ => Operand.noConfusion
  | num n => exact Gen.newValue_works h fun _ => Operand.noConfusion
  | sign s e ih =>
    refine (ih h).bind fun v g1 h1 => (s.lower_works h1).bind fun _ g2 h2 => ?_
    exact .of_pure h2.steady h2
  | binary op a b iha ihb =>
    refine (iha h).bind fun l g1 h1 => (ihb h1).bind fun r g2 h2 => ?_
    exact (op.lower_works h2).bind fun _ g3 h3 => .of_pure h3.steady h3

theorem consume_works {f : Int → Line} (hf : ∀ i : Fin 3, (f i.val).Pooled) (h : g.Fit (v :: used)) :
    (consume v f).Works g fun _ => Generator.Fit used := by
  refine (Gen.materialize_works h List.mem_cons_self).bind fun r g1 ⟨h1, i, hr⟩ => ?_
  rw [hr]
  exact (Gen.put_works h1 (hf i)).bind fun _ g2 h2 => Gen.release_works h2

theorem lowerActuals_works (es : List Expr) (h : g.Fit used) :
    (lowerActuals es).Works g fun _ => Generator.Fit used := by
  induction es generalizing g with
  | nil => exact .of_pure h.steady h
  | cons e es ih =>
    refine (e.lower_works h).bind fun v g1 h1 => ?_
    exact (Gen.release_works h1).bind fun _ g2 h2 => ih h2

theorem Stmt.lower_works (c : Stmt) (h : g.Fit used) :
    c.lower.Works g fun _ => Generator.Fit used := by
  induction c generalizing g with
  | skip | call _ _ => exact .of_pure h.steady h
  | seq a b iha ihb => exact (iha h).bind fun _ g1 h1 => ihb h1
  | assign x e | print e =>
    exact (e.lower_works h).bind fun v g1 h1 => consume_works (fun i => .instruction (by simp)) h1
  | ite c a b iha ihb =>
    refine (c.lower_works h).bind fun v g1 h1 => ?_
    refine (Gen.materialize_works h1 List.mem_cons_self).bind fun r g2 ⟨h2, i, hr⟩ => ?_
    rw [hr]
    refine (Gen.newLabel_works h2 "else").bind fun other g3 h3 => ?_
    refine (Gen.newLabel_works h3 "if_done").bind fun done g4 h4 => ?_
    refine (Gen.put_works h4 (.instruction (by simp))).bind fun _ g5 h5 => ?_
    refine (Gen.release_works h5).bind fun _ g6 h6 => (iha h6).bind fun _ g7 h7 => ?_
    refine (Gen.put_works h7 (.instruction (by simp))).bind fun _ g8 h8 => ?_
    refine (Gen.put_works h8 (.label other)).bind fun _ g9 h9 => (ihb h9).bind fun _ g10 h10 => ?_
    exact Gen.put_works h10 (.label done)
  | loop c s ih =>
    refine (Gen.newLabel_works h "while_cond").bind fun again g1 h1 => ?_
    refine (Gen.newLabel_works h1 "while_done").bind fun done g2 h2 => ?_
    refine (Gen.put_works h2 (.label again)).bind fun _ g3 h3 => ?_
    refine (c.lower_works h3).bind fun v g4 h4 => ?_
    refine (consume_works (fun i => .instruction (by simp)) h4).bind fun _ g5 h5 => ?_
    refine (ih h5).bind fun _ g6 h6 => ?_
    refine (Gen.put_works h6 (.instruction (by simp))).bind fun _ g7 h7 => ?_
    exact Gen.put_works h7 (.label done)

theorem Program.lower_works (p : Program) : p.lower.Works {} fun _ => Generator.Fit [] := by
  refine (Gen.put_works .empty (.label _)).bind fun _ g1 h1 => ?_
  exact (p.body.lower_works h1).bind fun _ g2 h2 => Gen.put_works h2 (.instruction (by simp))

end Source

end OnePass

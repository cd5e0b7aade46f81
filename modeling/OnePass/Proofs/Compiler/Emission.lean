import OnePass.Proofs.Assembly.Shape
import OnePass.Proofs.Compiler.Discipline
import OnePass.Proofs.Compiler.Lowering

namespace OnePass

namespace Assembly

theorem fits_register {i : Fin 3} {c : Assembler.OperandClass}
    (h : c = .register ∨ c = .dest ∨ c = .source) : Operand.Fits c (.register i.val) :=
  ⟨h, by omega, by omega⟩

end Assembly

namespace Compiler

open Assembly

/-- From `g` to `g'` these lines are appended; their data operands are declared names and spill words. -/
structure Emits (declared : Text → Prop) (g : Generator) (ls : List Line) (g' : Generator) :
    Prop where
  written : g'.listing.written.toList = g.listing.written.toList ++ ls
  spills : ∀ x ∈ g.listing.spills, x ∈ g'.listing.spills
  fits : ∀ l ∈ ls, l.IsCode
  data : ∀ l ∈ ls, ∀ x ∈ l.dataNames, declared x ∨ x ∈ g'.listing.spills

/-- The names handed out from `g` to `g'` are the labels of the lines and the new spill words. -/
def Balanced (g : Generator) (ls : List Line) (g' : Generator) : Prop :=
  ∀ x, (labels ls).count x + g'.listing.spills.toList.count x + g.listing.names.toList.count x =
    g.listing.spills.toList.count x + g'.listing.names.toList.count x

variable {declared : Text → Prop} {g g' g'' : Generator} {ls ls' : List Line} {used : List Nat}
  {v : Nat}

/-- How a value comes into a register: it is there, or a free register is loaded with it, or another
value makes room by moving to a new word of memory. -/
inductive Brings (used : List Nat) (v : Nat) (i : Fin 3) (g : Generator) :
    List Line → Generator → Prop where
  | stays (hv : g.operandOf v = .register i.val) : Brings used v i g [] g
  | loads {g' : Generator} (hv : ∀ r, g.operandOf v ≠ .register r)
      (hfree : ∀ u ∈ used, g.operandOf u ≠ .register i.val)
      (hop : ∀ u, g'.operandOf u = if u = v then .register i.val else g.operandOf u) :
      Brings used v i g [.move (.register i.val) (g.operandOf v)] g'
  | swaps {g' : Generator} {w : Nat} {x : Text} (hv : ∀ r, g.operandOf v ≠ .register r)
      (hw : w ∈ used) (hr : g.operandOf w = .register i.val)
      (hx : Generated g.listing.names.size x)
      (hop : ∀ u, g'.operandOf u = if u = v then .register i.val else
        if u = w then .memory x else g.operandOf u) :
      Brings used v i g
        [.move (.memory x) (.register i.val), .move (.register i.val) (g.operandOf v)] g'

theorem Brings.operandOf {i : Fin 3} (h : Brings used v i g ls g') :
    g'.operandOf v = .register i.val := by
  cases h with
  | stays hv => exact hv
  | loads _ _ hop => rw [hop, if_pos rfl]
  | swaps _ _ _ _ hop => rw [hop, if_pos rfl]

/-- The names in the lines, and those of values that are still to be loaded. -/
def Touches (ls : List Line) (g : Generator) (used : List Nat) (x : Text) : Prop :=
  x ∈ ls.flatMap Line.dataNames ∨ ∃ u ∈ used, g.operandOf u = .memory x

theorem mem_dataNames_source {mn : Mnemonic} {c : Assembler.OperandClass} {r : Int} {x : Text}
    (hsig : Assembler.signature mn = [c, .source]) :
    x ∈ (Line.instruction mn [.register r, .memory x]).dataNames := by
  simp [Line.dataNames, hsig, Operand.dataName?]

/-- A value is loaded by a line with its name. -/
theorem Brings.touches {i : Fin 3} (h : Brings used v i g ls g') {x : Text}
    (hx : ∃ u ∈ used, g.operandOf u = .memory x) : Touches ls g' used x := by
  obtain ⟨u, hu, hux⟩ := hx
  cases h with
  | stays hv => exact .inr ⟨u, hu, hux⟩
  | loads hv hfree hop =>
    by_cases huv : u = v
    · rw [← huv, hux]
      exact .inl (List.mem_flatMap.2 ⟨_, List.mem_singleton_self _, mem_dataNames_source rfl⟩)
    · exact .inr ⟨u, hu, by rw [hop, if_neg huv, hux]⟩
  | swaps hv hw hr hy hop =>
    by_cases huv : u = v
    · rw [← huv, hux]
      exact .inl (List.mem_flatMap.2 ⟨_, List.mem_cons_of_mem _ (List.mem_singleton_self _),
        mem_dataNames_source rfl⟩)
    · refine .inr ⟨u, hu, ?_⟩
      rw [hop, if_neg huv, if_neg, hux]
      rintro rfl
      rw [hr] at hux
      cases hux

theorem Brings.closed {i : Fin 3} (h : Brings used v i g ls g') : Closed ls := by
  cases h <;> simp [Closed]

namespace Emits

theorem refl (g : Generator) : Emits declared g [] g :=
  ⟨by simp, fun _ h => h, by simp, by simp⟩

theorem of_listing_eq (h : g'.listing = g.listing) : Emits declared g [] g' :=
  ⟨by rw [h]; simp, fun x hx => by rw [h]; exact hx, by simp, by simp⟩

theorem trans (h : Emits declared g ls g') (k : Emits declared g' ls' g'') :
    Emits declared g (ls ++ ls') g'' := by
  refine ⟨by rw [k.written, h.written, List.append_assoc], fun x hx => k.spills x (h.spills x hx),
    ?_, ?_⟩
  · intro l hl
    rcases List.mem_append.1 hl with hl | hl
    · exact h.fits l hl
    · exact k.fits l hl
  · intro l hl x hx
    rcases List.mem_append.1 hl with hl | hl
    · exact (h.data l hl x hx).imp_right (k.spills x)
    · exact k.data l hl x hx

end Emits

theorem Balanced.trans (h : Balanced g ls g') (k : Balanced g' ls' g'') :
    Balanced g (ls ++ ls') g'' := by
  intro x
  have h := h x
  have k := k x
  rw [labels_append, List.count_append]
  omega

theorem Balanced.refl (g : Generator) : Balanced g [] g := by
  intro x
  simp [labels]

/-- A piece of code that is complete: it has the labels it branches to, and its names are used up. -/
structure Fragment (declared : Text → Prop) (g : Generator) (ls : List Line) (g' : Generator) :
    Prop where
  emits : Emits declared g ls g'
  balanced : Balanced g ls g'
  closed : Closed ls

theorem Fragment.refl (g : Generator) : Fragment declared g [] g :=
  ⟨.refl g, .refl g, fun _ h => by cases h⟩

theorem Fragment.trans (h : Fragment declared g ls g') (k : Fragment declared g' ls' g'') :
    Fragment declared g (ls ++ ls') g'' :=
  ⟨h.emits.trans k.emits, h.balanced.trans k.balanced, h.closed.append k.closed⟩

/-- From `g` to `g'` these lines are appended and nothing else happens. -/
structure Appends (declared : Text → Prop) (used : List Nat) (g : Generator) (ls : List Line)
    (g' : Generator) : Prop where
  sound : g'.Sound declared used
  emits : Emits declared g ls g'
  operandOf : ∀ v, g'.operandOf v = g.operandOf v
  names : g'.listing.names = g.listing.names
  spills : g'.listing.spills = g.listing.spills

theorem Appends.refl (hg : g.Sound declared used) : Appends declared used g [] g :=
  ⟨hg, .refl g, fun _ => rfl, rfl, rfl⟩

theorem Appends.trans (h : Appends declared used g ls g') (k : Appends declared used g' ls' g'') :
    Appends declared used g (ls ++ ls') g'' :=
  ⟨k.sound, h.emits.trans k.emits, fun v => (k.operandOf v).trans (h.operandOf v),
    k.names.trans h.names, k.spills.trans h.spills⟩

namespace Generator.Sound

theorem put (hg : g.Sound declared used) (l : Line) :
    Sound declared { g with listing := g.listing.put l } used := by
  rw [Listing.put_eq hg.accepting]
  exact ⟨hg.accepting, ⟨hg.orderly.names, hg.orderly.spills⟩, hg.holding.congr rfl rfl rfl,
    hg.memory⟩

end Generator.Sound

/-- An operand of a value in use can stand at the place of a source. -/
theorem Generator.Sound.fits_source (hg : g.Sound declared used)
    (hD : ∀ x, declared x → x.IsIdentifier) (hv : v ∈ used) :
    (g.operandOf v).Fits .source := by
  cases ho : g.operandOf v with
  | immediate n => exact rfl
  | register r =>
    obtain ⟨-, i, rfl, -⟩ := hg.holding.register hv ho
    exact fits_register (by decide)
  | memory x =>
    refine ⟨by decide, ?_⟩
    rcases hg.memory v hv x ho with hx | hx
    · exact (hD x hx).isLabel
    · obtain ⟨j, hj⟩ := hg.orderly.generated (hg.orderly.spills x hx)
      exact hj.isLabel

theorem dataNames_of_register {mn : Mnemonic} {c : Assembler.OperandClass} {r : Int} {o : Operand}
    {x : Text} (hsig : Assembler.signature mn = [c, .source])
    (hx : x ∈ (Line.instruction mn [.register r, o]).dataNames) : o = .memory x := by
  simp only [Line.dataNames, hsig, List.zip_cons_cons, List.zip_nil_right,
    List.filterMap_cons, Operand.dataName?] at hx
  cases o with
  | immediate n => simp at hx
  | register q => simp at hx
  | memory y => simpa [eq_comm] using hx

namespace Gen

theorem put_code {l : Line} {u : Unit} (hg : g.Sound declared used)
    (h : (put l).Gives g u g') (hf : l.IsCode)
    (hd : ∀ x ∈ l.dataNames, declared x ∨ x ∈ g.listing.spills) :
    Appends declared used g [l] g' := by
  obtain rfl := gives_put.1 h
  refine ⟨hg.put l, ?_, fun _ => rfl, ?_, ?_⟩
  · rw [Listing.put_eq hg.accepting]
    exact ⟨by simp, fun _ h => h, by simpa using hf, by simpa using hd⟩
  · rw [Listing.put_eq hg.accepting]
  · rw [Listing.put_eq hg.accepting]

theorem put_label_code {x : Text} {u : Unit} (hg : g.Sound declared used) (hx : x.IsLabel)
    (h : (put (.label x)).Gives g u g') : Appends declared used g [.label x] g' :=
  put_code hg h hx (fun _ h => by cases h)

theorem put_jump_code {x : Text} {u : Unit} (hg : g.Sound declared used) (hx : x.IsLabel)
    (h : (put (.jump x)).Gives g u g') : Appends declared used g [.jump x] g' :=
  put_code hg h ⟨by decide, .cons ⟨by decide, hx⟩ .nil⟩ (fun _ h => by cases h)

theorem put_branch_code {x : Text} {u : Unit} {mn : Mnemonic} {r : Fin 3}
    (hg : g.Sound declared used) (hknown : mn ∈ Mnemonic.known)
    (hsig : Assembler.signature mn = [.register, .codeLabel]) (hx : x.IsLabel)
    (h : (put (.branch mn r.val x)).Gives g u g') :
    Appends declared used g [.branch mn r.val x] g' := by
  refine put_code hg h ⟨hknown, ?_⟩ ?_
  · rw [hsig]
    exact .cons (fits_register (by decide)) (.cons ⟨by decide, hx⟩ .nil)
  · intro y hy
    simp [Line.branch, Line.dataNames, hsig, Operand.dataName?] at hy

/-- A row of tests on one register with one target. -/
theorem put_branches_code {x : Text} {u : PUnit} {mns : List Mnemonic} {r : Fin 3}
    (hg : g.Sound declared used) (hx : x.IsLabel)
    (hmns : ∀ mn ∈ mns, mn ∈ Mnemonic.known ∧ Assembler.signature mn = [.register, .codeLabel])
    (h : (forIn mns PUnit.unit fun mn _ => do
      put (.branch mn r.val x)
      pure (ForInStep.yield PUnit.unit) : Gen PUnit).Gives g u g') :
    Appends declared used g (mns.map (.branch · r.val x)) g' := by
  induction mns generalizing g with
  | nil =>
    obtain ⟨-, rfl⟩ := gives_pure.1 h
    exact .refl hg
  | cons mn mns ih =>
    simp only [List.forIn_cons, gives_bind, gives_pure] at h
    obtain ⟨_, g1, ⟨_, _, h1, rfl, rfl⟩, h2⟩ := h
    obtain ⟨hknown, hsig⟩ := hmns mn List.mem_cons_self
    have a1 := put_branch_code hg hknown hsig hx h1
    exact a1.trans (ih a1.sound (fun k hk => hmns k (List.mem_cons_of_mem _ hk)) h2)

theorem put_set_code {n : Word} {u : Unit} {r : Fin 3} (hg : g.Sound declared used)
    (h : (put (.move (.register r.val) (.immediate n))).Gives g u g') :
    Appends declared used g [.move (.register r.val) (.immediate n)] g' :=
  put_code hg h ⟨by decide, .cons (fits_register (by decide)) (.cons rfl .nil)⟩
    (fun _ h => by cases h)

theorem put_unary_code {u : Unit} {mn : Mnemonic} {r : Fin 3} (hg : g.Sound declared used)
    (hknown : mn ∈ Mnemonic.known) (hsig : Assembler.signature mn = [.register])
    (h : (put (.unary mn r.val)).Gives g u g') : Appends declared used g [.unary mn r.val] g' := by
  refine put_code hg h ⟨hknown, ?_⟩ ?_
  · rw [hsig]
    exact .cons (fits_register (by decide)) .nil
  · intro y hy
    simp [Line.unary, Line.dataNames, hsig, Operand.dataName?] at hy

theorem newLabel_code {stem : String} {x : Text} (hg : g.Sound declared used) (hs : stem ∈ stems)
    (h : (newLabel stem).Gives g x g') :
    g'.Sound declared used ∧ Emits declared g [] g' ∧ (∀ v, g'.operandOf v = g.operandOf v) ∧
      Generated g.listing.names.size x ∧ g'.listing.names = g.listing.names.push x ∧
      g'.listing.spills = g.listing.spills := by
  obtain ⟨rfl, rfl⟩ := gives_newLabel.1 h
  rw [Listing.newLabel_eq stem hs]
  exact ⟨⟨hg.accepting, hg.orderly.push stem hs, hg.holding.congr rfl rfl rfl, hg.memory⟩,
    ⟨by simp, fun _ h => h, by simp, by simp⟩, fun _ => rfl, ⟨stem, hs, rfl⟩, rfl, rfl⟩

/-- A value that has not been evaluated: a number or a declared name. -/
theorem newValue_code {o : Operand} (hg : g.Sound declared used)
    (ho : (∃ n, o = .immediate n) ∨ ∃ x, o = .memory x ∧ declared x)
    (h : (newValue o).Gives g v g') :
    g'.Sound declared (v :: used) ∧ Emits declared g [] g' ∧ Balanced g [] g' ∧ v ∉ used ∧
      g'.operandOf v = o ∧ ∀ u ∈ used, g'.operandOf u = g.operandOf u := by
  obtain ⟨rfl, rfl⟩ := gives_newValue.1 h
  have hnew : g.operands.size ∉ used := fun hm => Nat.lt_irrefl _ (hg.holding.lt _ hm)
  have hnot : ∀ r, o ≠ .register r := by
    rintro r rfl
    rcases ho with ⟨n, hn⟩ | ⟨x, hx, -⟩
    · cases hn
    · cases hx
  refine ⟨⟨hg.accepting, hg.orderly, hg.holding.push hnot, ?_⟩,
    ⟨by simp, fun _ h => h, by simp, by simp⟩, ?_, hnew, ?_, ?_⟩
  · intro v hv x hx
    rw [Generator.operandOf_push] at hx
    by_cases heq : v = g.operands.size
    · rw [if_pos heq] at hx
      subst hx
      rcases ho with ⟨n, hn⟩ | ⟨y, hy, hd⟩
      · cases hn
      · cases hy
        exact .inl hd
    · rw [if_neg heq] at hx
      exact hg.memory v ((List.mem_cons.1 hv).resolve_left heq) x hx
  · intro x
    simp [labels]
  · rw [Generator.operandOf_push, if_pos rfl]
  · intro u hu
    rw [Generator.operandOf_push, if_neg]
    rintro rfl
    exact hnew hu

theorem release_register {u : Unit} {i : Fin 3} (h : (release v).Gives g u g')
    (hi : g.operandOf v = .register i.val) :
    g' = { g with pool := ⟨g.pool.busy.setIfInBounds i false⟩, live := g.live.erase v } := by
  simp only [release, gives_bind, gives_operand] at h
  obtain ⟨_, _, ⟨rfl, rfl⟩, h⟩ := h
  rw [hi] at h
  simp only [gives_bind, gives_get] at h
  obtain ⟨_, _, ⟨rfl, rfl⟩, h⟩ := h
  split at h
  · rename_i pool hpool
    obtain rfl := RegisterPool.free_eq_ok hpool
    exact (gives_set.1 h).symm
  · exact absurd h not_gives_throw

theorem release_other {u : Unit} (h : (release v).Gives g u g')
    (hnot : ∀ r, g.operandOf v ≠ .register r) : g' = g := by
  simp only [release, gives_bind, gives_operand] at h
  obtain ⟨_, _, ⟨rfl, rfl⟩, h⟩ := h
  split at h
  · rename_i r hr
    exact absurd hr (hnot r)
  · exact (gives_pure.1 h).2.symm

/-- Releasing a value leaves the others as they are. -/
theorem release_code {u : Unit} (hg : g.Sound declared (v :: used)) (hv : v ∉ used)
    (h : (release v).Gives g u g') :
    g'.Sound declared used ∧ g'.listing = g.listing ∧ ∀ w, g'.operandOf w = g.operandOf w := by
  have hmem : ∀ w ∈ used, ∀ x, g.operandOf w = .memory x → declared x ∨ x ∈ g.listing.spills :=
    fun w hw => hg.memory w (List.mem_cons_of_mem _ hw)
  by_cases hr : ∃ r, g.operandOf v = .register r
  · obtain ⟨r, hr⟩ := hr
    obtain ⟨hlive, i, rfl, -⟩ := hg.holding.register List.mem_cons_self hr
    obtain rfl := release_register h hr
    refine ⟨⟨hg.accepting, hg.orderly, ?_, hmem⟩, rfl, fun _ => rfl⟩
    exact hg.holding.vacate hlive hr rfl rfl rfl (fun _ _ => rfl) (fun u hu => by simp [hu])
      (fun u hu => List.mem_cons_of_mem _ hu) (fun hin => absurd hin hv)
  · have hnot : ∀ r, g.operandOf v ≠ .register r := fun r hv => hr ⟨r, hv⟩
    obtain rfl := release_other h hnot
    exact ⟨⟨hg.accepting, hg.orderly, hg.holding.forget hv hnot, hmem⟩, rfl, fun _ => rfl⟩

theorem spill_register {u : Unit} {i : Fin 3} (hg : g.Sound declared used)
    (h : (spill v).Gives g u g') (hi : g.operandOf v = .register i.val) :
    g' = { g with
      listing := { g.listing with
        written := g.listing.written.push
          (.move (.memory (numberedName "spill" g.listing.names.size)) (.register i.val))
        names := g.listing.names.push (numberedName "spill" g.listing.names.size)
        spills := g.listing.spills.push (numberedName "spill" g.listing.names.size) }
      pool := ⟨g.pool.busy.setIfInBounds i false⟩
      operands := g.operands.setIfInBounds v
        (.memory (numberedName "spill" g.listing.names.size))
      live := g.live.erase v } := by
  simp only [spill, gives_bind, gives_operand] at h
  obtain ⟨_, _, ⟨rfl, rfl⟩, h⟩ := h
  rw [hi] at h
  simp only [gives_bind, gives_newSpill, Listing.newSpill_eq, gives_put, gives_setOperand] at h
  obtain ⟨x, _, ⟨rfl, rfl⟩, _, _, rfl, _, _, h, rfl⟩ := h
  obtain rfl := release_register (i := i) h hi
  rw [Listing.put_eq]
  exact hg.accepting

/-- A live value moves to a new word of memory. -/
theorem spill_code {u : Unit} (hg : g.Sound declared used) (hv : v ∈ g.live)
    (h : (spill v).Gives g u g') :
    ∃ (i : Fin 3) (x : Text), g.operandOf v = .register i.val ∧
      Generated g.listing.names.size x ∧ g'.Sound declared used ∧
      Emits declared g [.move (.memory x) (.register i.val)] g' ∧
      Balanced g [.move (.memory x) (.register i.val)] g' ∧
      (∀ w, g'.operandOf w = if w = v then .memory x else g.operandOf w) ∧
      g'.pool.busy = g.pool.busy.setIfInBounds i false := by
  obtain ⟨i, hi, -⟩ := hg.holding.held v hv
  have hused := ((hg.holding.live_iff v).1 hv).1
  have hg' := spill_register hg h hi
  have hord := hg.orderly.push "spill" (by decide)
  have hgen : Generated g.listing.names.size (numberedName "spill" g.listing.names.size) :=
    ⟨"spill", by decide, rfl⟩
  generalize numberedName "spill" g.listing.names.size = x at hg' hord hgen
  have hop : ∀ w, g'.operandOf w = if w = v then .memory x else g.operandOf w := by
    intro w
    rw [hg']
    exact Generator.operandOf_set (hg.holding.lt v hused) _
  have hspills : ∀ y, y ∈ g'.listing.spills ↔ y ∈ g.listing.spills ∨ y = x := by
    intro y
    rw [hg', Array.mem_push]
  refine ⟨i, x, hi, hgen, ⟨?_, ⟨?_, ?_⟩, ?_, ?_⟩, ⟨?_, ?_, ?_, ?_⟩, ?_, hop, by rw [hg']⟩
  · rw [hg']
    exact hg.accepting
  · rw [hg']
    exact hord.names
  · intro y hy
    rw [hg', Array.mem_push]
    exact ((hspills y).1 hy).imp_left (hg.orderly.spills y)
  · refine hg.holding.vacate hv hi (by rw [hg']) (by rw [hg']) (by rw [hg']; simp) ?_
      (fun _ _ => Iff.rfl) (fun _ h => h) ?_
    · intro w hw
      rw [hop, if_neg hw]
    · intro _ r
      rw [hop, if_pos rfl]
      intro h
      cases h
  · intro w hw y hy
    rw [hop] at hy
    rw [hspills]
    by_cases hwv : w = v
    · rw [if_pos hwv] at hy
      cases hy
      exact .inr (.inr rfl)
    · rw [if_neg hwv] at hy
      exact (hg.memory w hw y hy).imp_right .inl
  · rw [hg', Array.toList_push]
  · exact fun y hy => (hspills y).2 (.inl hy)
  · intro l hl
    rw [List.mem_singleton.1 hl]
    exact ⟨by decide, .cons ⟨by decide, hgen.isLabel⟩ (.cons (fits_register (by decide)) .nil)⟩
  · intro l hl y hy
    rw [List.mem_singleton.1 hl] at hy
    have hyx : y = x := by
      simpa [Line.dataNames, Line.move, Assembler.signature, Operand.dataName?] using hy
    exact .inr ((hspills y).2 (.inr hyx))
  · intro y
    rw [hg']
    simp only [labels_cons_move, labels_nil, List.count_nil, Array.toList_push, List.count_append]
    omega

/-- Loading a free register with a value. -/
theorem load_code {i : Fin 3} (hg : g.Sound declared used) (hD : ∀ x, declared x → x.IsIdentifier)
    (hv : v ∈ used) (hnot : ∀ r, g.operandOf v ≠ .register r) (hi : g.pool.busy.get i = false)
    (hg' : g' = { g with
      listing := g.listing.put (.move (.register i.val) (g.operandOf v))
      pool := ⟨g.pool.busy.setIfInBounds i true⟩
      operands := g.operands.setIfInBounds v (.register i.val)
      live := v :: g.live }) :
    g'.Sound declared used ∧ Emits declared g [.move (.register i.val) (g.operandOf v)] g' ∧
      Balanced g [.move (.register i.val) (g.operandOf v)] g' ∧
      ∀ u, g'.operandOf u = if u = v then .register i.val else g.operandOf u := by
  have hop : ∀ u, g'.operandOf u = if u = v then .register i.val else g.operandOf u := by
    intro u
    rw [hg']
    exact Generator.operandOf_set (hg.holding.lt v hv) _
  rw [Listing.put_eq hg.accepting] at hg'
  refine ⟨⟨?_, ?_, ?_, ?_⟩, ⟨?_, ?_, ?_, ?_⟩, ?_, hop⟩
  · rw [hg']
    exact hg.accepting
  · rw [hg']
    exact ⟨hg.orderly.names, hg.orderly.spills⟩
  · exact (hg.holding.load hv hnot hi).congr (by rw [hg']) (by rw [hg']) (by rw [hg'])
  · intro u hu x hx
    rw [hop] at hx
    by_cases huv : u = v
    · rw [if_pos huv] at hx
      cases hx
    · rw [if_neg huv] at hx
      rw [hg']
      exact hg.memory u hu x hx
  · rw [hg', Array.toList_push]
  · intro x hx
    rw [hg']
    exact hx
  · intro l hl
    rw [List.mem_singleton.1 hl]
    exact ⟨by decide, .cons (fits_register (by decide)) (.cons (hg.fits_source hD hv) .nil)⟩
  · intro l hl x hx
    rw [List.mem_singleton.1 hl] at hx
    rw [hg']
    exact hg.memory v hv x (dataNames_of_register rfl hx)
  · intro x
    rw [hg']
    simp only [labels_cons_move, labels_nil, List.count_nil]
    omega

theorem take_register {r : Int} (h : (do
      let g ← get
      match g.pool.allocate with
      | .ok (r, pool) =>
        set { g with pool }
        return r
      | .error e => throw e : Gen Int).Gives g r g') :
    ∃ i : Fin 3, r = i.val ∧ g.pool.busy.get i = false ∧
      g' = { g with pool := ⟨g.pool.busy.setIfInBounds i true⟩ } := by
  simp only [gives_bind, gives_get] at h
  obtain ⟨_, _, ⟨rfl, rfl⟩, h⟩ := h
  split at h
  · rename_i q pool hpool
    obtain ⟨i, rfl, hi, rfl⟩ := RegisterPool.allocate_eq_ok hpool
    simp only [gives_bind, gives_set, gives_pure] at h
    obtain ⟨_, _, rfl, rfl, rfl⟩ := h
    exact ⟨i, rfl, hi, rfl⟩
  · exact absurd h not_gives_throw

/-- A register is free, or all are busy and the newest value gives up its own. -/
theorem allocate_code {r : Int} (hg : g.Sound declared used) (h : allocate.Gives g r g') :
    ∃ (i : Fin 3) (g₁ : Generator), r = i.val ∧ g₁.pool.busy.get i = false ∧
      g' = { g₁ with pool := ⟨g₁.pool.busy.setIfInBounds i true⟩ } ∧
      (g₁ = g ∨ (∀ j : Fin 3, g.pool.busy.get j = true) ∧ ∃ w ∈ g.live, (spill w).Gives g () g₁) := by
  simp only [allocate, gives_bind, gives_get] at h
  obtain ⟨_, _, ⟨rfl, rfl⟩, h⟩ := h
  split at h
  · rename_i hfull
    have hbusy := RegisterPool.busy_of_not_available (by simpa using hfull)
    split at h
    · rename_i w ws hlive
      obtain ⟨_, g1, hspill, h⟩ := gives_bind.1 h
      obtain ⟨i, rfl, hi, rfl⟩ := take_register h
      exact ⟨i, g1, rfl, hi, rfl, .inr ⟨hbusy, w, by simp [hlive], hspill⟩⟩
    · rename_i hlive
      obtain ⟨j, hj | ⟨v, hv, -⟩⟩ := hg.holding.roomy
      · rw [hbusy j] at hj
        cases hj
      · simp [hlive] at hv
  · obtain ⟨i, rfl, hi, rfl⟩ := take_register h
    exact ⟨i, g, rfl, hi, rfl, .inl rfl⟩

/-- A value is brought into a register. -/
theorem materialize_code {r : Int} (hg : g.Sound declared used)
    (hD : ∀ x, declared x → x.IsIdentifier) (hv : v ∈ used) (h : (materialize v).Gives g r g') :
    ∃ (i : Fin 3) (ls : List Line), r = i.val ∧ g'.Sound declared used ∧
      Fragment declared g ls g' ∧ Brings used v i g ls g' := by
  suffices hb : ∃ (i : Fin 3) (ls : List Line), r = i.val ∧ g'.Sound declared used ∧
      Emits declared g ls g' ∧ Balanced g ls g' ∧ Brings used v i g ls g' by
    obtain ⟨i, ls, hr, hs, he, hb, hbr⟩ := hb
    exact ⟨i, ls, hr, hs, ⟨he, hb, hbr.closed⟩, hbr⟩
  simp only [materialize, gives_bind, gives_operand] at h
  obtain ⟨_, _, ⟨rfl, rfl⟩, h⟩ := h
  split at h
  · rename_i q hq
    obtain ⟨rfl, rfl⟩ := gives_pure.1 h
    obtain ⟨-, i, rfl, -⟩ := hg.holding.register hv hq
    exact ⟨i, [], rfl, hg, .refl g, .refl g, .stays hq⟩
  · rename_i hnot
    simp only [gives_bind, gives_put, gives_setOperand, gives_modify, gives_pure] at h
    obtain ⟨q, g2, ha, _, _, rfl, _, _, rfl, _, _, rfl, rfl, rfl⟩ := h
    obtain ⟨i, g1, rfl, hi, rfl, rfl | ⟨hfull, w, hw, hspill⟩⟩ := allocate_code hg ha
    · obtain ⟨hs, he, hb, hop⟩ := load_code hg hD hv hnot hi rfl
      refine ⟨i, _, rfl, hs, he, hb, .loads hnot ?_ hop⟩
      intro u hu hr
      obtain ⟨-, j, hj, hbusy⟩ := hg.holding.register hu hr
      have hij : i = j := Fin.ext (by omega)
      rw [← hij, hi] at hbusy
      cases hbusy
    · obtain ⟨j, x, hj, hx, hs1, he1, hb1, hop1, hpool⟩ := spill_code hg hw hspill
      have hij : i = j := by
        by_contra hne
        rw [hpool, RegisterPool.get_set, if_neg hne, hfull i] at hi
        cases hi
      subst hij
      have hwv : v ≠ w := by
        rintro rfl
        exact hnot _ hj
      have hv1 : g1.operandOf v = g.operandOf v := by rw [hop1, if_neg hwv]
      obtain ⟨hs, he, hb, hop⟩ := load_code hs1 hD hv (fun r => by rw [hv1]; exact hnot r) hi
        (by rw [hv1])
      rw [hv1] at he hb
      refine ⟨i, _, rfl, hs, he1.trans he, hb1.trans hb,
        .swaps hnot ((hg.holding.live_iff w).1 hw).1 hj hx ?_⟩
      intro u
      rw [hop, hop1]

end Gen

end Compiler

end OnePass

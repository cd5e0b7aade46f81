import OnePass.Proofs.Compiler.Emission
import OnePass.Proofs.Machine.Execution

namespace OnePass.Machine

open Assembler Assembly Source Compiler

/-- The machine runs up to a division by zero. -/
def Aborts (P : Image) (σ : Store) (out : Outside) (m : Machine) : Prop :=
  ∃ m' i, Path (Within P σ out) m m' ∧ Within P σ out m' ∧
    m'.step = (some (.failed m'.pc i .divideByZero), m'.stopped)

/-- The machine reaches index `k` with the value that is to be computed, or it aborts. -/
def Computes (P : Image) (σ : Store) (out : Outside) (m : Machine) (k : Nat)
    (Q : Word → Machine → Prop) : Option Word → Prop
  | some w => ∃ m', Path (Within P σ out) m m' ∧ Sees P k σ out m' ∧ Q w m'
  | none => Aborts P σ out m

variable {P : Image} {σ : Store} {out : Outside} {m m' : Machine} {k k' : Nat}
  {Q Q' : Word → Machine → Prop}

theorem Aborts.after (h : Path (Within P σ out) m m') (ha : Aborts P σ out m') :
    Aborts P σ out m := by
  obtain ⟨n, i, hn, hw, hs⟩ := ha
  exact ⟨n, i, h.trans hn, hw, hs⟩

theorem Computes.after {r : Option Word} (h : Path (Within P σ out) m m')
    (hc : Computes P σ out m' k Q r) : Computes P σ out m k Q r := by
  cases r with
  | none => exact Aborts.after h hc
  | some w =>
    obtain ⟨n, hn, hs, hq⟩ := hc
    exact ⟨n, h.trans hn, hs, hq⟩

theorem Computes.bind {r : Option Word} {f : Word → Option Word} (h : Computes P σ out m k Q r)
    (hf : ∀ w m', r = some w → Sees P k σ out m' → Q w m' → Computes P σ out m' k' Q' (f w)) :
    Computes P σ out m k' Q' (r.bind f) := by
  cases r with
  | none => exact h
  | some w =>
    obtain ⟨m', hp, hs, hq⟩ := h
    exact (hf w m' rfl hs hq).after hp

theorem Computes.mono {r : Option Word} (h : Computes P σ out m k Q r)
    (hq : ∀ w m', Q w m' → Q' w m') : Computes P σ out m k Q' r := by
  cases r with
  | none => exact h
  | some w =>
    obtain ⟨m', hp, hs, hw⟩ := h
    exact ⟨m', hp, hs, hq w m' hw⟩

/-- The values in use stand where the generator has put them. -/
def Holds (P : Image) (g : Generator) (used : List Nat) (val : Nat → Word) (m : Machine) : Prop :=
  ∀ v ∈ used, P.Reads m (val v) (g.operandOf v)

variable {declared : Text → Prop} {g g' : Generator} {used : List Nat} {val : Nat → Word} {v : Nat}
  {r : Fin 3} {o : Assembly.Operand} {w z : Word}

theorem Image.Reads.register (h : P.Reads m w (.register r.val)) : m.regs.get r.castSucc = w := by
  obtain ⟨i, hi, hw⟩ := h
  obtain rfl : i = r.castSucc := Fin.ext (by simp only [Fin.val_castSucc]; omega)
  exact hw

theorem Image.Reads.of_eq (h : P.Reads m w o) (hr : m'.regs = m.regs) (hm : m'.memory = m.memory) :
    P.Reads m' w o := by
  cases o with
  | immediate n => exact h
  | register r => simpa only [Reads, hr] using h
  | memory x => simpa only [Reads, word, hm] using h

theorem Holds.of_eq (h : Holds P g used val m) (hop : ∀ v, g'.operandOf v = g.operandOf v)
    (hr : m'.regs = m.regs) (hm : m'.memory = m.memory) : Holds P g' used val m' := by
  intro v hv
  rw [hop]
  exact (h v hv).of_eq hr hm

theorem Image.Reads.setRegister (h : P.Reads m w o) (ho : o ≠ .register r.val) (z : Word) :
    P.Reads (m.begun.apply (.setRegister r.castSucc z)) w o := by
  cases o with
  | immediate n => exact h
  | memory x => exact h
  | register q =>
    obtain ⟨i, rfl, hw⟩ := h
    refine ⟨i, rfl, ?_⟩
    have hne : r.castSucc.val ≠ i.val := by
      intro heq
      exact ho (by rw [← heq, Fin.val_castSucc])
    change (m.regs.set r.castSucc z)[i.val] = w
    rw [Vector.getElem_set_ne _ _ hne]
    exact hw

theorem Image.reads_setRegister (z : Word) :
    P.Reads (m.begun.apply (.setRegister r.castSucc z)) z (.register r.val) :=
  ⟨r.castSucc, rfl, Vector.getElem_set_self _⟩

theorem Image.Reads.setMemory {x : Text} (hm : Sees P k σ out m) (hx : x ∈ P.data)
    (h : P.Reads m w o) (ho : o ≠ .memory x) (z : Word) :
    P.Reads (m.begun.apply (.setMemory (P.data.idxOf x) z)) w o := by
  cases o with
  | immediate n => exact h
  | register q => exact h
  | memory y =>
    intro hy
    rw [hm.word_setMemory hx, if_neg (by rintro rfl; exact ho rfl)]
    exact h hy

/-- Writing the register of a value changes that value alone. -/
theorem Holds.setRegister (hg : g.Holding used) (h : Holds P g used val m) (hv : v ∈ used)
    (hr : g.operandOf v = .register r.val) (z : Word) :
    Holds P g used (Function.update val v z) (m.begun.apply (.setRegister r.castSucc z)) := by
  intro u hu
  rw [Function.update_apply]
  split
  · rename_i huv
    rw [huv, hr]
    exact Image.reads_setRegister z
  · rename_i huv
    refine (h u hu).setRegister (fun heq => huv ?_) z
    exact hg.apart u (hg.register hu heq).1 v (hg.register hv hr).1 (heq.trans hr.symm)

/-- Bringing a value into a register keeps all values. -/
theorem runs_of_brings {ls : List Line} (hP : P.Linked) (hD : ∀ x, declared x → x.IsIdentifier)
    (hg : g.Sound declared used) (hv : v ∈ used) (hb : Brings used v r g ls g')
    (hs : P.Sits k ls) (hm : Sees P k σ out m) (hh : Holds P g used val m) :
    ∃ m', Path (Within P σ out) m m' ∧ Sees P (k + width ls) σ out m' ∧ Holds P g' used val m' ∧
      m'.regs.get r.castSucc = val v := by
  cases hb with
  | stays hr =>
    refine ⟨m, .refl m, hm, hh, ?_⟩
    have h := hh v hv
    rw [hr] at h
    exact h.register
  | loads hnot hfree hop =>
    obtain ⟨hp, hm', -⟩ := hm.load hP hs (hh v hv)
    refine ⟨_, hp, hm', ?_, Vector.getElem_set_self _⟩
    intro u hu
    rw [hop]
    split
    · rename_i huv
      rw [huv]
      exact Image.reads_setRegister _
    · exact (hh u hu).setRegister (hfree u hu) _
  | @swaps _ q x hnot hq hr hx hop =>
    -- first the other value goes to its word, then this one takes the register
    obtain ⟨hxd, hp1, hs⟩ := hm.store hP hs
    have hfresh : ∀ u ∈ used, g.operandOf u ≠ .memory x := by
      intro u hu heq
      rcases hg.memory u hu x heq with hd | hsp
      · exact hx.not_isIdentifier (hD x hd)
      · exact hg.orderly.next_not_mem hx (hg.orderly.spills x hsp)
    have hm1 := hm.setMemory hxd hx.not_isIdentifier (m.regs.get r.castSucc)
    have hread : ∀ u ∈ used, P.Reads (m.begun.apply (.setMemory (P.data.idxOf x)
        (m.regs.get r.castSucc))) (val u) (g.operandOf u) :=
      fun u hu => (hh u hu).setMemory hm hxd (hfresh u hu) _
    obtain ⟨hp2, hm2, -⟩ := hm1.load hP hs (hread v hv)
    refine ⟨_, hp1.trans hp2, hm2, ?_, Vector.getElem_set_self _⟩
    intro u hu
    rw [hop]
    split
    · rename_i huv
      rw [huv]
      exact Image.reads_setRegister _
    · split
      · rename_i huq
        intro _
        have hval := hh q hq
        rw [hr] at hval
        change P.word (m.begun.apply (.setMemory (P.data.idxOf x) (m.regs.get r.castSucc))) x = val u
        rw [hm.word_setMemory hxd, if_pos rfl, huq]
        exact hval.register
      · rename_i huq
        refine (hread u hu).setRegister (fun heq => huq ?_) _
        exact hg.holding.apart u (hg.holding.register hu heq).1 q (hg.holding.register hq hr).1
          (heq.trans hr.symm)

/-- Code that gives the value `v` a new value and keeps all others; `pre` says from where it works. -/
structure ValueCode (declared : Text → Prop) (g : Generator) (used : List Nat) (ls : List Line)
    (g' : Generator) (used' : List Nat) (v : Nat) (pre : Store → (Nat → Word) → Prop)
    (f : Store → (Nat → Word) → Option Word) : Prop where
  sound : g'.Sound declared used'
  fragment : Fragment declared g ls g'
  touches : ∀ x, (∃ u ∈ used, g.operandOf u = .memory x) → Touches ls g' used' x
  runs : ∀ (P : Image) (k : Nat) (σ : Store) (out : Outside) (m : Machine) (val : Nat → Word),
    P.Linked → P.Sits k ls → pre σ val → Sees P k σ out m → Holds P g used val m →
      Computes P σ out m (k + width ls)
        (fun w m' => Holds P g' used' (Function.update val v w) m') (f σ val)

theorem ValueCode.touches_append {used' : List Nat} {ls₀ ls : List Line}
    {pre : Store → (Nat → Word) → Prop} {f : Store → (Nat → Word) → Option Word}
    (h : ValueCode declared g used ls g' used' v pre f) {x : Text} (hx : Touches ls₀ g used x) :
    Touches (ls₀ ++ ls) g' used' x := by
  rcases hx with hx | hx
  · left
    rw [List.flatMap_append]
    exact List.mem_append_left _ hx
  · rcases h.touches x hx with hx | hx
    · left
      rw [List.flatMap_append]
      exact List.mem_append_right _ hx
    · exact .inr hx

/-- Two pieces of code that work on the same value. -/
theorem ValueCode.append {g'' : Generator} {used' used'' : List Nat} {ls ls' : List Line}
    {pre : Store → (Nat → Word) → Prop} {f : Store → (Nat → Word) → Option Word}
    {F : Word → Option Word} (h : ValueCode declared g used ls g' used' v pre f)
    (h' : ValueCode declared g' used' ls' g'' used'' v (fun _ _ => True) fun _ val => F (val v)) :
    ValueCode declared g used (ls ++ ls') g'' used'' v pre fun σ val => (f σ val).bind F := by
  refine ⟨h'.sound, h.fragment.trans h'.fragment,
    fun x hx => h'.touches_append (h.touches x hx), ?_⟩
  intro P k σ out m val hP hsits hpre hm hh
  obtain ⟨hsits1, hsits2⟩ := Image.sits_append.1 hsits
  refine (h.runs P k σ out m val hP hsits1 hpre hm hh).bind fun w m' _ hm' hh' => ?_
  have hrun := h'.runs P _ σ out m' _ hP hsits2 trivial hm' hh'
  simp only [Function.update_self, Function.update_idem] at hrun
  rw [width_append, ← Nat.add_assoc]
  exact hrun

theorem ValueCode.congr {used' : List Nat} {ls : List Line} {pre pre' : Store → (Nat → Word) → Prop}
    {f f' : Store → (Nat → Word) → Option Word} (h : ValueCode declared g used ls g' used' v pre f)
    (hpre : ∀ σ val, pre' σ val → pre σ val) (hf : ∀ σ val, pre' σ val → f σ val = f' σ val) :
    ValueCode declared g used ls g' used' v pre' f' := by
  refine ⟨h.sound, h.fragment, h.touches, ?_⟩
  intro P k σ out m val hP hsits hp hm hh
  rw [← hf σ val hp]
  exact h.runs P k σ out m val hP hsits (hpre σ val hp) hm hh

/-- Combining two values in the register of the left one. -/
theorem combine_code {mn : Mnemonic} {f : Word → Word → Except Cause Word} {left right : Nat} {q : Int}
    (hD : ∀ x, declared x → x.IsIdentifier) (hknown : mn ∈ Mnemonic.known)
    (hsig : signature mn = [.register, .source])
    (hf : ∀ (m : Machine) a b, m.effect { op := mn, a, b } = m.arith { op := mn, a, b } f)
    (hcause : ∀ x y c, f x y = .error c → c = .divideByZero)
    (hg : g.Sound declared (right :: left :: used)) (hright : right ∉ left :: used)
    (h : (Gen.combine mn left right).Gives g q g') :
    ∃ (r : Fin 3) (ls : List Line), q = r.val ∧ g'.operandOf left = .register r.val ∧
      ValueCode declared g (right :: left :: used) ls g' (left :: used) left (fun _ _ => True)
        fun _ val => (f (val left) (val right)).toOption := by
  simp only [Gen.combine, Gen.gives_bind, Gen.gives_operand, Gen.gives_pure] at h
  obtain ⟨_, g1, h1, _, _, ⟨rfl, rfl⟩, _, g2, h2, _, g3, h3, rfl, rfl⟩ := h
  have hleft : left ∈ right :: left :: used := by simp
  obtain ⟨r, ls, rfl, hs1, hfrag, hbr⟩ := Gen.materialize_code hg hD hleft h1
  have hlow : g1.operandOf left = .register r.val := hbr.operandOf
  obtain ⟨hs2, he2, hop2, hn2, hsp2⟩ := Gen.put_code hs1 h2
    ⟨hknown, by
      rw [hsig]
      exact .cons (fits_register (by decide))
        (.cons (hs1.fits_source hD List.mem_cons_self) .nil)⟩
    (fun x hx => hs1.memory right List.mem_cons_self x (dataNames_of_register hsig hx))
  obtain ⟨hs3, hl3, hop3⟩ := Gen.release_code hs2 hright h3
  have hop : ∀ u, g3.operandOf u = g1.operandOf u := fun u => (hop3 u).trans (hop2 u)
  refine ⟨r, ls ++ [.binary mn r.val (g1.operandOf right)], rfl, by rw [hop, hlow], hs3, ⟨?_, ?_, ?_⟩,
    ?_, ?_⟩
  · simpa using (hfrag.emits.trans he2).trans (.of_listing_eq hl3)
  · intro x
    have hb := hfrag.balanced x
    rw [hl3, hn2, hsp2]
    simpa using hb
  · refine hfrag.closed.append ?_
    simp [Closed, targets_binary _ _ _ hsig]
  · intro x hx
    rw [Touches, List.flatMap_append]
    rcases hbr.touches hx with hx | ⟨u, hu, hux⟩
    · exact .inl (List.mem_append_left _ hx)
    · rcases List.mem_cons.1 hu with rfl | hu
      · rw [hux]
        exact .inl (List.mem_append_right _ (List.mem_flatMap.2
          ⟨_, List.mem_singleton_self _, mem_dataNames_source hsig⟩))
      · exact .inr ⟨u, hu, by rw [hop, hux]⟩
  · intro P k σ out m val hP hsits _ hm hh
    obtain ⟨hsits1, hsits2⟩ := Image.sits_append.1 hsits
    obtain ⟨m1, hp1, hm1, hh1, hreg⟩ := runs_of_brings hP hD hg hleft hbr hsits1 hm hh
    obtain ⟨i, hi, -, heff⟩ := hm1.arith_eq hP hsig (hf m1) hsits2
      (hh1 right List.mem_cons_self)
    rw [hreg] at heff
    cases hw : f (val left) (val right) with
    | ok w =>
      rw [hw] at heff
      refine ⟨_, hp1.trans (hm1.path_one hP hi heff), ?_, ?_⟩
      · have hm2 := hm1.setRegister (castSucc_ne r) w
        simpa [Nat.add_assoc] using hm2
      · have hh2 := hh1.setRegister hs1.holding hleft hlow w
        intro u hu
        have := hh2 u (List.mem_cons_of_mem _ hu)
        rw [hop]
        exact this
    | error c =>
      obtain rfl := hcause _ _ _ hw
      rw [hw] at heff
      have hk := (Array.getElem?_eq_some_iff.1 hi).1
      refine ⟨m1, i, hp1, ⟨_, hk, hm1⟩, ?_⟩
      rw [hm1.step_eq hP hi, heff]
      rfl

/-- Replacing a value in its register by a function of it. -/
theorem unary_code {mn : Mnemonic} {f : Word → Word} {u : Unit}
    (hD : ∀ x, declared x → x.IsIdentifier) (hknown : mn ∈ Mnemonic.known)
    (hsig : signature mn = [.register])
    (hf : ∀ (m : Machine) a, m.effect { op := mn, a } = m.update a f)
    (hg : g.Sound declared (v :: used))
    (h : (do Gen.put (.unary mn (← Gen.materialize v)) : Gen Unit).Gives g u g') :
    ∃ ls, ValueCode declared g (v :: used) ls g' (v :: used) v (fun _ _ => True)
      fun _ val => some (f (val v)) := by
  simp only [Gen.gives_bind] at h
  obtain ⟨_, g1, h1, h2⟩ := h
  obtain ⟨r, ls, rfl, hs1, hfrag, hbr⟩ := Gen.materialize_code hg hD List.mem_cons_self h1
  have hput := Gen.put_unary_code hs1 hknown hsig h2
  refine ⟨ls ++ [.unary mn r.val], hput.sound, ⟨hfrag.emits.trans hput.emits, ?_, ?_⟩, ?_, ?_⟩
  · intro x
    have hb := hfrag.balanced x
    rw [hput.names, hput.spills]
    simpa using hb
  · refine hfrag.closed.append ?_
    simp [Closed, targets_unary _ _ hsig]
  · intro x hx
    rw [Touches, List.flatMap_append]
    rcases hbr.touches hx with hx | ⟨w, hw, hwx⟩
    · exact .inl (List.mem_append_left _ hx)
    · exact .inr ⟨w, hw, by rw [hput.operandOf, hwx]⟩
  · intro P k σ out m val hP hsits _ hm hh
    obtain ⟨hsits1, hsits2⟩ := Image.sits_append.1 hsits
    obtain ⟨m1, hp1, hm1, hh1, hreg⟩ :=
      runs_of_brings hP hD hg List.mem_cons_self hbr hsits1 hm hh
    obtain ⟨hp2, hm2, -⟩ := hm1.unary hP hsig (hf m1) hsits2
    rw [hreg] at hp2 hm2
    refine ⟨_, hp1.trans hp2, by simpa [Nat.add_assoc] using hm2, ?_⟩
    have hh2 := hh1.setRegister hs1.holding List.mem_cons_self hbr.operandOf (f (val v))
    intro w hw
    rw [hput.operandOf]
    exact hh2 w hw

/-- The value in a register is cut down to 1. -/
theorem normalize_code {u : Unit} (hg : g.Sound declared used) (hv : v ∈ used)
    (hr : g.operandOf v = .register r.val)
    (h : (do
      let done ← Gen.newLabel "done"
      Gen.put (.branch .brez r.val done)
      Gen.put (.move (.register r.val) (.immediate 1))
      Gen.put (.label done) : Gen Unit).Gives g u g') :
    ∃ ls, ValueCode declared g used ls g' used v (fun _ _ => True)
      fun _ val => some (if val v = 0 then 0 else 1) := by
  simp only [Gen.gives_bind] at h
  obtain ⟨done, g1, h1, _, g2, h2, _, g3, h3, h4⟩ := h
  obtain ⟨hs1, he1, hop1, hgen, hn1, hsp1⟩ := Gen.newLabel_code hg (by decide) h1
  have a2 := Gen.put_branch_code hs1 (by decide) rfl hgen.isLabel h2
  have a3 := Gen.put_set_code a2.sound h3
  have a4 := Gen.put_label_code a3.sound hgen.isLabel h4
  have a := (a2.trans a3).trans a4
  have hop : ∀ w, g'.operandOf w = g.operandOf w := fun w => (a.operandOf w).trans (hop1 w)
  refine ⟨[.branch .brez r.val done, .move (.register r.val) (.immediate 1), .label done], a.sound,
    ⟨he1.trans a.emits, ?_, ?_⟩, fun x ⟨w, hw, hwx⟩ => .inr ⟨w, hw, by rw [hop, hwx]⟩, ?_⟩
  · intro x
    rw [a.names, a.spills, hn1, hsp1]
    simp only [labels_cons_branch, labels_cons_move, labels_cons_label, labels_nil,
      Array.toList_push, List.count_append]
    omega
  · simp [Closed, targets_branch .brez r.val done rfl]
  · intro P k σ out m val hP hsits _ hm hh
    have htarget : P.labels.target? done = some (.code (k + 2)) := hsits.2.2.1
    have hval : m.regs.get r.castSucc = val v := by
      have := hh v hv
      rw [hr] at this
      exact this.register
    obtain ⟨hsits1, m1, hp1, hregs, hmem, hm1⟩ :=
      hm.branch (p := fun x => x = 0) hP rfl (fun _ _ => rfl) htarget hsits
    rw [hval] at hm1
    have hh1 : Holds P g used val m1 := hh.of_eq (fun _ => rfl) hregs hmem
    by_cases hz : val v = 0
    · simp only [hz, decide_true, if_true] at hm1 ⊢
      refine ⟨m1, hp1, hm1, ?_⟩
      change Holds P g' used (Function.update val v 0) m1
      rw [← hz, Function.update_eq_self]
      exact hh1.of_eq hop rfl rfl
    · simp only [hz, decide_false, if_false] at hm1 ⊢
      obtain ⟨hp2, hm2, -⟩ := hm1.load hP hsits1 (w := 1) rfl
      refine ⟨_, hp1.trans hp2, hm2, ?_⟩
      exact (hh1.setRegister hg.holding hv hr 1).of_eq hop rfl rfl

/-- The test that a branch makes. -/
def passes : Mnemonic → Word → Bool
  | .brez, d => d = 0
  | .brpo, d => 0 < d
  | .brne, d => d < 0
  | _, _ => false

/-- A row of tests goes to the target if one of them holds, and on behind them otherwise. -/
theorem Sees.branches {mns : List Mnemonic} {x : Text} {j : Nat} {ls : List Line} {d : Word}
    (hP : P.Linked) (hmns : ∀ mn ∈ mns, mn ∈ [Mnemonic.brez, .brpo, .brne])
    (hx : P.labels.target? x = some (.code j))
    (hs : P.Sits k (mns.map (.branch · r.val x) ++ ls)) (hm : Sees P k σ out m)
    (hd : m.regs.get r.castSucc = d) :
    ∃ m', Path (Within P σ out) m m' ∧ m'.regs = m.regs ∧ m'.memory = m.memory ∧
      Sees P (if mns.any (passes · d) then j else k + mns.length) σ out m' := by
  induction mns generalizing k m with
  | nil => exact ⟨m, .refl m, rfl, rfl, by simpa using hm⟩
  | cons mn mns ih =>
    have hstep : P.Sits (k + 1) (mns.map (.branch · r.val x) ++ ls) ∧
        ∃ m', Path (Within P σ out) m m' ∧ m'.regs = m.regs ∧ m'.memory = m.memory ∧
          Sees P (if passes mn (m.regs.get r.castSucc) then j else k + 1) σ out m' := by
      have hmn := hmns mn List.mem_cons_self
      simp only [List.mem_cons, List.not_mem_nil, or_false] at hmn
      rcases hmn with rfl | rfl | rfl
      · exact hm.branch hP rfl (fun _ _ => rfl) hx hs
      · exact hm.branch hP rfl (fun _ _ => rfl) hx hs
      · exact hm.branch hP rfl (fun _ _ => rfl) hx hs
    obtain ⟨hs1, m1, hp1, hr1, hmem1, hm1⟩ := hstep
    rw [hd] at hm1
    by_cases ht : passes mn d = true
    · rw [if_pos ht] at hm1
      exact ⟨m1, hp1, hr1, hmem1, by simpa [ht] using hm1⟩
    · rw [if_neg ht] at hm1
      obtain ⟨m2, hp2, hr2, hmem2, hm2⟩ :=
        ih (fun q hq => hmns q (List.mem_cons_of_mem _ hq)) hs1 hm1 (by rw [hr1]; exact hd)
      refine ⟨m2, hp1.trans hp2, hr2.trans hr1, hmem2.trans hmem1, ?_⟩
      simpa [ht, Nat.add_assoc, Nat.add_comm 1] using hm2

/-- A comparison is refuted by one of its tests iff it does not hold of the difference. -/
theorem any_refutations {op : Operator} (h : op.kind = .relop) (d : Word) :
    (Gen.refutations op.attr).any (passes · d) = !op.holds d := by
  have hz : d = 0 ↔ d.toInt = 0 := by rw [← Int64.toInt_inj]; rfl
  have hp : 0 < d ↔ 0 < d.toInt := Int64.lt_iff_toInt_lt
  have hn : d < 0 ↔ d.toInt < 0 := Int64.lt_iff_toInt_lt
  have hp' : 0 ≤ d ↔ 0 ≤ d.toInt := Int64.le_iff_toInt_le
  have hn' : d ≤ 0 ↔ d.toInt ≤ 0 := Int64.le_iff_toInt_le
  rw [Bool.eq_iff_iff]
  cases op <;> simp [Operator.kind] at h <;>
    simp [Gen.refutations, Operator.attr, Operator.holds, passes, hz, hp, hn, hp', hn'] <;> omega

theorem refutations_tests {op : Operator} (h : op.kind = .relop) :
    ∀ mn ∈ Gen.refutations op.attr, mn ∈ [Mnemonic.brez, .brpo, .brne] := by
  cases op <;> simp [Operator.kind] at h <;> decide

/-- Branches to a zero that stands behind a one. -/
def decision (tests : List Mnemonic) (r : Int) (no done : Text) : List Line :=
  tests.map (.branch · r no) ++ [.move (.register r) (.immediate 1), .jump done, .label no,
    .move (.register r) (.immediate 0), .label done]

theorem closed_decision {tests : List Mnemonic} (r : Int) (no done : Text)
    (h : ∀ mn ∈ tests, signature mn = [.register, .codeLabel]) :
    Closed (decision tests r no done) := by
  have hlabels : labels (decision tests r no done) = [no, done] := by simp [decision]
  intro l hl x hx
  rw [hlabels]
  rcases List.mem_append.1 hl with hl | hl
  · obtain ⟨mn, hmn, rfl⟩ := List.mem_map.1 hl
    rw [targets_branch mn _ _ (h mn hmn)] at hx
    simp [List.mem_singleton.1 hx]
  · simp only [List.mem_cons, List.not_mem_nil, or_false] at hl
    rcases hl with rfl | rfl | rfl | rfl | rfl <;> simp at hx
    simp [hx]

/-- The value in a register becomes the truth value of a comparison with zero. -/
theorem decide_code {op : Operator} {u : Unit} (hop : op.kind = .relop) (hg : g.Sound declared used)
    (hv : v ∈ used) (hr : g.operandOf v = .register r.val)
    (h : (do
      let no ← Gen.newLabel "false"
      let done ← Gen.newLabel "done"
      for mn in Gen.refutations op.attr do
        Gen.put (.branch mn r.val no)
      Gen.put (.move (.register r.val) (.immediate 1))
      Gen.put (.jump done)
      Gen.put (.label no)
      Gen.put (.move (.register r.val) (.immediate 0))
      Gen.put (.label done) : Gen Unit).Gives g u g') :
    ∃ ls, g'.operandOf v = .register r.val ∧ ValueCode declared g used ls g' used v (fun _ _ => True)
      fun _ val => some (truth (op.holds (val v))) := by
  simp only [Gen.gives_bind] at h
  obtain ⟨no, g1, h1, done, g2, h2, _, g3, h3, _, g4, h4, _, g5, h5, _, g6, h6, _, g7, h7, h8⟩ := h
  have htests := refutations_tests hop
  have hbranch : ∀ mn ∈ Gen.refutations op.attr,
      mn ∈ Mnemonic.known ∧ signature mn = [.register, .codeLabel] := by
    intro mn hmn
    have hall : ∀ mn ∈ [Mnemonic.brez, .brpo, .brne],
        mn ∈ Mnemonic.known ∧ signature mn = [.register, .codeLabel] := by decide
    exact hall mn (htests mn hmn)
  obtain ⟨hs1, he1, hop1, hgen1, hn1, hsp1⟩ := Gen.newLabel_code hg (by decide) h1
  obtain ⟨hs2, he2, hop2, hgen2, hn2, hsp2⟩ := Gen.newLabel_code hs1 (by decide) h2
  have a3 := Gen.put_branches_code hs2 hgen1.isLabel hbranch h3
  have a4 := Gen.put_set_code a3.sound h4
  have a5 := Gen.put_jump_code a4.sound hgen2.isLabel h5
  have a6 := Gen.put_label_code a5.sound hgen1.isLabel h6
  have a7 := Gen.put_set_code a6.sound h7
  have a8 := Gen.put_label_code a7.sound hgen2.isLabel h8
  have a := a3.trans (a4.trans (a5.trans (a6.trans (a7.trans a8))))
  have hop' : ∀ w, g'.operandOf w = g.operandOf w :=
    fun w => (a.operandOf w).trans ((hop2 w).trans (hop1 w))
  refine ⟨decision (Gen.refutations op.attr) r.val no done, (hop' v).trans hr, a.sound,
    ⟨he1.trans (he2.trans a.emits), ?_, closed_decision _ _ _ fun mn hmn => (hbranch mn hmn).2⟩,
    fun x ⟨w, hw, hwx⟩ => .inr ⟨w, hw, by rw [hop', hwx]⟩, ?_⟩
  · intro x
    rw [a.names, a.spills, hn2, hsp2, hn1, hsp1]
    simp only [decision, labels_append, labels_map_branch, labels_cons_move, labels_cons_jump,
      labels_cons_label, labels_nil, Array.toList_push, List.count_append, List.count_cons,
      List.count_nil]
    omega
  · intro P k σ out m val hP hsits _ hm hh
    have hval : m.regs.get r.castSucc = val v := by
      have := hh v hv
      rw [hr] at this
      exact this.register
    have hsits2 := (Image.sits_append.1 hsits).2
    rw [width_map_branch] at hsits2
    have hno := hsits2.2.2.1
    have hdone := hsits2.2.2.2.2.1
    obtain ⟨m1, hp1, hr1, hmem1, hm1⟩ := hm.branches hP htests hno hsits hval
    have hh1 : Holds P g used val m1 := hh.of_eq (fun _ => rfl) hr1 hmem1
    rw [any_refutations hop] at hm1
    rw [decision, width_append, width_map_branch, ← Nat.add_assoc]
    cases hd : op.holds (val v) with
    | false =>
      rw [hd] at hm1
      obtain ⟨hp2, hm2, -⟩ := hm1.load hP (w := 0) hsits2.2.2.2 rfl
      exact ⟨_, hp1.trans hp2, hm2, (hh1.setRegister hg.holding hv hr 0).of_eq hop' rfl rfl⟩
    | true =>
      rw [hd] at hm1
      obtain ⟨hp2, hm2, hs2⟩ := hm1.load hP (w := 1) hsits2 rfl
      obtain ⟨hp3, hm3, -⟩ := hm2.jumpTo hP hdone hs2
      exact ⟨_, (hp1.trans hp2).trans hp3, hm3,
        (hh1.setRegister hg.holding hv hr 1).of_eq hop' rfl rfl⟩

theorem sign_code {s : Sign} {u : Unit} (hD : ∀ x, declared x → x.IsIdentifier)
    (hg : g.Sound declared (v :: used)) (h : (s.lower v).Gives g u g') :
    ∃ ls, ValueCode declared g (v :: used) ls g' (v :: used) v (fun _ _ => True)
      fun _ val => some (s.apply (val v)) := by
  cases s with
  | plus =>
    obtain ⟨-, rfl⟩ := Gen.gives_pure.1 h
    refine ⟨[], hg, .refl g, fun _ hx => .inr hx, ?_⟩
    intro P k σ out m val _ _ _ hm hh
    refine ⟨m, .refl m, hm, ?_⟩
    change Holds P g (v :: used) (Function.update val v (val v)) m
    rw [Function.update_eq_self]
    exact hh
  | minus => exact unary_code hD (by decide) rfl (fun _ _ => rfl) hg h
  | not =>
    obtain ⟨ls, hc⟩ := unary_code (f := fun x => if x = 0 then 1 else 0) hD (by decide) rfl
      (fun _ _ => rfl) hg h
    refine ⟨ls, hc.sound, hc.fragment, hc.touches, ?_⟩
    simpa [Sign.apply, truth] using hc.runs

/-- Both operands are truth values where the operator asks for them. -/
def TruthValues (op : Operator) (x y : Word) : Prop :=
  op.operandType = .bool → (x = 0 ∨ x = 1) ∧ (y = 0 ∨ y = 1)

/-- Conjunction of truth values is their product. -/
theorem mul_eq_truth {x y : Word} (h : TruthValues .and x y) :
    x * y = truth (x ≠ 0 && y ≠ 0) := by
  obtain ⟨rfl | rfl, rfl | rfl⟩ := h rfl <;> decide

/-- Disjunction of truth values is their sum, cut down to 1. -/
theorem add_eq_truth {x y : Word} (h : TruthValues .or x y) :
    (if x + y = 0 then 0 else 1) = truth (x ≠ 0 || y ≠ 0) := by
  obtain ⟨rfl | rfl, rfl | rfl⟩ := h rfl <;> decide

/-- The left value becomes the truth value of a comparison, in a register. -/
theorem compare_code {op : Operator} {left right : Nat} {u : Unit}
    (hD : ∀ x, declared x → x.IsIdentifier) (hop : op.kind = .relop)
    (hg : g.Sound declared (right :: left :: used)) (hright : right ∉ left :: used)
    (h : (Gen.compare op.attr left right).Gives g u g') :
    ∃ (r : Fin 3) (ls : List Line), g'.operandOf left = .register r.val ∧
      ValueCode declared g (right :: left :: used) ls g' (left :: used) left (fun _ _ => True)
        fun _ val => some (truth (op.holds (val left - val right))) := by
  obtain ⟨q, g1, h1, h2⟩ := Gen.gives_bind.1 h
  obtain ⟨r, ls, rfl, hr, hc⟩ := combine_code (f := fun x y => .ok (x - y)) hD (by decide) rfl
    (fun _ _ _ => rfl) (fun _ _ _ h => by cases h) hg hright h1
  obtain ⟨ls', hr', hc'⟩ := decide_code hop hc.sound List.mem_cons_self hr h2
  exact ⟨r, _, hr', hc.append (F := fun d => some (truth (op.holds d))) hc'⟩

theorem operator_code {op : Operator} {left right : Nat} {u : Unit}
    (hD : ∀ x, declared x → x.IsIdentifier) (hg : g.Sound declared (right :: left :: used))
    (hright : right ∉ left :: used) (h : (op.lower left right).Gives g u g') :
    ∃ ls, ValueCode declared g (right :: left :: used) ls g' (left :: used) left
      (fun _ val => TruthValues op (val left) (val right))
      fun _ val => op.apply (val left) (val right) := by
  have hcombine : ∀ {mn : Mnemonic} {f : Word → Word → Word} {q : Int} {g₁ : Generator},
      mn ∈ Mnemonic.known → signature mn = [.register, .source] →
      (∀ (m : Machine) a b,
        m.effect { op := mn, a, b } = m.arith { op := mn, a, b } fun x y => .ok (f x y)) →
      (Gen.combine mn left right).Gives g q g₁ →
      ∃ (r : Fin 3) (ls : List Line), q = r.val ∧ g₁.operandOf left = .register r.val ∧
        ValueCode declared g (right :: left :: used) ls g₁ (left :: used) left (fun _ _ => True)
          fun _ val => some (f (val left) (val right)) := by
    intro mn f q g₁ hknown hsig hf hc
    exact combine_code hD hknown hsig hf (fun _ _ _ h => by cases h) hg hright hc
  have hrel : op.kind = .relop → ∃ ls, ValueCode declared g (right :: left :: used) ls g'
      (left :: used) left (fun _ _ => True)
      fun _ val => some (truth (op.holds (val left - val right))) := by
    intro hop
    rw [show op.lower left right = Gen.compare op.attr left right by
      cases op <;> simp [Operator.kind] at hop <;> rfl] at h
    obtain ⟨r, ls, -, hc⟩ := compare_code hD hop hg hright h
    exact ⟨ls, hc⟩
  cases op with
  | times =>
    obtain ⟨q, h⟩ := Gen.gives_discard.1 h
    obtain ⟨r, ls, -, -, hc⟩ := hcombine (by decide) rfl (fun _ _ _ => rfl) h
    exact ⟨ls, hc.congr (fun _ _ _ => trivial) (fun _ _ _ => rfl)⟩
  | slash =>
    obtain ⟨q, h⟩ := Gen.gives_discard.1 h
    obtain ⟨r, ls, -, -, hc⟩ := combine_code (f := divide) hD (by decide) rfl (fun _ _ _ => rfl)
      (by
        intro x y c hxy
        unfold divide at hxy
        split at hxy <;> cases hxy
        rfl) hg hright h
    refine ⟨ls, hc.congr (fun _ _ _ => trivial) (fun _ val _ => ?_)⟩
    simp only [divide, Operator.apply]
    split <;> rfl
  | and =>
    obtain ⟨q, h⟩ := Gen.gives_discard.1 h
    obtain ⟨r, ls, -, -, hc⟩ := hcombine (by decide) rfl (fun _ _ _ => rfl) h
    exact ⟨ls, hc.congr (fun _ _ _ => trivial) (fun _ _ hpre => congrArg some (mul_eq_truth hpre))⟩
  | plus =>
    obtain ⟨q, h⟩ := Gen.gives_discard.1 h
    obtain ⟨r, ls, -, -, hc⟩ := hcombine (by decide) rfl (fun _ _ _ => rfl) h
    exact ⟨ls, hc.congr (fun _ _ _ => trivial) (fun _ _ _ => rfl)⟩
  | minus =>
    obtain ⟨q, h⟩ := Gen.gives_discard.1 h
    obtain ⟨r, ls, -, -, hc⟩ := hcombine (by decide) rfl (fun _ _ _ => rfl) h
    exact ⟨ls, hc.congr (fun _ _ _ => trivial) (fun _ _ _ => rfl)⟩
  | or =>
    obtain ⟨q, g1, h1, h2⟩ := Gen.gives_bind.1 h
    obtain ⟨r, ls, rfl, hr, hc⟩ := hcombine (by decide) rfl (fun _ _ _ => rfl) h1
    obtain ⟨ls', hc'⟩ := normalize_code hc.sound List.mem_cons_self hr h2
    refine ⟨_, (hc.append (F := fun d => some (if d = 0 then 0 else 1)) hc').congr
      (fun _ _ _ => trivial) (fun _ _ hpre => congrArg some (add_eq_truth hpre))⟩
  | equal | notEqual | greater | greaterEqual | less | lessEqual =>
    obtain ⟨ls, hc⟩ := hrel rfl
    exact ⟨ls, hc.congr (fun _ _ _ => trivial) (fun _ _ _ => rfl)⟩

section Expressions

variable {t : SymbolTable} {scope : Text}

/-- A value that is not loaded yet. -/
theorem leaf_code {o : Assembly.Operand} {f : Store → Word}
    (ho : (∃ n, o = .immediate n) ∨ ∃ x, o = .memory x ∧ declared x)
    (hread : ∀ {P k σ out m}, Sees P k σ out m → P.Reads m (f σ) o)
    (hg : g.Sound declared used) (h : (Gen.newValue o).Gives g v g') :
    v ∉ used ∧ g'.operandOf v = o ∧ ValueCode declared g used [] g' (v :: used) v
      (fun σ _ => σ.Boolean t scope) fun σ _ => some (f σ) := by
  obtain ⟨hs, he, hb, hnew, hv, hop⟩ := Gen.newValue_code hg ho h
  refine ⟨hnew, hv, hs, ⟨he, hb, by simp [Closed]⟩,
    fun x ⟨u, hu, hux⟩ => .inr ⟨u, List.mem_cons_of_mem _ hu, by rw [hop u hu, hux]⟩, ?_⟩
  intro P k σ out m val hP _ _ hm hh
  refine ⟨m, .refl m, hm, ?_⟩
  intro u hu
  rw [Function.update_apply]
  split
  · rename_i huv
    rw [huv, hv]
    exact hread hm
  · rename_i huv
    have hu := (List.mem_cons.1 hu).resolve_left huv
    rw [hop u hu]
    exact hh u hu

/-- The codes of two operands and of the operator between them. -/
theorem binary_code {op : Operator} {a b : Expr} {left right : Nat} {g₁ g₂ g₃ : Generator}
    {lsa lsb lso : List Line} (hta : a.type? t scope = some op.operandType)
    (htb : b.type? t scope = some op.operandType) (hr : right ∉ left :: used)
    (ha : ValueCode declared g used lsa g₁ (left :: used) left (fun σ _ => σ.Boolean t scope)
      fun σ _ => a.eval σ)
    (hb : ValueCode declared g₁ (left :: used) lsb g₂ (right :: left :: used) right
      (fun σ _ => σ.Boolean t scope) fun σ _ => b.eval σ)
    (ho : ValueCode declared g₂ (right :: left :: used) lso g₃ (left :: used) left
      (fun _ val => TruthValues op (val left) (val right))
      fun _ val => op.apply (val left) (val right)) :
    ValueCode declared g used (lsa ++ (lsb ++ lso)) g₃ (left :: used) left
      (fun σ _ => σ.Boolean t scope) fun σ _ => (Expr.binary op a b).eval σ := by
  refine ⟨ho.sound, ha.fragment.trans (hb.fragment.trans ho.fragment), fun x hx => ?_, ?_⟩
  · rw [← List.append_assoc]
    exact ho.touches_append (hb.touches_append (ha.touches x hx))
  intro P k σ out m val hP hsits hσ hm hh
  obtain ⟨hsa, hsits⟩ := Image.sits_append.1 hsits
  obtain ⟨hsb, hso⟩ := Image.sits_append.1 hsits
  have heval : (Expr.binary op a b).eval σ =
      (a.eval σ).bind fun x => (b.eval σ).bind fun y => op.apply x y := rfl
  rw [heval, width_append, width_append, ← Nat.add_assoc, ← Nat.add_assoc]
  refine (ha.runs P k σ out m val hP hsa hσ hm hh).bind fun x m1 hx hm1 hh1 => ?_
  refine (hb.runs P _ σ out m1 _ hP hsb hσ hm1 hh1).bind fun y m2 hy hm2 hh2 => ?_
  have hne : left ≠ right := by
    rintro rfl
    exact hr List.mem_cons_self
  have htruth : TruthValues op x y := by
    intro hbool
    rw [hbool] at hta htb
    exact ⟨Expr.eval_boolean hσ hta hx, Expr.eval_boolean hσ htb hy⟩
  have hpre : TruthValues op (Function.update (Function.update val left x) right y left)
      (Function.update (Function.update val left x) right y right) := by
    simpa only [Function.update_self, Function.update_of_ne hne] using htruth
  have hrun := ho.runs P _ σ out m2 _ hP hso hpre hm2 hh2
  simp only [Function.update_self, Function.update_of_ne hne] at hrun
  refine hrun.mono fun w m' hw u hu => ?_
  have hur : u ≠ right := by
    rintro rfl
    exact hr hu
  have hval : Function.update (Function.update (Function.update val left x) right y) left w u =
      Function.update val left w u := by
    by_cases hul : u = left
    · rw [hul, Function.update_self, Function.update_self]
    · simp only [Function.update_of_ne hul, Function.update_of_ne hur]
  rw [← hval]
  exact hw u hu

/-- The code of an expression computes its value and keeps all values in use. -/
theorem expr_code (hD : ∀ x, declared x → x.IsIdentifier) {e : Expr}
    (hnames : ∀ x ∈ e.names, declared x) {type : ExprType} (ht : e.type? t scope = some type)
    (hg : g.Sound declared used)
    (h : e.lower.Gives g v g') :
    v ∉ used ∧ ∃ ls, (∀ x ∈ e.names, Touches ls g' (v :: used) x) ∧
      ValueCode declared g used ls g' (v :: used) v
        (fun σ _ => σ.Boolean t scope) fun σ _ => e.eval σ := by
  induction e generalizing g g' used v type with
  | var x =>
    have hx : declared x := hnames x (List.mem_singleton_self x)
    obtain ⟨hnew, hv, hc⟩ := leaf_code (f := fun σ => σ x) (.inr ⟨x, rfl, hx⟩)
      (fun hm hxd => hm.stores x hxd (hD x hx)) hg h
    refine ⟨hnew, [], fun y hy => .inr ⟨v, List.mem_cons_self, ?_⟩, hc⟩
    rw [hv, List.mem_singleton.1 hy]
  | num n =>
    obtain ⟨hnew, -, hc⟩ := leaf_code (f := fun _ => Int64.ofNat n) (.inl ⟨_, rfl⟩) (fun _ => rfl) hg h
    exact ⟨hnew, [], fun _ hx => (List.not_mem_nil hx).elim, hc⟩
  | sign s e ih =>
    simp only [Expr.type?, Option.ite_none_right_eq_some] at ht
    simp only [Expr.lower, Gen.gives_bind, Gen.gives_pure] at h
    obtain ⟨_, g1, h1, _, _, h2, rfl, rfl⟩ := h
    obtain ⟨hnew, ls, htouch, hc⟩ := ih hnames ht.1 hg h1
    obtain ⟨ls', hc'⟩ := sign_code hD hc.sound h2
    refine ⟨hnew, _, fun x hx => hc'.touches_append (htouch x hx),
      (hc.append (F := fun w => some (s.apply w)) hc').congr (fun _ _ h => h) ?_⟩
    intro σ _ _
    cases he : e.eval σ <;> simp [Expr.eval, he]
  | binary op a b iha ihb =>
    simp only [Expr.type?, Option.ite_none_right_eq_some] at ht
    obtain ⟨⟨hta, htb⟩, -⟩ := ht
    simp only [Expr.lower, Gen.gives_bind, Gen.gives_pure] at h
    obtain ⟨left, g1, h1, right, g2, h2, _, g3, h3, rfl, rfl⟩ := h
    obtain ⟨hna, hnb⟩ := List.forall_mem_append.1 hnames
    obtain ⟨hl, lsa, hta', ha⟩ := iha hna hta hg h1
    obtain ⟨hr, lsb, htb', hb⟩ := ihb hnb htb ha.sound h2
    obtain ⟨lso, ho⟩ := operator_code hD hb.sound hr h3
    have htouch : ∀ x ∈ a.names ++ b.names, Touches ((lsa ++ lsb) ++ lso) g3 (left :: used) x := by
      intro x hx
      refine ho.touches_append ?_
      rcases List.mem_append.1 hx with hx | hx
      · exact hb.touches_append (hta' x hx)
      · exact (htb' x hx).imp_left fun hx => by
          rw [List.flatMap_append]
          exact List.mem_append_right _ hx
    rw [List.append_assoc] at htouch
    exact ⟨hl, lsa ++ (lsb ++ lso), htouch, binary_code hta htb hr ha hb ho⟩

end Expressions

end OnePass.Machine

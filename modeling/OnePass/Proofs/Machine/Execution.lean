import OnePass.Proofs.Machine.Effect
import OnePass.Proofs.Machine.Image
import OnePass.Proofs.Source.Semantics

namespace OnePass.Machine

open Assembler Assembly Source

/-- Steps without a fault, from states that keep an invariant. -/
inductive Path (I : Machine → Prop) : Machine → Machine → Prop where
  | refl (m : Machine) : Path I m m
  | step {m m₁ m' : Machine} (hm : I m) (hr : m.halted = false) (hs : m.step = (none, m₁))
      (h : Path I m₁ m') : Path I m m'

namespace Path

variable {I : Machine → Prop} {m m' m'' : Machine}

theorem trans (h : Path I m m') (k : Path I m' m'') : Path I m m'' := by
  induction h with
  | refl => exact k
  | step hm hr hs _ ih => exact .step hm hr hs (ih k)

theorem one (hm : I m) (hr : m.halted = false) (hs : m.step = (none, m')) : Path I m m' :=
  .step hm hr hs (.refl m')

end Path

/-- The machine halted behind the instruction that it has begun. -/
def stopped (m : Machine) : Machine := { m.begun with halted := true }

/-- What expressions leave alone: the output, the room for more of it, and the fourth register. -/
structure Outside where
  output : Array Word
  room : Option Nat := none
  reserved : Word := 0

/-- An output that takes every line; the fourth register is never used. -/
instance : Coe (Array Word) Outside := ⟨fun output => { output }⟩

/-- The machine stands at index `k` with the variables and the output of the source. -/
structure Sees (P : Image) (k : Nat) (σ : Store) (out : Outside) (m : Machine) : Prop where
  pc : m.pc = Int64.ofNat k
  code : m.code = P.code
  running : m.halted = false
  room : m.room = out.room
  size : m.memory.size = P.data.length
  reserved : m.regs[3] = out.reserved
  stores : ∀ x ∈ P.data, x.IsIdentifier → P.word m x = σ x
  output : m.output = out.output

/-- The machine is about to run an instruction of the code. -/
def Within (P : Image) (σ : Store) (out : Outside) (m : Machine) : Prop :=
  ∃ k < P.code.size, Sees P k σ out m

variable {P : Image} {k : Nat} {σ : Store} {out : Outside} {m : Machine} {i : Instruction}

theorem toInt_ofNat {n : Nat} (h : n < wordLimit) : (Int64.ofNat n).toInt = n :=
  Int64.toInt_ofNat_of_lt h

/-- One step of a machine that stands at an instruction. -/
theorem Sees.step_eq (hP : P.Linked) (hm : Sees P k σ out m) (hi : P.code[k]? = some i) :
    m.step =
      match m.effect i with
      | .ok e => (none, m.begun.apply e)
      | .error c => (some (.failed m.pc i c), m.stopped) := by
  have hk : k < P.code.size := (Array.getElem?_eq_some_iff.1 hi).1
  have hlt := hP.code_lt
  have hpc : m.pc.toInt = k := by rw [hm.pc, toInt_ofNat (Nat.lt_trans hk hlt)]
  have hf : m.fetch? = some i := by
    rw [fetch?, hpc, if_pos (by omega), hm.code, Int.toNat_natCast, hi]
  rw [Machine.step_eq, hm.running, hf]
  rfl

theorem Sees.path_one (hP : P.Linked) (hm : Sees P k σ out m) (hi : P.code[k]? = some i)
    {e : Effect} (he : m.effect i = .ok e) : Path (Within P σ out) m (m.begun.apply e) := by
  have hk : k < P.code.size := (Array.getElem?_eq_some_iff.1 hi).1
  refine .one ⟨k, hk, hm⟩ hm.running ?_
  rw [hm.step_eq hP hi, he]

section Effects

theorem Sees.begun_pc (hm : Sees P k σ out m) : m.begun.pc = Int64.ofNat (k + 1) := by
  change m.pc + 1 = _
  rw [hm.pc, Int64.ofNat_add]
  rfl

theorem Sees.none (hm : Sees P k σ out m) : Sees P (k + 1) σ out (m.begun.apply .none) :=
  ⟨hm.begun_pc, hm.code, hm.running, hm.room, hm.size, hm.reserved, hm.stores, hm.output⟩

theorem Sees.jump (hm : Sees P k σ out m) (j : Nat) :
    Sees P j σ out (m.begun.apply (.jump (Int64.ofNat j))) :=
  ⟨rfl, hm.code, hm.running, hm.room, hm.size, hm.reserved, hm.stores, hm.output⟩

theorem Sees.setRegister (hm : Sees P k σ out m) {r : Fin 4} (hr : r ≠ 3) (w : Word) :
    Sees P (k + 1) σ out (m.begun.apply (.setRegister r w)) := by
  refine ⟨hm.begun_pc, hm.code, hm.running, hm.room, hm.size, ?_, hm.stores, hm.output⟩
  have hne : r.val ≠ 3 := fun h => hr (Fin.ext h)
  change (m.regs.set r w)[3] = out.reserved
  rw [Vector.getElem_set_ne _ _ hne]
  exact hm.reserved

theorem Sees.print {out : Array Word} (hm : Sees P k σ out m) (w : Word) :
    Sees P (k + 1) σ (out.push w) (m.begun.apply (.print w)) := by
  refine ⟨hm.begun_pc, hm.code, hm.running, ?_, hm.size, hm.reserved, hm.stores, ?_⟩
  · change m.room.map _ = Option.none
    rw [hm.room]
    rfl
  · change m.output.push w = _
    rw [hm.output]

/-- Writing the word of a name changes that word alone. -/
theorem Sees.word_setMemory (hm : Sees P k σ out m) {x y : Text} (hx : x ∈ P.data) (w : Word) :
    P.word (m.begun.apply (.setMemory (P.data.idxOf x) w)) y = if y = x then w else P.word m y := by
  have hlt : P.data.idxOf x < m.memory.size := by
    rw [hm.size]
    exact List.idxOf_lt_length_of_mem hx
  change (m.memory.setIfInBounds (P.data.idxOf x) w)[P.data.idxOf y]?.getD 0 = _
  rw [Array.getElem?_setIfInBounds]
  by_cases hyx : y = x
  · subst hyx
    simp [hlt]
  · have hne : P.data.idxOf x ≠ P.data.idxOf y := by
      intro h
      exact hyx ((List.idxOf_inj hx).1 h).symm
    rw [if_neg hne, if_neg hyx]
    rfl

/-- Writing a word that belongs to no variable. -/
theorem Sees.setMemory (hm : Sees P k σ out m) {x : Text} (hx : x ∈ P.data) (hn : ¬x.IsIdentifier)
    (w : Word) : Sees P (k + 1) σ out (m.begun.apply (.setMemory (P.data.idxOf x) w)) := by
  refine ⟨hm.begun_pc, hm.code, hm.running, hm.room, ?_, hm.reserved, ?_, hm.output⟩
  · change (m.memory.setIfInBounds _ w).size = _
    rw [Array.size_setIfInBounds, hm.size]
  · intro y hy hyid
    rw [hm.word_setMemory hx, if_neg (by rintro rfl; exact hn hyid)]
    exact hm.stores y hy hyid

/-- Writing the word of a variable. -/
theorem Sees.setVariable (hm : Sees P k σ out m) {x : Text} (hx : x ∈ P.data) (w : Word) :
    Sees P (k + 1) (Function.update σ x w) out
      (m.begun.apply (.setMemory (P.data.idxOf x) w)) := by
  refine ⟨hm.begun_pc, hm.code, hm.running, hm.room, ?_, hm.reserved, ?_, hm.output⟩
  · change (m.memory.setIfInBounds _ w).size = _
    rw [Array.size_setIfInBounds, hm.size]
  · intro y hy hyid
    rw [hm.word_setMemory hx, Function.update_apply]
    split
    · rfl
    · exact hm.stores y hy hyid

end Effects

section Operands

variable {c : OperandClass} {o : Assembly.Operand} {b : Operand} {w : Word} {x : Text}

theorem register_ofInt (r : Fin 4) : register (.register (Int64.ofInt r.val)) = .ok r := by
  match r with
  | 0 | 1 | 2 | 3 => rfl

theorem Sees.place_eq (hP : P.Linked) (hm : Sees P k σ out m) (hx : x ∈ P.data) :
    m.place (Int64.ofNat (P.data.idxOf x)) = .ok (P.data.idxOf x) := by
  have hlt := List.idxOf_lt_length_of_mem hx
  have hdata := hP.data_lt
  rw [place, toInt_ofNat (Nat.lt_trans hlt hdata), if_pos ⟨by omega, by rw [hm.size]; omega⟩, Int.toNat_natCast]

/-- The word of a variable is read at its address. -/
theorem Sees.readMemory_eq (hP : P.Linked) (hm : Sees P k σ out m) (hx : x ∈ P.data)
    (hid : x.IsIdentifier) : m.readMemory (Int64.ofNat (P.data.idxOf x)) = .ok (σ x) := by
  rw [readMemory, hm.place_eq hP hx, ← hm.stores x hx hid]
  rfl

/-- A data operand is linked to the address of its name. -/
theorem linkOperand?_memory (hP : P.Linked) (hc : c ≠ .codeLabel)
    (h : linkOperand? P.labels c (.memory x) = some b) :
    x ∈ P.data ∧ b = .memory (Int64.ofNat (P.data.idxOf x)) := by
  simp only [linkOperand?] at h
  split at h
  · rw [if_neg hc] at h
    cases h
  · rename_i a ha
    rw [if_neg hc] at h
    cases h
    obtain ⟨hx, rfl⟩ := hP.address x a ha
    exact ⟨hx, rfl⟩
  · cases h

theorem Sees.source_eq (hP : P.Linked) (hm : Sees P k σ out m) (hc : c ≠ .codeLabel)
    (h : linkOperand? P.labels c o = some b) (hr : P.Reads m w o) : m.source b = .ok w := by
  cases o with
  | immediate n =>
    cases h
    exact congrArg Except.ok hr
  | register r =>
    obtain ⟨i, rfl, hw⟩ := hr
    cases h
    simp only [source, register_ofInt]
    exact congrArg Except.ok hw
  | memory x =>
    obtain ⟨hx, rfl⟩ := linkOperand?_memory hP hc h
    have hw : (m.memory[P.data.idxOf x]?).getD 0 = w := hr hx
    simp only [source, readMemory, hm.place_eq hP hx]
    exact congrArg Except.ok hw

end Operands

section Lines

variable {ls : List Line} {o : Assembly.Operand} {w : Word} {x : Text} {r : Fin 3}

/-- The register of the machine that a generated operand names. -/
theorem register_linked (r : Fin 3) : register (.register (Int64.ofInt r.val)) = .ok r.castSucc :=
  register_ofInt r.castSucc

theorem castSucc_ne (r : Fin 3) : r.castSucc ≠ 3 := Fin.ne_of_lt (Fin.castSucc_lt_last r)

theorem link?_one {l : Labels} {mn : Mnemonic} {c : OperandClass} (hsig : signature mn = [c])
    (h : link? l (.instruction mn [o]) = some i) :
    ∃ a, linkOperand? l c o = some a ∧ i = { op := mn, a } := by
  simp only [link?, hsig, Option.bind_eq_bind, Option.bind_eq_some_iff, Option.pure_def,
    Option.some.injEq] at h
  obtain ⟨a, ha, rfl⟩ := h
  exact ⟨a, ha, rfl⟩

theorem link?_two {l : Labels} {mn : Mnemonic} {c d : OperandClass} {p : Assembly.Operand}
    (hsig : signature mn = [c, d]) (h : link? l (.instruction mn [o, p]) = some i) :
    ∃ a b, linkOperand? l c o = some a ∧ linkOperand? l d p = some b ∧ i = { op := mn, a, b } := by
  simp only [link?, hsig, Option.bind_eq_bind, Option.bind_eq_some_iff, Option.pure_def,
    Option.some.injEq] at h
  obtain ⟨a, ha, b, hb, rfl⟩ := h
  exact ⟨a, b, ha, hb, rfl⟩

/-- Loading a register. -/
theorem Sees.load (hP : P.Linked) (hm : Sees P k σ out m)
    (hs : P.Sits k (.move (.register r.val) o :: ls)) (hr : P.Reads m w o) :
    Path (Within P σ out) m (m.begun.apply (.setRegister r.castSucc w)) ∧
      Sees P (k + 1) σ out (m.begun.apply (.setRegister r.castSucc w)) ∧ P.Sits (k + 1) ls := by
  obtain ⟨⟨i, hl, hi⟩, hs⟩ := hs
  obtain ⟨_, b, ⟨⟩, hb, rfl⟩ := link?_two rfl hl
  refine ⟨hm.path_one hP hi ?_, hm.setRegister (castSucc_ne r) w, hs⟩
  simp only [effect, hm.source_eq hP (by decide) hb hr]
  change m.store (.register _) w = _
  simp only [store, register_linked]
  rfl

/-- Storing a register. -/
theorem Sees.store (hP : P.Linked) (hm : Sees P k σ out m)
    (hs : P.Sits k (.move (.memory x) (.register r.val) :: ls)) :
    x ∈ P.data ∧ Path (Within P σ out) m
      (m.begun.apply (.setMemory (P.data.idxOf x) (m.regs.get r.castSucc))) ∧ P.Sits (k + 1) ls := by
  obtain ⟨⟨i, hl, hi⟩, hs⟩ := hs
  obtain ⟨a, _, ha, ⟨⟩, rfl⟩ := link?_two rfl hl
  obtain ⟨hx, rfl⟩ := linkOperand?_memory hP (by decide) ha
  refine ⟨hx, hm.path_one hP hi ?_, hs⟩
  simp only [effect, source, register_linked]
  change m.store (.memory _) _ = _
  simp only [Machine.store, hm.place_eq hP hx]
  rfl

/-- Replacing the value of a register by a function of it. -/
theorem Sees.unary (hP : P.Linked) (hm : Sees P k σ out m) {mn : Mnemonic} {f : Word → Word}
    (hsig : signature mn = [.register])
    (hf : ∀ a, m.effect { op := mn, a } = m.update a f)
    (hs : P.Sits k (.unary mn r.val :: ls)) :
    Path (Within P σ out) m (m.begun.apply (.setRegister r.castSucc (f (m.regs.get r.castSucc)))) ∧
      Sees P (k + 1) σ out (m.begun.apply (.setRegister r.castSucc (f (m.regs.get r.castSucc)))) ∧
      P.Sits (k + 1) ls := by
  obtain ⟨⟨i, hl, hi⟩, hs⟩ := hs
  obtain ⟨_, ⟨⟩, rfl⟩ := link?_one hsig hl
  refine ⟨hm.path_one hP hi ?_, hm.setRegister (castSucc_ne r) _, hs⟩
  rw [hf, update, register_linked]
  rfl

/-- What an instruction with a register and a source operand is about to do. -/
theorem Sees.arith_eq (hP : P.Linked) (hm : Sees P k σ out m) {mn : Mnemonic}
    {f : Word → Word → Except Cause Word} (hsig : signature mn = [.register, .source])
    (hf : ∀ a b, m.effect { op := mn, a, b } = m.arith { op := mn, a, b } f)
    (hs : P.Sits k (.binary mn r.val o :: ls)) (hr : P.Reads m w o) :
    ∃ i, P.code[k]? = some i ∧ P.Sits (k + 1) ls ∧
      m.effect i = (f (m.regs.get r.castSucc) w).map (.setRegister r.castSucc ·) := by
  obtain ⟨⟨i, hl, hi⟩, hs⟩ := hs
  obtain ⟨_, b, ⟨⟩, hb, rfl⟩ := link?_two hsig hl
  refine ⟨_, hi, hs, ?_⟩
  rw [hf, arith, register_linked]
  change (do
    let w ← m.source b
    return Effect.setRegister r.castSucc (← f (m.regs.get r.castSucc) w)) = _
  rw [hm.source_eq hP (by decide) hb hr]
  change (do return Effect.setRegister r.castSucc (← f (m.regs.get r.castSucc) w)) = _
  cases f (m.regs.get r.castSucc) w <;> rfl

theorem Sees.jumpTo (hP : P.Linked) (hm : Sees P k σ out m) {j : Nat}
    (hx : P.labels.target? x = some (.code j)) (hs : P.Sits k (.jump x :: ls)) :
    Path (Within P σ out) m (m.begun.apply (.jump (Int64.ofNat j))) ∧
      Sees P j σ out (m.begun.apply (.jump (Int64.ofNat j))) ∧ P.Sits (k + 1) ls := by
  obtain ⟨⟨i, hl, hi⟩, hs⟩ := hs
  obtain ⟨a, ha, rfl⟩ := link?_one rfl hl
  simp only [linkOperand?, hx, if_pos, Option.some.injEq] at ha
  subst ha
  exact ⟨hm.path_one hP hi rfl, hm.jump j, hs⟩

/-- A branch goes to its target if the register passes the test, and on otherwise. -/
theorem Sees.branch (hP : P.Linked) (hm : Sees P k σ out m) {mn : Mnemonic} {p : Word → Bool}
    {j : Nat} (hsig : signature mn = [.register, .codeLabel])
    (hf : ∀ a b, m.effect { op := mn, a, b } = m.branch { op := mn, a, b } p)
    (hx : P.labels.target? x = some (.code j)) (hs : P.Sits k (.branch mn r.val x :: ls)) :
    P.Sits (k + 1) ls ∧ ∃ m', Path (Within P σ out) m m' ∧ m'.regs = m.regs ∧
      m'.memory = m.memory ∧ Sees P (if p (m.regs.get r.castSucc) then j else k + 1) σ out m' := by
  obtain ⟨⟨i, hl, hi⟩, hs⟩ := hs
  obtain ⟨_, b, ⟨⟩, hb, rfl⟩ := link?_two hsig hl
  simp only [linkOperand?, hx, if_pos, Option.some.injEq] at hb
  subst hb
  have he : m.effect { op := mn, a := .register (Int64.ofInt r.val), b := .code (Int64.ofNat j) } =
      .ok (if p (m.regs.get r.castSucc) then .jump (Int64.ofNat j) else .none) := by
    rw [hf, Machine.branch, register_linked]
    change (if p (m.regs.get r.castSucc) then Machine.jumpTo (.code (Int64.ofNat j))
      else return Effect.none) = _
    split <;> rfl
  refine ⟨hs, _, hm.path_one hP hi he, ?_⟩
  split
  · exact ⟨rfl, rfl, hm.jump j⟩
  · exact ⟨rfl, rfl, hm.none⟩

theorem Sees.outb {out : Array Word} (hP : P.Linked) (hm : Sees P k σ out m) (hs : P.Sits k (.unary .outb r.val :: ls)) :
    Path (Within P σ out) m (m.begun.apply (.print (m.regs.get r.castSucc))) ∧
      Sees P (k + 1) σ (out.push (m.regs.get r.castSucc))
        (m.begun.apply (.print (m.regs.get r.castSucc))) ∧ P.Sits (k + 1) ls := by
  obtain ⟨⟨i, hl, hi⟩, hs⟩ := hs
  obtain ⟨_, ⟨⟩, rfl⟩ := link?_one rfl hl
  refine ⟨hm.path_one hP hi ?_, hm.print _, hs⟩
  simp only [effect, register_linked]
  change m.printing (m.regs.get r.castSucc) = _
  simp [printing, hm.room]

theorem Sees.halt (hP : P.Linked) (hm : Sees P k σ out m) (hs : P.Sits k (.halt :: ls)) :
    Within P σ out m ∧ m.step = (Option.none, m.stopped) := by
  obtain ⟨⟨i, hl, hi⟩, -⟩ := hs
  cases hl
  exact ⟨⟨k, (Array.getElem?_eq_some_iff.1 hi).1, hm⟩, hm.step_eq hP hi⟩

end Lines

end OnePass.Machine

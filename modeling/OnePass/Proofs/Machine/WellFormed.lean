import OnePass.Proofs.Assembler.Agreement
import OnePass.Proofs.Machine.Run

namespace OnePass.Machine

open Assembler

/-- An address of a memory of so many words, or a place of the code or behind it. -/
structure Operand.InBounds (size words : Nat) (o : Operand) : Prop where
  address : ∀ a, o = .memory a → 0 ≤ a.toInt ∧ a.toInt < words
  target : ∀ k, o = .code k → 0 ≤ k.toInt ∧ k.toInt ≤ size

/-- An instruction of the set whose operands are taken at their places and in bounds. -/
inductive Instruction.WellFormed (size words : Nat) : Instruction → Prop where
  | mk {op : Mnemonic} {os : List Operand} (hop : op ∈ Mnemonic.known)
      (hadmitted : List.Forall₂ OperandClass.Admits (signature op) os)
      (hbounds : ∀ o ∈ os, o.InBounds size words) : WellFormed size words (instructionOf op os)

/-- The answers of an instruction that stays in bounds. -/
inductive Effect.Allowed (size : Nat) : Except Cause Effect → Prop where
  | divideByZero : Allowed size (.error .divideByZero)
  | ok {e : Effect} (h : ∀ k, e = .jump k → 0 ≤ k.toInt ∧ k.toInt ≤ size) : Allowed size (.ok e)

variable {size words : Nat} {m : Machine} {o : Operand} {i : Instruction}

theorem register_of_admits (h : OperandClass.register.Admits o) : ∃ r, register o = .ok r := by
  cases h with
  | register _ hnonneg hlt => exact ⟨_, dif_pos ⟨hnonneg, hlt⟩⟩
  | memory hc => simp at hc

theorem place_of_inBounds {a : Word} (hm : m.memory.size = words)
    (h : (Operand.memory a).InBounds size words) : ∃ k, m.place a = .ok k := by
  have hbound := h.address a rfl
  have hplace : 0 ≤ a.toInt ∧ a.toInt.toNat < m.memory.size := by
    rw [hm]
    omega
  exact ⟨_, if_pos hplace⟩

theorem source_of_admits (h : OperandClass.source.Admits o) (hm : m.memory.size = words)
    (hbounds : o.InBounds size words) : ∃ w, m.source o = .ok w := by
  cases h with
  | @register c n hc hnonneg hlt =>
    have hreg : OperandClass.register.Admits (.register n) := .register (by simp) hnonneg hlt
    obtain ⟨r, hr⟩ := register_of_admits hreg
    exact ⟨_, by rw [source, hr]; rfl⟩
  | immediate => exact ⟨_, rfl⟩
  | memory _ =>
    obtain ⟨k, hk⟩ := place_of_inBounds hm hbounds
    exact ⟨_, by rw [source, readMemory, hk]; rfl⟩

theorem store_of_admits (h : OperandClass.dest.Admits o) (hm : m.memory.size = words)
    (hbounds : o.InBounds size words) (w : Word) : Effect.Allowed size (m.store o w) := by
  cases h with
  | @register c n hc hnonneg hlt =>
    have hreg : OperandClass.register.Admits (.register n) := .register (by simp) hnonneg hlt
    obtain ⟨r, hr⟩ := register_of_admits hreg
    rw [store, hr]
    exact .ok (by simp)
  | memory _ =>
    obtain ⟨k, hk⟩ := place_of_inBounds hm hbounds
    rw [store, hk]
    exact .ok (by simp)

theorem jumpTo_of_admits (h : OperandClass.codeLabel.Admits o) (hbounds : o.InBounds size words) :
    Effect.Allowed size (jumpTo o) := by
  cases h with
  | register hc => simp at hc
  | memory hc => simp at hc
  | @code k =>
    have htarget := hbounds.target k rfl
    have hall : ∀ k', Effect.jump k = .jump k' → 0 ≤ k'.toInt ∧ k'.toInt ≤ size := by
      intro k' hk
      cases hk
      exact htarget
    exact .ok hall

theorem update_allowed (h : OperandClass.register.Admits o) (f : Word → Word) :
    Effect.Allowed size (m.update o f) := by
  obtain ⟨r, hr⟩ := register_of_admits h
  rw [update, hr]
  exact .ok (by simp)

theorem arith_allowed {f : Word → Word → Except Cause Word} (ha : OperandClass.register.Admits i.a)
    (hb : OperandClass.source.Admits i.b) (hm : m.memory.size = words)
    (hbounds : i.b.InBounds size words)
    (hf : ∀ x y, f x y = .error .divideByZero ∨ ∃ z, f x y = .ok z) :
    Effect.Allowed size (m.arith i f) := by
  obtain ⟨r, hr⟩ := register_of_admits ha
  obtain ⟨w, hw⟩ := source_of_admits hb hm hbounds
  have harith : m.arith i f = (f (m.regs.get r) w).map fun z => .setRegister r z := by
    rw [arith, hr, hw]
    change (f (m.regs.get r) w >>= fun z => pure (Effect.setRegister r z)) = _
    cases f (m.regs.get r) w <;> rfl
  rw [harith]
  rcases hf (m.regs.get r) w with hzero | ⟨z, hz⟩
  · rw [hzero]
    exact .divideByZero
  · rw [hz]
    exact .ok (by simp)

theorem branch_allowed (ha : OperandClass.register.Admits i.a)
    (hb : OperandClass.codeLabel.Admits i.b) (hbounds : i.b.InBounds size words)
    (test : Word → Bool) : Effect.Allowed size (m.branch i test) := by
  obtain ⟨r, hr⟩ := register_of_admits ha
  have hbranch : m.branch i test = if test (m.regs.get r) then jumpTo i.b else .ok .none := by
    rw [branch, hr]
    rfl
  rw [hbranch]
  split
  · exact jumpTo_of_admits hb hbounds
  · exact .ok (by simp)

theorem divide_eq (x y : Word) : divide x y = .error .divideByZero ∨ ∃ z, divide x y = .ok z := by
  unfold divide
  split
  · exact .inl rfl
  · exact .inr ⟨_, rfl⟩

theorem admitted_one {c : OperandClass} {os : List Operand}
    (h : List.Forall₂ OperandClass.Admits [c] os) : ∃ a, os = [a] ∧ c.Admits a := by
  cases h with
  | cons ha hnil =>
    cases hnil
    exact ⟨_, rfl, ha⟩

theorem admitted_two {c d : OperandClass} {os : List Operand}
    (h : List.Forall₂ OperandClass.Admits [c, d] os) :
    ∃ a b, os = [a, b] ∧ c.Admits a ∧ d.Admits b := by
  cases h with
  | cons ha hrest =>
    obtain ⟨b, rfl, hb⟩ := admitted_one hrest
    exact ⟨_, b, rfl, ha, hb⟩

theorem move_allowed (ha : OperandClass.dest.Admits i.a) (hb : OperandClass.source.Admits i.b)
    (hm : m.memory.size = words) (hbounds : i.a.InBounds size words ∧ i.b.InBounds size words) :
    Effect.Allowed size (do m.store i.a (← m.source i.b)) := by
  obtain ⟨w, hw⟩ := source_of_admits hb hm hbounds.2
  rw [hw]
  exact store_of_admits ha hm hbounds.1 w

theorem lea_allowed (hop : i.op = .lea) (ha : OperandClass.register.Admits i.a)
    (hb : OperandClass.dataLabel.Admits i.b) : Effect.Allowed size (m.effect i) := by
  obtain ⟨r, hr⟩ := register_of_admits ha
  rw [effect, hop]
  dsimp only
  rw [hr]
  cases hib : i.b with
  | memory a => exact .ok (by simp)
  | register n =>
    rw [hib] at hb
    cases hb with
    | register hc => simp at hc
  | absent | immediate | code | invalid =>
    rw [hib] at hb
    cases hb

theorem outb_allowed (hop : i.op = .outb) (ha : OperandClass.register.Admits i.a)
    (hroom : m.room = none) : Effect.Allowed size (m.effect i) := by
  obtain ⟨r, hr⟩ := register_of_admits ha
  have hprint : m.printing (m.regs.get r) = .ok (.print (m.regs.get r)) := by simp [printing, hroom]
  rw [effect, hop]
  dsimp only
  rw [hr]
  change Effect.Allowed size (m.printing (m.regs.get r))
  rw [hprint]
  exact .ok (by simp)

/-- A well-formed instruction has an effect within the bounds, or divides by zero. -/
theorem effect_allowed (h : i.WellFormed size words) (hm : m.memory.size = words)
    (hroom : m.room = none) : Effect.Allowed size (m.effect i) := by
  cases h with
  | @mk op os hop hadmitted hbounds =>
    cases op with
    | move =>
      obtain ⟨a, b, rfl, ha, hb⟩ := admitted_two hadmitted
      exact move_allowed ha hb hm ⟨hbounds a (by simp), hbounds b (by simp)⟩
    | add | sub | mul =>
      obtain ⟨a, b, rfl, ha, hb⟩ := admitted_two hadmitted
      exact arith_allowed ha hb hm (hbounds b (by simp)) fun x y => .inr ⟨_, rfl⟩
    | div =>
      obtain ⟨a, b, rfl, ha, hb⟩ := admitted_two hadmitted
      exact arith_allowed ha hb hm (hbounds b (by simp)) divide_eq
    | neg =>
      obtain ⟨a, rfl, ha⟩ := admitted_one hadmitted
      exact update_allowed ha (- ·)
    | not =>
      obtain ⟨a, rfl, ha⟩ := admitted_one hadmitted
      exact update_allowed ha fun x => if x = 0 then 1 else 0
    | lea =>
      obtain ⟨a, b, rfl, ha, hb⟩ := admitted_two hadmitted
      exact lea_allowed rfl ha hb
    | brun =>
      obtain ⟨a, rfl, ha⟩ := admitted_one hadmitted
      exact jumpTo_of_admits ha (hbounds a (by simp))
    | brez | brpo | brne =>
      obtain ⟨a, b, rfl, ha, hb⟩ := admitted_two hadmitted
      simp only [effect, instructionOf]
      exact branch_allowed ha hb (hbounds b (by simp)) _
    | outb =>
      obtain ⟨a, rfl, ha⟩ := admitted_one hadmitted
      exact outb_allowed rfl ha hroom
    | halt => exact .ok (by simp)
    | unassigned n => simp [Mnemonic.known] at hop

/-- The machine runs this code on so many words, and its counter is within the code or right behind it. -/
structure Contained (code : Array Instruction) (words : Nat) (m : Machine) : Prop where
  runs : m.code = code
  memory : m.memory.size = words
  room : m.room = none
  nonneg : 0 ≤ m.pc.toInt
  le_size : m.pc.toInt ≤ code.size

/-- The faults of a machine that is contained: a division by zero, or a counter right behind the code. -/
inductive Contained.Faults (size : Nat) (m : Machine) : Fault → Prop where
  | divideByZero {pc : Word} {i : Instruction} : Faults size m (.failed pc i .divideByZero)
  | behind (h : m.pc.toInt = size) : Faults size m (.badCounter m.pc)

variable {code : Array Instruction}

/-- The counter behind an instruction of the code. -/
theorem toInt_pc_begun (hlt : code.size < wordLimit) (hnonneg : 0 ≤ m.pc.toInt)
    (hpc : m.pc.toInt < code.size) : m.begun.pc.toInt = m.pc.toInt + 1 := by
  have hw : wordLimit = 9223372036854775808 := rfl
  change (m.pc + 1).toInt = m.pc.toInt + 1
  rw [Int64.toInt_add, Int64.toInt_one, Int.bmod_eq_of_le (by omega) (by omega)]

theorem Contained.begun (h : Contained code words m) (hlt : code.size < wordLimit)
    (hpc : m.pc.toInt < code.size) : Contained code words m.begun := by
  have hnext := toInt_pc_begun hlt h.nonneg hpc
  have hnonneg := h.nonneg
  exact ⟨h.runs, h.memory, h.room, by omega, by omega⟩

theorem Contained.apply (h : Contained code words m) {e : Effect}
    (he : ∀ k, e = .jump k → 0 ≤ k.toInt ∧ k.toInt ≤ code.size) :
    Contained code words (m.apply e) := by
  cases e with
  | none => exact h
  | setRegister r w => exact ⟨h.runs, h.memory, h.room, h.nonneg, h.le_size⟩
  | setMemory k w =>
    have hsize : (m.memory.setIfInBounds k w).size = words := by simp [h.memory]
    exact ⟨h.runs, hsize, h.room, h.nonneg, h.le_size⟩
  | jump k =>
    have htarget := he k rfl
    exact ⟨h.runs, h.memory, h.room, htarget.1, htarget.2⟩
  | print w =>
    have hroom : m.room.map (· - 1) = none := by simp [h.room]
    exact ⟨h.runs, h.memory, hroom, h.nonneg, h.le_size⟩
  | halt => exact ⟨h.runs, h.memory, h.room, h.nonneg, h.le_size⟩

theorem Contained.halt (h : Contained code words m) :
    Contained code words { m with halted := true } :=
  ⟨h.runs, h.memory, h.room, h.nonneg, h.le_size⟩

/-- The instruction under the counter, or a counter behind the code. -/
theorem Contained.fetch (h : Contained code words m) :
    (m.fetch? = none ∧ m.pc.toInt = code.size) ∨
      ∃ i ∈ code, m.fetch? = some i ∧ m.pc.toInt < code.size := by
  have hnonneg := h.nonneg
  have hle := h.le_size
  have hfetch : m.fetch? = code[m.pc.toInt.toNat]? := by rw [fetch?, if_pos hnonneg, h.runs]
  rw [hfetch]
  by_cases hpc : m.pc.toInt.toNat < code.size
  · have hget : code[m.pc.toInt.toNat]? = some code[m.pc.toInt.toNat] :=
      Array.getElem?_eq_getElem hpc
    exact .inr ⟨_, Array.getElem_mem hpc, hget, by omega⟩
  · exact .inl ⟨by simpa using hpc, by omega⟩

/-- One step of a machine with well-formed code. -/
theorem Contained.step (hcode : ∀ i ∈ code, i.WellFormed code.size words)
    (hlt : code.size < wordLimit) (h : Contained code words m) :
    Contained code words m.step.2 ∧ ∀ f, m.step.1 = some f → Contained.Faults code.size m f := by
  cases hhalted : m.halted with
  | true =>
    have hstep : m.step = (none, m) := by simp [Machine.step, hhalted]
    rw [hstep]
    exact ⟨h, by simp⟩
  | false =>
    rcases h.fetch with ⟨hnone, hbehind⟩ | ⟨i, hmem, hi, hpc⟩
    · have hstep : m.step = (some (.badCounter m.pc), { m with halted := true }) := by
        simp [Machine.step, hhalted, hnone]
      rw [hstep]
      refine ⟨h.halt, ?_⟩
      intro f hf
      cases hf
      exact .behind hbehind
    · have hbegun := h.begun hlt hpc
      have hallowed := effect_allowed (hcode i hmem) h.memory h.room
      cases heffect : m.effect i with
      | ok e =>
        have hstep : m.step = (none, m.begun.apply e) := by
          simp [Machine.step_eq, hhalted, hi, heffect]
        rw [heffect] at hallowed
        rw [hstep]
        cases hallowed with
        | ok he => exact ⟨hbegun.apply he, by simp⟩
      | error c =>
        have hstep : m.step = (some (.failed m.pc i c), m.stopped) := by
          rw [Machine.step_eq, hhalted, hi]
          simp [heffect, stopped]
        rw [heffect] at hallowed
        rw [hstep]
        cases hallowed
        refine ⟨hbegun.halt, ?_⟩
        intro f hf
        cases hf
        exact .divideByZero

/-- Any number of steps. -/
theorem Contained.afterSteps (hcode : ∀ i ∈ code, i.WellFormed code.size words)
    (hlt : code.size < wordLimit) (h : Contained code words m) (n : Nat) :
    Contained code words (m.afterSteps n) := by
  induction n generalizing m with
  | zero => exact h
  | succ n ih => exact ih (h.step hcode hlt).1

end OnePass.Machine

import OnePass.Machine.Step

namespace OnePass.Machine

/-- What an instruction does to the machine. -/
inductive Effect where
  | none
  | setRegister (i : Fin 4) (value : Word)
  | setMemory (i : Nat) (value : Word)
  | jump (index : Word)
  | print (value : Word)
  | halt
  deriving DecidableEq, Repr

def apply (m : Machine) : Effect → Machine
  | .none => m
  | .setRegister i w => m.setRegister i w
  | .setMemory i w => { m with memory := m.memory.setIfInBounds i w }
  | .jump i => { m with pc := i }
  | .print w => { m with output := m.output.push w, room := m.room.map (· - 1) }
  | .halt => { m with halted := true }

/-- The value of a source operand. -/
def source (m : Machine) (o : Operand) : Except Cause Word :=
  match o with
  | .register _ => do return m.regs.get (← register o)
  | .immediate n => .ok n
  | .memory a => m.readMemory a
  | _ => .error (.malformed (.unreadable o))

/-- Writing to a destination operand. -/
def store (m : Machine) (o : Operand) (w : Word) : Except Cause Effect :=
  match o with
  | .register _ => do return .setRegister (← register o) w
  | .memory a => do return .setMemory (← m.place a) w
  | _ => .error (.malformed (.unwritable o))

def jumpTo (o : Operand) : Except Cause Effect :=
  match o with
  | .code i => .ok (.jump i)
  | _ => .error (.malformed (.badTarget o))

/-- Printing a value, if the output takes it. -/
def printing (m : Machine) (w : Word) : Except Cause Effect :=
  if m.room = some 0 then .error .outputFull else .ok (.print w)

/-- Replacing a register's value by a function of it. -/
def update (m : Machine) (o : Operand) (f : Word → Word) : Except Cause Effect := do
  let r ← register o
  return .setRegister r (f (m.regs.get r))

/-- Combining a register with a source operand. -/
def arith (m : Machine) (i : Instruction) (f : Word → Word → Except Cause Word) :
    Except Cause Effect := do
  let r ← register i.a
  let w ← m.source i.b
  return .setRegister r (← f (m.regs.get r) w)

/-- Jumping if a register passes a test. -/
def branch (m : Machine) (i : Instruction) (test : Word → Bool) : Except Cause Effect := do
  let r ← register i.a
  if test (m.regs.get r) then jumpTo i.b else return .none

/-- The effect of an instruction, or why it has none, as it can be told before anything is written. -/
def effect (m : Machine) (i : Instruction) : Except Cause Effect :=
  match i.op with
  | .halt => .ok .halt
  | .move => do m.store i.a (← m.source i.b)
  | .add => m.arith i fun x y => .ok (x + y)
  | .sub => m.arith i fun x y => .ok (x - y)
  | .mul => m.arith i fun x y => .ok (x * y)
  | .div => m.arith i divide
  | .neg => m.update i.a (- ·)
  | .not => m.update i.a fun x => if x = 0 then 1 else 0
  | .lea => do
    let r ← register i.a
    match i.b with
    | .memory a => return .setRegister r a
    | _ => throw (.malformed .notAddress)
  | .brun => jumpTo i.a
  | .brez => m.branch i fun x => x = 0
  | .brpo => m.branch i fun x => 0 < x
  | .brne => m.branch i fun x => x < 0
  | .outb => do m.printing (m.regs.get (← register i.a))
  | .unassigned n => .error (.malformed (.unknownOpcode n))

variable {α : Type} {m : Machine}

namespace Exec

theorem run_bind {β : Type} (x : Exec α) (f : α → Exec β) (m : Machine) :
    (x >>= f).run m =
      match x.run m with
      | (.ok a, m') => (f a).run m'
      | (.error c, m') => (.error c, m') := by
  change (match x m with | (r, m') => ExceptT.bindCont f r m') =
    match x m with | (.ok a, m') => (f a).run m' | (.error c, m') => (.error c, m')
  cases x m with
  | mk r m' => cases r <;> rfl

/-- The action looks at the machine and writes nothing, whatever it answers. -/
def Reads (x : Exec α) (m : Machine) (r : Except Cause α) : Prop := x.run m = (r, m)

/-- In place the action does what can be told beforehand: it has that effect, or it fails and has written
nothing. -/
def Carries (x : Exec Unit) (m : Machine) (r : Except Cause Effect) : Prop :=
  x.run m =
    match r with
    | .ok e => (.ok (), m.apply e)
    | .error c => (.error c, m)

theorem reads_lift (r : Except Cause α) : Reads (liftM r) m r := by
  cases r <;> rfl

theorem reads_register (r : Fin 4) : (readRegister r).Reads m (.ok (m.regs.get r)) := rfl

theorem Reads.bind {β : Type} {x : Exec α} {f : α → Exec β} {r : Except Cause α}
    {g : α → Except Cause β} (hx : x.Reads m r) (hf : ∀ a, (f a).Reads m (g a)) :
    (x >>= f).Reads m (r >>= g) := by
  unfold Reads at *
  rw [run_bind, hx]
  cases r with
  | ok a => exact hf a
  | error c => rfl

/-- What is read comes before what is written. -/
theorem Carries.after {x : Exec α} {f : α → Exec Unit} {r : Except Cause α}
    {g : α → Except Cause Effect} (hx : x.Reads m r) (hf : ∀ a, (f a).Carries m (g a)) :
    (x >>= f).Carries m (r >>= g) := by
  unfold Reads Carries at *
  rw [run_bind, hx]
  cases r with
  | ok a => exact hf a
  | error c => rfl

theorem Carries.after_register {r : Fin 4} {f : Word → Exec Unit} {e : Except Cause Effect}
    (hf : (f (m.regs.get r)).Carries m e) : (readRegister r >>= f).Carries m e := hf

theorem load_reads (o : Operand) : (load o).Reads m (m.source o) := by
  cases o with
  | register n => exact (reads_lift _).bind reads_register
  | memory a => exact Reads.bind (r := .ok m) rfl fun m' => reads_lift _
  | _ => rfl

theorem writeRegister_carries (r : Fin 4) (w : Word) :
    (writeRegister r w).Carries m (.ok (.setRegister r w)) := rfl

theorem store_carries (o : Operand) (w : Word) : (store o w).Carries m (m.store o w) := by
  cases o with
  | register n => exact Carries.after (reads_lift _) fun r => writeRegister_carries r w
  | memory a =>
    -- The bounds are checked before the word is written.
    change (liftM (m.place a >>= fun k => pure (m.apply (.setMemory k w))) >>= set : Exec Unit).Carries m
      (m.place a >>= fun k => pure (.setMemory k w))
    cases m.place a <;> rfl
  | _ => rfl

theorem jump_carries (o : Operand) : (jump o).Carries m (jumpTo o) := by
  cases o <;> rfl

theorem print_carries (w : Word) : (print w).Carries m (m.printing w) := by
  change (if m.room = some 0 then _ else _ : Exec Unit).run m = _
  unfold printing
  split <;> rfl

theorem update_carries (o : Operand) (f : Word → Word) : (update o f).Carries m (m.update o f) := by
  refine Carries.after (reads_lift _) fun r => ?_
  exact Carries.after_register (writeRegister_carries r _)

theorem arith_carries (i : Instruction) (f : Word → Word → Except Cause Word) :
    (arith i f).Carries m (m.arith i f) := by
  refine Carries.after (reads_lift _) fun r => ?_
  refine Carries.after (load_reads i.b) fun w => ?_
  refine Carries.after_register ?_
  exact Carries.after (reads_lift _) fun y => writeRegister_carries r y

theorem branch_carries (i : Instruction) (test : Word → Bool) :
    (branch i test).Carries m (m.branch i test) := by
  refine Carries.after (reads_lift _) fun r => ?_
  refine Carries.after_register ?_
  split
  · exact jump_carries i.b
  · rfl

end Exec

open Exec in
/-- No opcode writes before its last check: in place, an instruction does what its effect says. -/
theorem execute_carries (i : Instruction) : (execute i).Carries m (m.effect i) := by
  unfold execute effect
  cases i.op with
  | halt => rfl
  | move => exact Carries.after (load_reads i.b) fun w => store_carries i.a w
  | add | sub | mul | div => exact arith_carries i _
  | neg | not => exact update_carries i.a _
  | lea =>
    refine Carries.after (reads_lift _) fun r => ?_
    cases i.b <;> rfl
  | brun => exact jump_carries i.a
  | brez | brpo | brne => exact branch_carries i _
  | outb =>
    refine Carries.after (reads_lift _) fun r => ?_
    exact Carries.after_register (print_carries _)
  | unassigned n => rfl

theorem effect_begun (m : Machine) (i : Instruction) : m.begun.effect i = m.effect i := by
  cases h : i.op <;> simp only [effect, h] <;> rfl

/-- A step is told by the effect of the instruction under the counter. -/
theorem step_eq (m : Machine) :
    m.step =
      if m.halted then (none, m)
      else match m.fetch? with
        | none => (some (.badCounter m.pc), { m with halted := true })
        | some i => match m.effect i with
          | .ok e => (none, m.begun.apply e)
          | .error c => (some (.failed m.pc i c), { m.begun with halted := true }) := by
  unfold step
  cases hi : m.fetch? with
  | none => rfl
  | some i =>
    have hcarries := execute_carries (m := m.begun) i
    rw [effect_begun] at hcarries
    unfold Exec.Carries at hcarries
    simp only [hcarries]
    cases m.effect i with
    | ok e => rfl
    | error c =>
      have hpc : m.begun.pc - 1 = m.pc := Int64.add_sub_cancel m.pc 1
      simp only [hpc]

end OnePass.Machine

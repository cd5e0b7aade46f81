import OnePass.Machine.State

namespace OnePass.Machine

/-- A part of an instruction. It works on the machine in place: what it has written when it fails stays written. -/
abbrev Exec := ExceptT Cause (StateM Machine)

/-- The register that an operand names. -/
def register (o : Operand) : Except Cause (Fin 4) :=
  match o with
  | .register n =>
    if h : 0 ≤ n.toInt ∧ n.toInt < 4 then .ok ⟨n.toInt.toNat, by omega⟩
    else .error (.malformed (.notRegister o))
  | _ => .error (.malformed (.notRegister o))

/-- Truncates toward zero; the least word divided by -1 is itself. -/
def divide (x y : Word) : Except Cause Word :=
  if y = 0 then .error .divideByZero else .ok (x / y)

namespace Exec

/-- How an action ends, and the machine that it leaves. -/
def run {α : Type} (x : Exec α) (m : Machine) : Except Cause α × Machine := x m

def readRegister (r : Fin 4) : Exec Word := return (← get).regs.get r

def writeRegister (r : Fin 4) (w : Word) : Exec Unit := modify fun m => m.setRegister r w

/-- Reads a source operand. -/
def load (o : Operand) : Exec Word := do
  match o with
  | .register _ => readRegister (← register o)
  | .immediate n => return n
  | .memory a => (← get).readMemory a
  | _ => throw (.malformed (.unreadable o))

/-- Writes to a destination operand. -/
def store (o : Operand) (w : Word) : Exec Unit := do
  match o with
  | .register _ => writeRegister (← register o) w
  | .memory a => set (← (← get).writeMemory a w)
  | _ => throw (.malformed (.unwritable o))

def jump (o : Operand) : Exec Unit := do
  match o with
  | .code i => modify fun m => { m with pc := i }
  | _ => throw (.malformed (.badTarget o))

/-- Prints a value, if the output takes it. -/
def print (w : Word) : Exec Unit := do
  let m ← get
  if m.room = some 0 then throw .outputFull
  set { m with output := m.output.push w, room := m.room.map (· - 1) }

/-- Replaces a register's value by a function of it. -/
def update (o : Operand) (f : Word → Word) : Exec Unit := do
  let r ← register o
  writeRegister r (f (← readRegister r))

/-- Combines a register with a source operand. -/
def arith (i : Instruction) (f : Word → Word → Except Cause Word) : Exec Unit := do
  let r ← register i.a
  let w ← load i.b
  writeRegister r (← f (← readRegister r) w)

/-- Jumps if a register passes a test. -/
def branch (i : Instruction) (test : Word → Bool) : Exec Unit := do
  let r ← register i.a
  if test (← readRegister r) then jump i.b

end Exec

open Exec in
/-- Carries out an instruction. -/
def execute (i : Instruction) : Exec Unit := do
  match i.op with
  | .halt => modify fun m => { m with halted := true }
  | .move => store i.a (← load i.b)
  | .add => arith i fun x y => .ok (x + y)
  | .sub => arith i fun x y => .ok (x - y)
  | .mul => arith i fun x y => .ok (x * y)
  | .div => arith i divide
  | .neg => update i.a (- ·)
  | .not => update i.a fun x => if x = 0 then 1 else 0
  | .lea =>
    let r ← register i.a
    match i.b with
    | .memory a => writeRegister r a
    | _ => throw (.malformed .notAddress)
  | .brun => jump i.a
  | .brez => branch i fun x => x = 0
  | .brpo => branch i fun x => 0 < x
  | .brne => branch i fun x => x < 0
  | .outb => print (← readRegister (← register i.a))
  | .unassigned n => throw (.malformed (.unknownOpcode n))

/-- The instruction under the counter. -/
def fetch? (m : Machine) : Option Instruction :=
  if 0 ≤ m.pc.toInt then m.code[m.pc.toInt.toNat]? else none

/-- The machine with the counter behind the instruction that it has begun. -/
def begun (m : Machine) : Machine := { m with pc := m.pc + 1, steps := m.steps + 1 }

/-- One instruction; a machine that has halted stays as it is. A failure halts it. -/
def step (m : Machine) : Option Fault × Machine :=
  if m.halted then (none, m)
  else match m.fetch? with
    | none => (some (.badCounter m.pc), { m with halted := true })
    | some i => match (execute i).run m.begun with
      | (.ok _, m') => (none, m')
      | (.error c, m') => (some (.failed (m'.pc - 1) i c), { m' with halted := true })

/-- Steps until the machine halts, a step fails, or `n` steps are done. -/
def runFor (limit : Word) : Nat → Machine → Option Fault × Machine
  | 0, m => if m.halted then (none, m) else (some (.stepLimit limit), m)
  | n + 1, m =>
    if m.halted then (none, m)
    else match m.step with
      | (none, m) => runFor limit n m
      | (some f, m) => (some f, m)

def defaultLimit : Word := 10000000

def limit (m : Machine) : Word := if m.maxSteps ≤ 0 then defaultLimit else m.maxSteps

/-- Runs until the step count reaches the limit. -/
def run (m : Machine) : Option Fault × Machine :=
  runFor m.limit (m.limit.toInt - m.steps.toInt).toNat m

end OnePass.Machine

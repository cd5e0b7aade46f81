import OnePass.Machine.Instruction

namespace OnePass

namespace Machine

/-- Why an instruction is not well formed. -/
inductive Malformed where
  | notRegister (o : Operand)
  | unreadable (o : Operand)
  | unwritable (o : Operand)
  | badTarget (o : Operand)
  | notAddress
  | unknownOpcode (code : Int)
  deriving DecidableEq, Repr

/-- Why an instruction cannot be carried out. -/
inductive Cause where
  | divideByZero
  | badAddress (address : Word)
  | malformed (m : Malformed)
  /-- The output refused a line. -/
  | outputFull
  deriving DecidableEq, Repr

inductive Fault where
  | stepLimit (limit : Word)
  | badCounter (pc : Word)
  | failed (pc : Word) (i : Instruction) (cause : Cause)
  deriving DecidableEq, Repr

def Malformed.message : Malformed → Text
  | notRegister o => "expected register, got " ++ o.text
  | unreadable o => "cannot read " ++ o.text
  | unwritable o => "cannot write " ++ o.text
  | badTarget o => "branch target " ++ o.text
  | notAddress => "lea needs a memory operand"
  | unknownOpcode n => "opcode " ++ Text.ofInt n

def Cause.message : Cause → Text
  | divideByZero => "division by zero"
  | badAddress a => "memory address out of range: " ++ Text.ofWord a
  | malformed m => "malformed instruction: " ++ m.message
  | outputFull => "disk full"

def Fault.message : Fault → Text
  | stepLimit n => "step limit exceeded (" ++ Text.ofWord n ++ ")"
  | badCounter pc => "program counter out of range: " ++ Text.ofWord pc
  | failed pc i c => "pc " ++ Text.ofWord pc ++ " (" ++ i.text ++ "): " ++ c.message

end Machine

open Machine

structure Machine where
  regs : Vector Word 4 := .replicate 4 0
  pc : Word := 0
  halted : Bool := false
  /-- How many instructions have been started. -/
  steps : Word := 0
  code : Array Instruction := #[]
  memory : Array Word := #[]
  /-- The bound on steps of a run; none if it is not positive. -/
  maxSteps : Word := 0
  /-- The values printed, one to a line. -/
  output : Array Word := #[]
  /-- How many more lines the output takes, if there is a bound. -/
  room : Option Nat := none
  deriving Repr

namespace Machine

/-- Resets the machine for a program, if memory can be had for its data: its size is not negative and no larger
than the largest memory, which by default is one of 2^48 bytes. -/
def load? (m : Machine) (p : Program) (capacity : Nat := 35184372088832) : Option Machine :=
  if p.dataSize.toInt < 0 ∨ capacity < p.dataSize.toInt then none
  else some { m with
    regs := .replicate 4 0, pc := 0, halted := false, steps := 0, code := p.code
    memory := Array.replicate p.dataSize.toInt.toNat 0 }

/-- The place of an address in memory. -/
def place (m : Machine) (address : Word) : Except Cause Nat :=
  if 0 ≤ address.toInt ∧ address.toInt.toNat < m.memory.size then .ok address.toInt.toNat
  else .error (.badAddress address)

def readMemory (m : Machine) (address : Word) : Except Cause Word := do
  return m.memory[← m.place address]?.getD 0

def writeMemory (m : Machine) (address value : Word) : Except Cause Machine := do
  return { m with memory := m.memory.setIfInBounds (← m.place address) value }

def setRegister (m : Machine) (r : Fin 4) (value : Word) : Machine :=
  { m with regs := m.regs.set r value }

/-- The lines printed from the `n`-th on. -/
def printedFrom (m : Machine) (n : Nat) : Text :=
  (m.output.toList.drop n).flatMap fun w => Text.ofWord w ++ "\n"

end Machine

end OnePass

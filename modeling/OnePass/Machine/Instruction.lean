import OnePass.Mnemonic

namespace OnePass.Machine

inductive Operand where
  | absent
  | register (n : Word)
  | immediate (n : Word)
  /-- A word of data memory. -/
  | memory (address : Word)
  /-- An instruction by its index. -/
  | code (index : Word)
  | invalid
  deriving DecidableEq, Repr

def Operand.text : Operand → Text
  | register n => "R" ++ Text.ofWord n
  | immediate n => "#" ++ Text.ofWord n
  | memory a => "[" ++ Text.ofWord a ++ "]"
  | code i => "@" ++ Text.ofWord i
  | absent | invalid => "-"

structure Instruction where
  op : Mnemonic
  a : Operand := .absent
  b : Operand := .absent
  deriving DecidableEq, Repr

/-- Operands are shown up to the first absent one. -/
def Instruction.text (i : Instruction) : Text :=
  let name := i.op.text "Opcode"
  match i.a, i.b with
  | .absent, _ => name
  | a, .absent => name ++ " " ++ a.text
  | a, b => name ++ " " ++ a.text ++ ", " ++ b.text

/-- Code, and the number of data words it is loaded with. -/
structure Program where
  code : Array Instruction
  dataSize : Word
  deriving Repr

end OnePass.Machine

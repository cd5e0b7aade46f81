import OnePass.Machine.Step
import OnePass.Proofs.Assembly.Shape

namespace OnePass

open Assembler Assembly

namespace Machine

/-- The address of an operand, if a label of the right kind has its name. -/
def linkOperand? (ls : Labels) (c : OperandClass) : Assembly.Operand → Option Operand
  | .immediate n => some (.immediate n)
  | .register r => some (.register (Int64.ofInt r))
  | .memory x =>
    match ls.target? x with
    | some (.code i) => if c = .codeLabel then some (.code (Int64.ofNat i)) else none
    | some (.data a) => if c = .codeLabel then none else some (.memory a)
    | none => none

/-- The instruction of a line. -/
def link? (ls : Labels) : Line → Option Instruction
  | .instruction m os =>
    match signature m, os with
    | [], [] => some { op := m }
    | [c], [o] => do return { op := m, a := ← linkOperand? ls c o }
    | [c, d], [o, p] => do return { op := m, a := ← linkOperand? ls c o, b := ← linkOperand? ls d p }
    | _, _ => none
  | _ => none

/-- Code with its labels, and the names of the words of data in the order of their addresses. -/
structure Image where
  code : Array Instruction
  labels : Labels
  data : List Text

namespace Image

/-- An assembled program with names for its words of data. -/
def ofAssembled (p : Assembled) (data : List Text) : Image := ⟨p.program.code, p.labels, data⟩

/-- Indexes and addresses fit a word, and a data label has the address of its name. -/
structure Linked (P : Image) : Prop where
  code_lt : P.code.size < wordLimit
  data_lt : P.data.length < wordLimit
  address : ∀ x a, P.labels.target? x = some (.data a) →
    x ∈ P.data ∧ a = Int64.ofNat (P.data.idxOf x)

/-- The lines stand in the code from the index on. -/
def Sits (P : Image) : Nat → List Line → Prop
  | _, [] => True
  | k, .label x :: ls => P.labels.target? x = some (.code k) ∧ P.Sits k ls
  | k, .instruction m os :: ls =>
    (∃ i, link? P.labels (.instruction m os) = some i ∧ P.code[k]? = some i) ∧ P.Sits (k + 1) ls
  | k, .data _ _ :: ls => P.Sits k ls

variable {P : Image} {k : Nat} {ls ls' : List Line}

theorem sits_append : P.Sits k (ls ++ ls') ↔ P.Sits k ls ∧ P.Sits (k + width ls) ls' := by
  induction ls generalizing k with
  | nil => simp [Sits]
  | cons l ls ih =>
    cases l with
    | label x => simp [Sits, ih, and_assoc]
    | instruction m os =>
      have hw : width (.instruction m os :: ls) = width ls + 1 := List.countP_cons_of_pos rfl
      simp only [List.cons_append, Sits, ih, hw, and_assoc]
      rw [Nat.add_right_comm k 1, Nat.add_assoc]
    | data x n =>
      have hw : width (.data x n :: ls) = width ls := List.countP_cons_of_neg Bool.false_ne_true
      simp only [List.cons_append, Sits, ih, hw]

/-- The value of the word that belongs to a name. -/
def word (P : Image) (m : Machine) (x : Text) : Word := m.memory[P.data.idxOf x]?.getD 0

/-- The value of an operand, as far as there is a word for it. -/
def Reads (P : Image) (m : Machine) (w : Word) : Assembly.Operand → Prop
  | .immediate n => n = w
  | .register r => ∃ i : Fin 4, r = i.val ∧ m.regs.get i = w
  | .memory x => x ∈ P.data → P.word m x = w

end Image

end Machine

end OnePass

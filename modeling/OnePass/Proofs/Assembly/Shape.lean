import OnePass.Assembler.Program
import OnePass.Proofs.Assembly.Name
import Mathlib.Data.List.Forall2

namespace OnePass

open Assembler

/-- Lower-case letters, digits and underscores, with no digit in front. -/
def Text.IsLabel (x : Text) : Prop :=
  ∃ c cs, x = Text.ofChars (c :: cs) ∧ (Scanner.isLower c = true ∨ c = '_') ∧
    ∀ d ∈ cs, Scanner.isWordPart d = true ∨ d = '_'

theorem Text.IsIdentifier.isLabel {x : Text} (h : x.IsIdentifier) : x.IsLabel := by
  obtain ⟨c, cs, hx, hc, hcs⟩ := h
  exact ⟨c, cs, hx, .inl hc, fun d hd => .inl (hcs d hd)⟩

/-- The entry label of a program. -/
theorem Text.IsIdentifier.underscore_isLabel {x : Text} (h : x.IsIdentifier) :
    Text.IsLabel ("_" ++ x) := by
  obtain ⟨c, cs, rfl, hc, hcs⟩ := h
  refine ⟨'_', c :: cs, rfl, .inr rfl, fun d hd => .inl ?_⟩
  rcases List.mem_cons.1 hd with rfl | hd
  · simp [Scanner.isWordPart, hc]
  · exact hcs d hd

theorem Assembly.Generated.isLabel {i : Nat} {x : Text} (h : Generated i x) : x.IsLabel := by
  obtain ⟨stem, hs, rfl⟩ := h
  refine ⟨'_', _, numberedName_eq_ofChars stem i, .inr rfl, fun d hd => ?_⟩
  rcases List.mem_append.1 hd with hd | hd
  · have hall : ∀ s ∈ stems, s.toList.all (fun d => Scanner.isWordPart d || d == '_') = true := by
      decide
    simpa using List.all_eq_true.1 (hall stem hs) d hd
  · left
    have hdigit := Text.ofNat_digits hd
    simp only [Char.isDigit, Bool.and_eq_true, decide_eq_true_eq] at hdigit
    have hd' : Scanner.isDigit d = true := by
      simp only [Scanner.isDigit, Bool.and_eq_true, decide_eq_true_eq]
      exact hdigit
    simp [Scanner.isWordPart, hd']

namespace Assembly

/-- An operand that a place of this class takes. -/
def Operand.Fits (c : OperandClass) : Operand → Prop
  | immediate _ => c = .source
  | register r => (c = .register ∨ c = .dest ∨ c = .source) ∧ 0 ≤ r ∧ r < 4
  | memory x => c ≠ .register ∧ x.IsLabel

/-- The word of memory that an operand names. -/
def Operand.dataName? (c : OperandClass) : Operand → Option Text
  | memory x => if c = .codeLabel then none else some x
  | _ => none

/-- The instruction that an operand names. -/
def Operand.target? (c : OperandClass) : Operand → Option Text
  | memory x => if c = .codeLabel then some x else none
  | _ => none

namespace Line

/-- A label, or an instruction whose operands match the signature of its mnemonic. -/
def IsCode : Line → Prop
  | label x => x.IsLabel
  | instruction m os => m ∈ Mnemonic.known ∧ List.Forall₂ Operand.Fits (signature m) os
  | data _ _ => False

/-- A line that the assembler can read. -/
def Fits : Line → Prop
  | data x n => x.IsLabel ∧ 0 < n
  | l => l.IsCode

theorem IsCode.fits {l : Line} (h : l.IsCode) : l.Fits := by
  cases l with
  | label x => exact h
  | instruction m os => exact h
  | data x n => exact h.elim

/-- The data operands of a line. -/
def dataNames : Line → List Text
  | instruction m os => ((signature m).zip os).filterMap fun p => p.2.dataName? p.1
  | _ => []

/-- The branch targets of a line. -/
def targets : Line → List Text
  | instruction m os => ((signature m).zip os).filterMap fun p => p.2.target? p.1
  | _ => []

/-- The label that stands before the next instruction. -/
def label? : Line → Option Text
  | label x => some x
  | _ => none

def isInstruction : Line → Bool
  | instruction _ _ => true
  | _ => false

end Line

/-- The labels of a piece of code, in order. -/
def labels (ls : List Line) : List Text := ls.filterMap Line.label?

/-- How many instructions a piece of code has. -/
def width (ls : List Line) : Nat := ls.countP Line.isInstruction

/-- Every branch stays in the piece of code. -/
def Closed (ls : List Line) : Prop := ∀ l ∈ ls, ∀ x ∈ l.targets, x ∈ labels ls

section

variable (ls : List Line) (m : Mnemonic) (r : Int) (o p : Operand) (x : Text)

@[simp] theorem labels_nil : labels [] = [] := rfl

@[simp] theorem labels_cons_label : labels (.label x :: ls) = x :: labels ls := rfl

@[simp] theorem labels_cons_move : labels (.move o p :: ls) = labels ls := rfl

@[simp] theorem labels_cons_binary : labels (.binary m r o :: ls) = labels ls := rfl

@[simp] theorem labels_cons_unary : labels (.unary m r :: ls) = labels ls := rfl

@[simp] theorem labels_cons_jump : labels (.jump x :: ls) = labels ls := rfl

@[simp] theorem labels_cons_branch : labels (.branch m r x :: ls) = labels ls := rfl

@[simp] theorem targets_label : (Line.label x).targets = [] := rfl

@[simp] theorem targets_move : (Line.move o p).targets = [] := by
  cases o <;> cases p <;> rfl

@[simp] theorem targets_jump : (Line.jump x).targets = [x] := rfl

theorem targets_branch (h : signature m = [.register, .codeLabel]) :
    (Line.branch m r x).targets = [x] := by
  simp [Line.targets, Line.branch, h, Operand.target?]

theorem targets_unary (h : signature m = [.register]) : (Line.unary m r).targets = [] := by
  simp [Line.targets, Line.unary, h, Operand.target?]

theorem targets_binary (h : signature m = [.register, .source]) :
    (Line.binary m r o).targets = [] := by
  cases o <;> simp [Line.targets, Line.binary, h, Operand.target?]

@[simp] theorem width_nil : width [] = 0 := rfl

@[simp] theorem width_cons_label : width (.label x :: ls) = width ls :=
  List.countP_cons_of_neg Bool.false_ne_true

@[simp] theorem width_cons_move : width (.move o p :: ls) = width ls + 1 :=
  List.countP_cons_of_pos rfl

@[simp] theorem width_cons_binary : width (.binary m r o :: ls) = width ls + 1 :=
  List.countP_cons_of_pos rfl

@[simp] theorem width_cons_unary : width (.unary m r :: ls) = width ls + 1 :=
  List.countP_cons_of_pos rfl

@[simp] theorem width_cons_jump : width (.jump x :: ls) = width ls + 1 :=
  List.countP_cons_of_pos rfl

@[simp] theorem width_cons_branch : width (.branch m r x :: ls) = width ls + 1 :=
  List.countP_cons_of_pos rfl

end

section

variable (mns : List Mnemonic) (r : Int) (x : Text)

@[simp] theorem labels_map_branch : labels (mns.map (.branch · r x)) = [] := by
  induction mns with
  | nil => rfl
  | cons mn mns ih => simp [ih]

@[simp] theorem width_map_branch : width (mns.map (.branch · r x)) = mns.length := by
  induction mns with
  | nil => rfl
  | cons mn mns ih => simp [ih]

end

@[simp] theorem labels_append (a b : List Line) : labels (a ++ b) = labels a ++ labels b :=
  List.filterMap_append

@[simp] theorem width_append (a b : List Line) : width (a ++ b) = width a + width b :=
  List.countP_append

theorem Closed.append {a b : List Line} (ha : Closed a) (hb : Closed b) : Closed (a ++ b) := by
  intro l hl x hx
  rw [labels_append]
  rcases List.mem_append.1 hl with hl | hl
  · exact List.mem_append_left _ (ha l hl x hx)
  · exact List.mem_append_right _ (hb l hl x hx)

end Assembly

end OnePass

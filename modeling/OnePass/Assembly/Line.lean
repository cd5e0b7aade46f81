import OnePass.Mnemonic
import OnePass.Register

namespace OnePass.Assembly

inductive Operand where
  | immediate (n : Word)
  | register (r : Int)
  | memory (name : Text)
  deriving DecidableEq, Repr

def Operand.text : Operand → Text
  | immediate n => "#" ++ Text.ofWord n
  | register r => registerText r
  | memory name => name

inductive Line where
  | label (name : Text)
  | instruction (m : Mnemonic) (operands : List Operand)
  | data (name : Text) (size : Word)
  deriving DecidableEq, Repr

namespace Line

def move (dst src : Operand) : Line := instruction .move [dst, src]

def binary (m : Mnemonic) (r : Int) (src : Operand) : Line := instruction m [.register r, src]

def unary (m : Mnemonic) (r : Int) : Line := instruction m [.register r]

def jump (target : Text) : Line := instruction .brun [.memory target]

/-- Goes to the target if the register passes the test of the mnemonic. -/
def branch (m : Mnemonic) (r : Int) (target : Text) : Line :=
  instruction m [.register r, .memory target]

def halt : Line := instruction .halt []

/-- Between a name and its directive: tabs while the name is short. -/
def dataGap (name : Text) : Text :=
  if name.size < 7 then "\t\t" else if name.size < 15 then "\t" else " "

/-- Operands after the mnemonic. -/
def operandText : List Operand → Text
  | [] => []
  | o :: os => " " ++ o.text ++ os.flatMap fun p => (", " : Text) ++ p.text

/-- A line without its line end. -/
def text : Line → Text
  | label name => name ++ ":"
  | instruction m os => "\t\t" ++ m.text "Inst" ++ operandText os
  | data name size => name ++ ":" ++ dataGap name ++ "data " ++ Text.ofWord size

end Line

/-- Lines with their line ends. -/
def render (ls : List Line) : Text := ls.flatMap fun l => l.text ++ "\n"

theorem render_append (a b : List Line) : render (a ++ b) = render a ++ render b := by
  simp [render]

end OnePass.Assembly

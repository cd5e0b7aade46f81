import OnePass.Assembler.Statement
import OnePass.Machine.Instruction

namespace OnePass.Assembler

open Machine

/-- What a label stands for. -/
inductive Target where
  | code (index : Nat)
  | data (address : Word)
  deriving DecidableEq, Repr

def Target.operand : Target → Operand
  | code i => .code (Int64.ofNat i)
  | data a => .memory a

/-- Labels with their targets, in the order of binding. -/
abbrev Labels := List (Text × Target)

namespace Labels

def target? (ls : Labels) (name : Text) : Option Target := ls.lookup name

def bind (ls : Labels) (names : List Text) (t : Target) : Labels :=
  ls ++ names.map fun n => (n, t)

end Labels

/-- The kinds of operand that a place in an instruction takes. -/
inductive OperandClass where
  /-- A register. -/
  | register
  /-- A register or a data label. -/
  | dest
  /-- A register, an immediate number or a data label. -/
  | source
  | dataLabel
  | codeLabel
  deriving DecidableEq, Repr

def signature : Mnemonic → List OperandClass
  | .move => [.dest, .source]
  | .add | .sub | .mul | .div => [.register, .source]
  | .neg | .not | .outb => [.register]
  | .lea => [.register, .dataLabel]
  | .brun => [.codeLabel]
  | .brez | .brpo | .brne => [.register, .codeLabel]
  | .halt | .unassigned _ => []

/-- A capital R and decimal digits of any script. -/
def isRegister : Text → Bool
  | .char 'R' :: g :: t => (g :: t).all Glyph.isDigit
  | _ => false

def readRegister (t : Text) : Except Cause Operand :=
  match Numeral.readWord (t.drop 1) with
  | .ok n => if n < 4 then .ok (.register n) else .error (.invalidRegister t)
  | .error _ => .error (.invalidRegister t)

def readImmediate (t : Text) : Except Cause Operand :=
  match Numeral.readWord (t.drop 1) with
  | .ok n => .ok (.immediate n)
  | .error _ => .error (.invalidImmediate t)

def readLabel (ls : Labels) (c : OperandClass) (t : Text) : Except Cause Operand :=
  match c, ls.target? t with
  | .codeLabel, some (.code i) => .ok (Target.code i).operand
  | .codeLabel, _ => .error (.undefinedCode t)
  | .register, _ => .error (.registerExpected t)
  | _, some (.data a) => .ok (Target.data a).operand
  | _, _ => .error (.undefinedData t)

def readOperand (ls : Labels) (c : OperandClass) (t : Text) : Except Cause Operand :=
  if isRegister t then
    if c = .dataLabel ∨ c = .codeLabel then .error (.registerNotAllowed t) else readRegister t
  else if t.head? = some (.char '#') then
    if c = .source then readImmediate t else .error (.immediateNotAllowed t)
  else if isName t then readLabel ls c t
  else .error (.invalidOperand t)

/-- The size that a data directive asks for. -/
def dataSize : List Text → Except Cause Word
  | [t] => match Numeral.readWord t with
    | .ok n => if 0 < n then .ok n else .error (.dataSize t)
    | .error _ => .error (.dataSize t)
  | _ => .error .dataOperands

/-- The first pass so far: labels waiting for a place, and the places that come next. -/
structure Layout where
  labels : Labels
  pending : List Text := []
  index : Nat := 0
  address : Word := 0
  deriving Repr

namespace Layout

/-- Adds the labels of a line to those waiting; a name is used once. -/
def await (l : Layout) : List Text → Except Cause Layout
  | [] => .ok l
  | n :: ns =>
    if (l.labels.target? n).isSome ∨ n ∈ l.pending then .error (.duplicateLabel n)
    else await { l with pending := l.pending ++ [n] } ns

def bind (l : Layout) (t : Target) : Layout :=
  { l with labels := l.labels.bind l.pending t, pending := [] }

def dataDirective : Text := "data"

/-- Gives the waiting labels the place of a line, if the line has one. -/
def placeLine (l : Layout) (s : Statement) : Except Cause Layout :=
  match s.mnemonic with
  | none => .ok l
  | some m =>
    if m = dataDirective then do
      let size ← dataSize s.operands
      if l.pending.isEmpty then throw .unlabelledData
      return { l.bind (.data l.address) with address := l.address + size }
    else if (Mnemonic.ofName? m).isSome then
      .ok { l.bind (.code l.index) with index := l.index + 1 }
    else .error (.unknownInstruction m)

def line (l : Layout) (raw : Text) : Except Cause Layout := do
  let s ← Statement.read raw
  (← l.await s.labels).placeLine s

end Layout

/-- Labels bound before an error stay bound. -/
def firstPass (l : Layout) : Nat → List Text → Except AssembleError Layout × Labels
  | _, [] =>
    let l := l.bind (.code l.index)
    (.ok l, l.labels)
  | n, raw :: rest =>
    match l.line raw with
    | .ok l => firstPass l (n + 1) rest
    | .error cause => (.error ⟨n, cause⟩, l.labels)

/-- The operands of an instruction, as many as its signature has. -/
def readOperands (ls : Labels) (m : Mnemonic) (name : Text) (ts : List Text) :
    Except Cause Instruction :=
  match signature m, ts with
  | [], [] => .ok { op := m }
  | [c], [t] => do return { op := m, a := ← readOperand ls c t }
  | [c, d], [t, u] => do return { op := m, a := ← readOperand ls c t, b := ← readOperand ls d u }
  | cs, _ => .error (.operandCount name cs.length)

/-- The instruction of a line, if it has one. -/
def instruction? (ls : Labels) (raw : Text) : Except Cause (Option Instruction) := do
  let s ← Statement.read raw
  match s.mnemonic.bind fun m => (Mnemonic.ofName? m).map fun op => (m, op) with
  | some (m, op) => return some (← readOperands ls op m s.operands)
  | none => return none

/-- Instructions with the numbers of their lines. -/
def secondPass (ls : Labels) : Nat → List Text → Except AssembleError (List (Instruction × Nat))
  | _, [] => .ok []
  | n, raw :: rest =>
    match instruction? ls raw with
    | .error cause => .error ⟨n, cause⟩
    | .ok none => secondPass ls (n + 1) rest
    | .ok (some i) => (secondPass ls (n + 1) rest).map ((i, n) :: ·)

end OnePass.Assembler

namespace OnePass

open Assembler

/-- A program in machine form, with the line of each instruction and all labels. -/
structure Assembled where
  code : List (Machine.Instruction × Nat)
  dataSize : Word
  labels : Labels
  deriving DecidableEq, Repr

def Assembled.program (p : Assembled) : Machine.Program := ⟨(p.code.map Prod.fst).toArray, p.dataSize⟩

/-- Assembles a text with labels left from earlier ones, and tells the labels known afterwards. -/
def assembleWith (known : Labels) (text : Text) : Except AssembleError Assembled × Labels :=
  let raws := text.lines
  match firstPass { labels := known } 1 raws with
  | (.error e, ls) => (.error e, ls)
  | (.ok l, ls) =>
    ((secondPass ls 1 raws).map fun code => ⟨code, l.address, ls⟩, ls)

def assemble (text : Text) : Except AssembleError Assembled := (assembleWith [] text).1

end OnePass

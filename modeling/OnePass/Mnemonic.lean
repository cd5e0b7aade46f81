import OnePass.Text.Numeral

namespace OnePass

/-- What an instruction does; a number outside the list keeps its code. -/
inductive Mnemonic where
  | move | add | sub | mul | div | neg | not | lea | brun | brez | brpo | brne | outb | halt
  | unassigned (code : Int)
  deriving DecidableEq, Repr

namespace Mnemonic

def known : List Mnemonic :=
  [move, add, sub, mul, div, neg, not, lea, brun, brez, brpo, brne, outb, halt]

def ofCode (n : Int) : Mnemonic :=
  if n < 0 then unassigned n else known[n.toNat]?.getD (unassigned n)

def code : Mnemonic → Int
  | unassigned n => n
  | m => known.idxOf m

/-- The name, or the code in brackets after the given word. -/
def text (word : String) : Mnemonic → Text
  | move => "move"
  | add => "add"
  | sub => "sub"
  | mul => "mul"
  | div => "div"
  | neg => "neg"
  | not => "not"
  | lea => "lea"
  | brun => "brun"
  | brez => "brez"
  | brpo => "brpo"
  | brne => "brne"
  | outb => "outb"
  | halt => "halt"
  | unassigned n => word ++ ("(" ++ Text.ofInt n ++ ")")

/-- The mnemonic with this name. -/
def ofName? (t : Text) : Option Mnemonic := known.find? fun m => m.text "" = t

end Mnemonic

end OnePass

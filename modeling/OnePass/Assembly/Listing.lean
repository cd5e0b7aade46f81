import OnePass.Assembly.Line

namespace OnePass.Assembly

/-- The output takes one line at a time; once it has refused a line it gets no other. -/
structure Listing where
  written : Array Line := #[]
  /-- Whether the output keeps the lines that it takes, or throws them away. -/
  keeps : Bool := true
  /-- How many more lines the output takes, if there is a bound. -/
  room : Option Nat := none
  refused : Bool := false
  /-- The labels and spill words handed out; how many there are makes the next name new. -/
  names : Array Text := #[]
  spills : Array Text := #[]
  deriving Repr

namespace Listing

def keep (l : Listing) (line : Line) : Listing :=
  if l.keeps then { l with written := l.written.push line } else l

def put (l : Listing) (line : Line) : Listing :=
  if l.refused then l
  else match l.room with
    | none => l.keep line
    | some 0 => { l with refused := true }
    | some (n + 1) => { l.keep line with room := some n }

/-- The output takes and keeps every line. -/
def Accepting (l : Listing) : Prop := l.keeps = true ∧ l.room = none ∧ l.refused = false

theorem put_eq {l : Listing} (h : l.Accepting) (line : Line) :
    l.put line = { l with written := l.written.push line } := by
  simp [put, keep, h.1, h.2.1, h.2.2]

/-- A fresh label; an empty stem stands for `L`. -/
def newLabel (l : Listing) (stem : Text) : Text × Listing :=
  let stem := if stem.isEmpty then Text.ofString "L" else stem
  let name : Text := "_" ++ stem ++ Text.ofNat l.names.size
  (name, { l with names := l.names.push name })

/-- A fresh word of memory for a value that has lost its register. -/
def newSpill (l : Listing) : Text × Listing :=
  let (name, l) := l.newLabel "spill"
  (name, { l with spills := l.spills.push name })

def text (l : Listing) : Text := render l.written.toList

end Listing

end OnePass.Assembly

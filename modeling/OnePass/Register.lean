import OnePass.Text.Numeral

namespace OnePass

/-- The text of a register number; only 0 to 3 name a register. -/
def registerText (r : Int) : Text := "R" ++ Text.ofInt r

inductive RegisterError where
  | noneFree
  | notAllocated (r : Int)
  deriving DecidableEq, Repr

def RegisterError.message : RegisterError → Text
  | noneFree => "no free register"
  | notAllocated r => "register is not allocated: " ++ registerText r

structure RegisterPool where
  busy : Vector Bool 3 := .replicate 3 false
  deriving DecidableEq, Repr

namespace RegisterPool

/-- Takes the lowest free register. -/
def allocate (p : RegisterPool) : Except RegisterError (Int × RegisterPool) :=
  match (List.finRange 3).find? fun i => !p.busy[i] with
  | some i => .ok (i.val, ⟨p.busy.set i true⟩)
  | none => .error .noneFree

/-- Gives a register back. -/
def free (p : RegisterPool) (r : Int) : Except RegisterError RegisterPool :=
  if 0 ≤ r ∧ p.busy[r.toNat]? = some true then .ok ⟨p.busy.setIfInBounds r.toNat false⟩
  else .error (.notAllocated r)

def available (p : RegisterPool) : Bool := p.busy.toList.any (!·)

/-- The reserved register always counts as in use. -/
def inUse (p : RegisterPool) (r : Int) : Bool :=
  r == 3 || (0 ≤ r && p.busy[r.toNat]? == some true)

end RegisterPool

end OnePass

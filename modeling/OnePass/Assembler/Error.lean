import OnePass.Text.Numeral

namespace OnePass.Assembler

inductive Cause where
  | emptyLabel
  | invalidLabel (name : Text)
  | duplicateLabel (name : Text)
  | dataOperands
  | dataSize (size : Text)
  | unlabelledData
  | unknownInstruction (mnemonic : Text)
  | operandCount (mnemonic : Text) (count : Nat)
  | registerNotAllowed (operand : Text)
  | invalidRegister (operand : Text)
  | immediateNotAllowed (operand : Text)
  | invalidImmediate (operand : Text)
  | invalidOperand (operand : Text)
  | undefinedCode (name : Text)
  | undefinedData (name : Text)
  | registerExpected (operand : Text)
  deriving DecidableEq, Repr

end OnePass.Assembler

namespace OnePass

structure AssembleError where
  line : Nat
  cause : Assembler.Cause
  deriving DecidableEq, Repr

def AssembleError.message (e : AssembleError) : Text :=
  let place : Text := " on line " ++ Text.ofNat e.line
  match e.cause with
  | .emptyLabel => "invalid label" ++ place
  | .invalidLabel t => "invalid label '" ++ t ++ "'" ++ place
  | .duplicateLabel t => "duplicate label '" ++ t ++ "'" ++ place
  | .dataOperands => "data expects exactly one operand" ++ place
  | .dataSize t => "invalid data size" ++ place ++ ": " ++ t
  | .unlabelledData => "data without a label" ++ place
  | .unknownInstruction t => "unknown instruction" ++ place ++ ": " ++ t
  | .operandCount t n => t ++ " expects " ++ Text.ofNat n ++ " operands" ++ place
  | .registerNotAllowed t => "register '" ++ t ++ "' not allowed here" ++ place
  | .invalidRegister t => "invalid register '" ++ t ++ "'" ++ place
  | .immediateNotAllowed t => "immediate '" ++ t ++ "' not allowed here" ++ place
  | .invalidImmediate t => "invalid immediate '" ++ t ++ "'" ++ place
  | .invalidOperand t => "invalid operand '" ++ t ++ "'" ++ place
  | .undefinedCode t => "undefined code label '" ++ t ++ "'" ++ place
  | .undefinedData t => "undefined data label '" ++ t ++ "'" ++ place
  | .registerExpected t => "expected register, got '" ++ t ++ "'" ++ place

end OnePass

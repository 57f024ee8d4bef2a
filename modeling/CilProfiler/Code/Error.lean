import CilProfiler.Code.Operand

/-! # Edit errors

Reasons why an instruction cannot be created or linked.
-/

namespace CilProfiler

inductive EditError where
  /-- The operand's form is not one the opcode takes. -/
  | operandMismatch (op : Opcode) (found : Operand)
  | missingOperand (op : Opcode)
  | nullToken (op : Opcode)
  /-- A branch target was never created in this list. -/
  | unknownTarget (target : InstrId)
  /-- The instruction was never created in this list. -/
  | unknownInstruction (id : InstrId)
  | alreadyLinked (id : InstrId)
  | outOfRange (index length : Nat)
  deriving Repr, DecidableEq

def EditError.message : EditError → String
  | .operandMismatch op found =>
    "opcode " ++ op.mnemonic ++ " takes an " ++ op.operandType.name ++ " operand, got "
      ++ found.kind
  | .missingOperand op => "opcode " ++ op.mnemonic ++ " requires an operand"
  | .nullToken op => "opcode " ++ op.mnemonic ++ " requires a non-null metadata token"
  | .unknownTarget target =>
    "branch target " ++ target.text ++ " does not belong to this instruction sequence"
  | .unknownInstruction id => "unknown instruction " ++ id.text
  | .alreadyLinked id => "instruction " ++ id.text ++ " is already linked into the sequence"
  | .outOfRange index length =>
    "position " ++ index.repr ++ " is out of range for " ++ length.repr ++ " instructions"

/-- Check an operand against what the opcode takes. An absent operand is reported as missing and
    not as a mismatch. -/
def Operand.check (op : Opcode) (operand : Operand) : Except EditError Unit :=
  if operand.fits op then
    if operand.isNullToken then .error (.nullToken op) else .ok ()
  else if operand = .none then .error (.missingOperand op)
  else .error (.operandMismatch op operand)

end CilProfiler

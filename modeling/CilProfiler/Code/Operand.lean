import CilProfiler.Opcode.Basic
import CilProfiler.Metadata.Token

/-! # Inline operands

The operand of an instruction and the matrix that says which operand an opcode takes. Floating
point immediates are kept as the words they are encoded as.
-/

namespace CilProfiler

/-- Handle to an instruction in the arena it was created in. -/
structure InstrId where
  index : Nat
  deriving Repr, DecidableEq

def InstrId.text (id : InstrId) : String :=
  "#" ++ id.index.repr

inductive Operand where
  | none
  /-- Immediate of the short integer load. -/
  | int8 (value : Int8)
  /-- Short local or argument index, or the immediate of an instruction modifier. -/
  | uint8 (value : UInt8)
  | uint16 (value : UInt16)
  | int32 (value : Int32)
  | int64 (value : Int64)
  | float32 (word : UInt32)
  | float64 (word : UInt64)
  | string (value : String)
  | token (value : Token)
  | target (id : InstrId)
  | switch (targets : List InstrId)
  deriving Repr, DecidableEq

namespace Operand

def kind : Operand → String
  | .none => "none"
  | .int8 _ => "int8"
  | .uint8 _ => "uint8"
  | .uint16 _ => "uint16"
  | .int32 _ => "int32"
  | .int64 _ => "int64"
  | .float32 _ => "float32"
  | .float64 _ => "float64"
  | .string _ => "string"
  | .token _ => "token"
  | .target _ => "branch target"
  | .switch _ => "switch table"

def token? : Operand → Option Token
  | .token value => some value
  | _ => Option.none

def targets : Operand → List InstrId
  | .target id => [id]
  | .switch targets => targets
  | _ => []

/-- Encoded size of the operand behind an opcode with operands of the given type. Each target of
    a switch adds four bytes to the count. -/
def size (type : OperandType) : Operand → Nat
  | .switch targets => if type = .inlineSwitch then (targets.length + 1) * 4 else type.baseSize
  | _ => type.baseSize

/-- The operand has a form that the opcode takes. The short integer immediate is signed for the
    integer load only and unsigned for the instruction modifiers. -/
def fits (op : Opcode) : Operand → Bool
  | .none => op.operandType = .inlineNone
  | .int8 _ => op.operandType = .shortInlineI ∧ op = .ldcI4S
  | .uint8 _ =>
    (op.operandType = .shortInlineI ∧ op ≠ .ldcI4S)
      ∨ op.operandType = .shortInlineVar ∨ op.operandType = .shortInlineArg
  | .uint16 _ => op.operandType = .inlineVar ∨ op.operandType = .inlineArg
  | .int32 _ => op.operandType = .inlineI
  | .int64 _ => op.operandType = .inlineI8
  | .float32 _ => op.operandType = .shortInlineR
  | .float64 _ => op.operandType = .inlineR
  | .string _ => op.operandType = .inlineString
  | .token _ => op.operandType.takesToken
  | .target _ => op.operandType = .shortInlineBrTarget ∨ op.operandType = .inlineBrTarget
  | .switch _ => op.operandType = .inlineSwitch

def isNullToken (operand : Operand) : Bool :=
  operand.token?.any Token.isNull

end Operand
end CilProfiler

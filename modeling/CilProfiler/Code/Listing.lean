import CilProfiler.Code.InstructionList
import CilProfiler.Decimal.Shortest

/-! # Listing lines

An instruction is listed behind a label made of its offset, and branch operands show the labels
of their targets. Offsets below `0x10000` have labels of one width.
-/

namespace CilProfiler

def offsetLabel (offset : Nat) : String :=
  "IL_" ++ Hex.padded 4 offset

namespace InstructionList

/-- Label of an instruction; a handle that was never created is shown itself. -/
def label (list : InstructionList) (id : InstrId) : String :=
  match list.get? id with
  | some item => offsetLabel item.offset
  | none => id.text

def operandText (list : InstructionList) : Operand → Option String
  | .none => none
  | .int8 value => some value.toInt.repr
  | .uint8 value => some value.toNat.repr
  | .uint16 value => some value.toNat.repr
  | .int32 value => some value.toInt.repr
  | .int64 value => some value.toInt.repr
  | .float32 word => some (Shortest.text (BinaryFormat.single.read word.toNat))
  | .float64 word => some (Shortest.text (BinaryFormat.double.read word.toNat))
  | .string value => some ("\"" ++ value ++ "\"")
  | .token value => some value.text
  | .target id => some (list.label id)
  | .switch targets => some (",".intercalate (targets.map list.label))

def line (list : InstructionList) (id : InstrId) : String :=
  match list.get? id with
  | none => id.text ++ ": <unknown>"
  | some item =>
    let head := offsetLabel item.offset ++ ": " ++ item.code.mnemonic
    match list.operandText item.operand with
    | none => head
    | some operand => head ++ " " ++ operand

end InstructionList
end CilProfiler

import CilProfiler.Text.Hex

/-! # Call shapes

The part of a method signature that matters to the evaluation stack, and the reasons why a
signature blob is refused.
-/

namespace CilProfiler

/-- Shape of a method signature as a caller sees it on the stack. -/
structure CallShape where
  hasThis : Bool := false
  /-- The instance is the first declared parameter and not passed on top of them. -/
  explicitThis : Bool := false
  paramCount : Nat := 0
  hasReturn : Bool := false
  deriving Repr, DecidableEq

/-- The caller pushes an instance beside the declared parameters. -/
def CallShape.passesInstance (shape : CallShape) : Bool :=
  shape.hasThis && !shape.explicitThis

/-- Why a signature blob is refused. Positions count bytes from the start of the blob. -/
inductive BlobError where
  | empty
  | truncated (position : Nat)
  | invalidCompressedInteger (lead : UInt8) (position : Nat)
  /-- The calling convention is that of a field, local, property or instantiation blob. -/
  | notAMethodSignature (convention : UInt8)
  | unknownElementType (element : UInt8) (position : Nat)
  | nestingTooDeep (position : Nat)
  deriving Repr, DecidableEq

def byteText (byte : UInt8) : String :=
  "0x" ++ Hex.padded 2 byte.toNat

def BlobError.message : BlobError → String
  | .empty => "signature blob is empty"
  | .truncated position => "signature blob truncated at byte " ++ position.repr
  | .invalidCompressedInteger lead position =>
    "invalid compressed integer lead byte " ++ byteText lead ++ " at byte " ++ position.repr
  | .notAMethodSignature convention =>
    "calling convention " ++ byteText convention ++ " does not describe a method signature"
  | .unknownElementType element position =>
    "unknown element type " ++ byteText element ++ " at byte " ++ position.repr
  | .nestingTooDeep position => "type nesting too deep at byte " ++ position.repr

end CilProfiler

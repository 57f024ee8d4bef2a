import CilProfiler.Code.Listing
import CilProfiler.Metadata.Resolver

/-! # Depth errors

Reasons why the maximum stack depth of a body cannot be computed. Each names the offset of the
instruction at which the computation stopped.
-/

namespace CilProfiler

inductive DepthError where
  /-- A call has no token operand. -/
  | missingCallToken (offset : Nat)
  /-- The resolver has no answer about the callee. -/
  | resolve (offset : Nat) (callee : Token) (reason : LookupError)
  /-- The depth cannot be represented. -/
  | outOfRange (offset : Nat)
  /-- The signature blob of an indirect call is malformed. -/
  | signature (offset : Nat) (callee : Token) (reason : BlobError)
  deriving Repr, DecidableEq

def DepthError.message : DepthError → String
  | .missingCallToken offset =>
    "call at " ++ offsetLabel offset ++ " has no metadata token operand"
  | .resolve offset callee reason =>
    "failed to resolve callee " ++ callee.text ++ " at " ++ offsetLabel offset ++ ": "
      ++ reason.message
  | .outOfRange offset =>
    "stack depth leaves the representable range at " ++ offsetLabel offset
  | .signature offset callee reason =>
    "malformed standalone signature " ++ callee.text ++ " at " ++ offsetLabel offset ++ ": "
      ++ reason.message

end CilProfiler

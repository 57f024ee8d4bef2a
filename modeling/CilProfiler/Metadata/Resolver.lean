import CilProfiler.Metadata.Token
import CilProfiler.Signature.Basic

/-! # Resolving tokens

Whoever owns the metadata of a module answers what a call token means. An answer depends on the
token alone.
-/

namespace CilProfiler

inductive LookupError where
  | unknownToken (token : Token)
  | wrongTable (token : Token)
  | other (text : String)
  deriving Repr, DecidableEq

def LookupError.message : LookupError → String
  | .unknownToken token => "token " ++ token.text ++ " cannot be resolved"
  | .wrongTable token => "token " ++ token.text ++ " points into the wrong metadata table"
  | .other text => "metadata resolution failed: " ++ text

structure Resolver where
  /-- Signature of the method a direct or virtual call names. -/
  method : Token → Except LookupError CallShape
  /-- Blob of the standalone signature an indirect call names. -/
  signature : Token → Except LookupError (List UInt8)

end CilProfiler

import CilProfiler.Text.Hex

/-! # Call handles

A call handle is the opaque 64 bit identity of a traced callee. Zero is reserved and is no
handle.
-/

namespace CilProfiler

def Handle.bound : Nat := 0x10000000000000000

/-- Identity of a traced callee. -/
structure Handle where
  raw : Nat
  raw_pos : 0 < raw := by decide
  raw_lt : raw < Handle.bound := by decide
  deriving Repr, DecidableEq

namespace Handle

def ofNat? (raw : Nat) : Option Handle :=
  if h : 0 < raw ∧ raw < bound then some ⟨raw, h.1, h.2⟩ else none

def text (handle : Handle) : String :=
  "0x" ++ Hex.plain handle.raw

end Handle
end CilProfiler

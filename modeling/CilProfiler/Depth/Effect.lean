import CilProfiler.Opcode.Basic
import CilProfiler.Signature.Basic

/-! # Stack effects

What one instruction does to the depth of the evaluation stack. Most opcodes have a fixed
effect; the effect of a call depends on the shape of the callee. Depths are kept in the
range of a signed 32 bit number, and an effect that leaves it has no result.
-/

namespace CilProfiler

/-- Depth of the evaluation stack. Code that cannot be run may take it below zero. -/
abbrev Depth := Int

def Depth.InRange (depth : Int) : Prop :=
  -0x80000000 ≤ depth ∧ depth < 0x80000000

instance (depth : Int) : Decidable (Depth.InRange depth) :=
  inferInstanceAs (Decidable (_ ∧ _))

def Depth.ofInt? (depth : Int) : Option Depth :=
  if InRange depth then some depth else none

/-- What an opcode removes from the stack. -/
inductive Removal where
  | count (values : Nat)
  /-- Empties the stack. -/
  | all
  /-- Depends on a signature or on the method's return type. -/
  | variable
  deriving Repr, DecidableEq

def PopBehaviour.effect : PopBehaviour → Removal
  | .pop0 => .count 0
  | .pop1 | .popI | .popRef => .count 1
  | .pop1Pop1 | .popIPop1 | .popIPopI | .popIPopI8 | .popIPopR4 | .popIPopR8 | .popRefPop1
  | .popRefPopI => .count 2
  | .popIPopIPopI | .popRefPopIPopI | .popRefPopIPopI8 | .popRefPopIPopR4 | .popRefPopIPopR8
  | .popRefPopIPopRef => .count 3
  | .popAll => .all
  | .varPop => .variable

/-- Values a push behaviour adds; what depends on a signature counts as none. -/
def PushBehaviour.count : PushBehaviour → Nat
  | .push0 | .varPush => 0
  | .push1 | .pushI | .pushI8 | .pushR4 | .pushR8 | .pushRef => 1
  | .push1Push1 => 2

/-- Depth after an opcode that is no call. A variable pop leaves the depth alone: it belongs to
    the return from the method, after which no depth is carried on. The depth between popping
    and pushing has to be representable too. -/
def Opcode.depthAfter? (op : Opcode) (depth : Depth) : Option Depth := do
  let popped ←
    match op.info.pops.effect with
    | .count values => Depth.ofInt? (depth - values)
    | .all => some 0
    | .variable => some depth
  Depth.ofInt? (popped + op.info.pushes.count)

/-- Change of depth by a call. The instance of a constructor is allocated by the call and not
    passed to it, and it is always left on the stack; an indirect call also takes the function
    pointer. -/
def Opcode.callEffect (op : Opcode) (callee : CallShape) : Int :=
  let this := if callee.passesInstance ∧ op ≠ .newobj then 1 else 0
  let pointer := if op = .calli then 1 else 0
  let result := if callee.hasReturn ∨ op = .newobj then 1 else 0
  result - this - callee.paramCount - pointer

end CilProfiler

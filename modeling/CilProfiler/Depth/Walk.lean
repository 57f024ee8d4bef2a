import CilProfiler.Depth.Error
import CilProfiler.Depth.Seeds
import CilProfiler.Signature.Parse

/-! # The depth walk

One pass over the linked code gives every instruction the depth it is entered with and the depth
behind it. An instruction is entered with its seed, or else with what the instruction before it
left; nothing is carried past an instruction that stops the flow. The walk stops at the first
instruction it cannot evaluate and keeps the seeds it has found so far.

Paths that reach one instruction with different depths are not told apart: the greater depth
that is known when the walk arrives there wins.
-/

namespace CilProfiler

namespace Instruction

/-- Shape of the callee of a call. An indirect call names a standalone signature, any other
    call a method. -/
def calleeShape (resolver : Resolver) (item : Instruction) : Except DepthError CallShape :=
  match item.token? with
  | none => .error (.missingCallToken item.offset)
  | some callee =>
    if item.code = .calli then do
      let blob ← (resolver.signature callee).mapError (.resolve item.offset callee)
      (CallShape.parse blob).mapError (.signature item.offset callee)
    else
      (resolver.method callee).mapError (.resolve item.offset callee)

/-- Depth behind an instruction that is entered at `depth`. -/
def depthAfter (resolver : Resolver) (item : Instruction) (depth : Depth) :
    Except DepthError Depth := do
  let after? ←
    if item.code.flow = .call then do
      let callee ← item.calleeShape resolver
      pure (Depth.ofInt? (depth + item.code.callEffect callee))
    else
      pure (item.code.depthAfter? depth)
  match after? with
  | some after => return after
  | none => throw (.outOfRange item.offset)

end Instruction

structure DepthVisit where
  id : InstrId
  item : Instruction
  entry : Depth
  after : Depth
  deriving Repr, DecidableEq

/-- What a walk over a body has found. -/
structure DepthAnalysis where
  visits : List DepthVisit
  seeds : Seeds
  /-- Greatest depth, or why the walk stopped early. -/
  outcome : Except DepthError Nat

/-- State of the walk in front of an instruction. -/
structure DepthWalk where
  seeds : Seeds
  /-- Depth left by the instruction before. -/
  carried : Depth := 0
  peak : Depth := 0

namespace DepthWalk

def entry (walk : DepthWalk) (id : InstrId) : Depth :=
  (walk.seeds.depth? id).getD walk.carried

def advance (walk : DepthWalk) (visit : DepthVisit) : DepthWalk where
  seeds := walk.seeds.propagate visit.item.targets visit.after
  carried := if visit.item.code.flow.stopsFlow then 0 else visit.after
  peak := max (max walk.peak visit.entry) visit.after

def run (resolver : Resolver) (walk : DepthWalk) : List (InstrId × Instruction) → DepthAnalysis
  | [] => { visits := [], seeds := walk.seeds, outcome := .ok walk.peak.toNat }
  | (id, item) :: rest =>
    let entry := walk.entry id
    match item.depthAfter resolver entry with
    | .error reason => { visits := [], seeds := walk.seeds, outcome := .error reason }
    | .ok after =>
      let visit := { id, item, entry, after }
      let analysis := (walk.advance visit).run resolver rest
      { analysis with visits := visit :: analysis.visits }

end DepthWalk

namespace MethodBody

/-- Walk over the linked code of a body, from the seeds of its clauses. -/
def analyzeDepth (body : MethodBody) (resolver : Resolver) : DepthAnalysis :=
  DepthWalk.run resolver { seeds := Seeds.ofEntries body.exceptionStarts } body.code.items

/-- Smallest stack capacity that the body can run with. -/
def requiredStack (body : MethodBody) (resolver : Resolver) : Except DepthError Nat :=
  (body.analyzeDepth resolver).outcome

/-- Store the computed capacity in the header. A body whose depth cannot be computed has no
    recalculated form, and whoever holds it keeps it as it is. -/
def withRequiredStack (body : MethodBody) (resolver : Resolver) :
    Except DepthError (Nat × MethodBody) := do
  let maxStack ← body.requiredStack resolver
  return (maxStack, { body with maxStack })

/-- Recompute the capacity in the header; the answer, and the body that is left. -/
def recalculate (body : MethodBody) (resolver : Resolver) : Except DepthError Nat × MethodBody :=
  match body.withRequiredStack resolver with
  | .ok (maxStack, stored) => (.ok maxStack, stored)
  | .error reason => (.error reason, body)

end MethodBody

structure DepthCalculator where
  body : MethodBody
  resolver : Resolver
  seeds : Seeds := ∅

namespace DepthCalculator

/-- Seeded depth of an instruction after the last computation, failed ones included. -/
def seedOf? (calculator : DepthCalculator) (id : InstrId) : Option Depth :=
  calculator.seeds.depth? id

/-- Forget earlier seeds and compute the greatest depth. -/
def compute (calculator : DepthCalculator) : Except DepthError Nat × DepthCalculator :=
  let analysis := calculator.body.analyzeDepth calculator.resolver
  (analysis.outcome, { calculator with seeds := analysis.seeds })

end DepthCalculator
end CilProfiler

import CilProfiler.Snapshot.Hierarchy
import CilProfiler.Snapshot.Tally

/-! # Flat snapshots

A flat snapshot has one entry for each method, with the calls and the own ticks of all of its
visible call paths; instantiations of a generic method count for their definition. One more
entry without a method holds the elapsed time outside any recorded call, so that the ticks of
all entries make up the elapsed time.
-/

namespace CilProfiler

structure OwnTotal where
  calls : Count
  ticks : Ticks
  deriving Repr, DecidableEq

def OwnTotal.add (a b : OwnTotal) : Except Overflow OwnTotal := do
  let calls ← Count.add a.calls b.calls
  let ticks ← Ticks.add a.ticks b.ticks
  return { calls, ticks }

abbrev MethodTally := Tally MethodName OwnTotal

namespace CallStats

/-- Entries are ordered by descending ticks, and equal ones by method, with the entry without a
    method in front. -/
def flatOrder (a b : CallStats) : Ordering :=
  (compare b.ticks a.ticks).then (compare a.method b.method)

end CallStats

namespace CallTree

/-- Calls reported for the time outside any traced call. -/
def outsideCalls : Count := 1

/-- Record a node and all visible nodes below it, children first. The ticks of a child are taken
    off its caller's as soon as the child is recorded. -/
def recordOwn (tree : CallTree) (id : NodeIndex) (tally : MethodTally) :
    Except Overflow MethodTally :=
  match tree.node? id with
  | none => .ok tally
  | some node => do
    let (tally, own) ← (tree.visibleChildren id).foldlM
      (fun (tally, own) child =>
        if _h : id.index < child.index ∧ child.index < tree.nodes.size then do
          let tally ← tree.recordOwn child tally
          let own ← Ticks.sub own tree.nodes[child.index].ticks
          return (tally, own)
        else .ok (tally, own))
      (tally, node.ticks)
    match node.method with
    | none => return tally
    | some method => tally.record OwnTotal.add method.definition ⟨node.calls, own⟩
termination_by tree.nodes.size - id.index

def methodTally (tree : CallTree) : Except Overflow MethodTally :=
  (tree.visibleChildren root).foldlM (fun tally child => tree.recordOwn child tally) []

def flatList (tree : CallTree) (reading : Ticks) : Except Overflow (List CallStats) := do
  let elapsed ← tree.elapsedAt reading
  let tally ← tree.methodTally
  let recorded ← Ticks.sum (tally.map (·.2.ticks))
  let outside ← Ticks.sub elapsed recorded
  let entries : List CallStats :=
    tally.map (fun (method, total) =>
        { method := some method, calls := total.calls, ticks := total.ticks })
      ++ [{ method := none, calls := outsideCalls, ticks := outside }]
  return (entries.mergeSort fun a b => (CallStats.flatOrder a b).isLE).map fun entry =>
    { entry with percent := share entry.ticks elapsed }

def flatReport (tree : CallTree) (reading : Ticks) (entries : List CallStats) : List LogLine :=
  [⟨.debug, "Flat snapshot: " ++ (entries.length - 1).repr ++ " methods over "
    ++ (reading - tree.since).repr ++ " ticks"⟩]

end CallTree
end CilProfiler

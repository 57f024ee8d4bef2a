import CilProfiler.Snapshot.Stats
import CilProfiler.Trace.CallTree

/-! # Hierarchical snapshots

A hierarchical snapshot shows the call paths that are reached from the root over nodes with
completed calls. Siblings are ordered by descending inclusive ticks, and equal ones keep the
order of the child table.
-/

namespace CilProfiler
namespace CallTree

/-- Percentage of the root, whose elapsed time is the whole. -/
def wholePercent : Float := 100.0

/-- Siblings by descending ticks; the sort is stable. -/
def sortSiblings (nodes : List ProfileNode) : List ProfileNode :=
  nodes.mergeSort fun a b => b.stats.ticks ≤ a.stats.ticks

/-- Snapshot below a node, with percentages of `elapsed`. Children lie behind their parents in
    the arena; a child that did not would be left out. -/
def hierarchyBelow (tree : CallTree) (elapsed : Ticks) (id : NodeIndex) : List ProfileNode :=
  sortSiblings <| (tree.visibleChildren id).filterMap fun child =>
    if h : id.index < child.index ∧ child.index < tree.nodes.size then
      let node := tree.nodes[child.index]
      some {
        stats := {
          method := node.method
          calls := node.calls
          ticks := node.ticks
          percent := share node.ticks elapsed }
        children := tree.hierarchyBelow elapsed child }
    else none
termination_by tree.nodes.size - id.index

def elapsedAt (tree : CallTree) (reading : Ticks) : Except Overflow Ticks :=
  Ticks.sub reading tree.since

def hierarchy (tree : CallTree) (reading : Ticks) : Except Overflow ProfileNode := do
  let elapsed ← tree.elapsedAt reading
  let node := (tree.node? root).getD CallNode.root
  return {
    stats := {
      method := node.method
      calls := node.calls
      ticks := node.ticks
      percent := wholePercent }
    children := tree.hierarchyBelow elapsed root }

end CallTree
end CilProfiler

import CilProfiler.Log
import CilProfiler.Snapshot.Stats
import CilProfiler.Snapshot.Tally

/-! # Folded stacks

Flame graphs are drawn from folded stacks: one line for each call path, with the frames from
the outermost call to the innermost and the own ticks spent there. Paths that are written alike
make one stack. Negative own ticks count as none, each node by itself.
-/

namespace CilProfiler

structure FoldedStack where
  /-- Frames from the outermost to the innermost. -/
  stack : String
  /-- Own ticks spent on the path. -/
  weight : Count
  deriving Repr, DecidableEq

abbrev StackTally := Tally String Count

namespace FoldedStack

def separator : String := ";"

def line (entry : FoldedStack) : String :=
  entry.stack ++ " " ++ entry.weight.repr

/-- Stacks are ordered by descending weight, and equal ones by path. -/
def order (a b : FoldedStack) : Ordering :=
  (compare b.weight a.weight).then (compare a.stack b.stack)

def report (entries : List FoldedStack) : List LogLine :=
  [⟨.debug, "Built " ++ entries.length.repr ++ " unique collapsed stacks"⟩]

end FoldedStack

namespace ProfileNode

def frame (node : ProfileNode) : String :=
  match node.stats.method with
  | some method => method.text
  | none => "unknown"

mutual

/-- Record a node below the callers with the given frames, and everything below it. -/
def recordStacks (frames : List String) (tally : StackTally) :
    ProfileNode → Except Overflow StackTally
  | ⟨stats, children⟩ => do
    let node : ProfileNode := ⟨stats, children⟩
    let frames := frames ++ [node.frame]
    let own ← node.ownTicks
    let path := FoldedStack.separator.intercalate frames
    let tally ← tally.record Count.add path own.toNat
    recordSiblings frames tally children

def recordSiblings (frames : List String) (tally : StackTally) :
    List ProfileNode → Except Overflow StackTally
  | [] => .ok tally
  | node :: rest => do
    let tally ← recordStacks frames tally node
    recordSiblings frames tally rest

end

def foldedStacks (root : ProfileNode) : Except Overflow (List FoldedStack) := do
  let tally ← recordSiblings [] [] root.children
  let entries := tally.map fun (stack, weight) => (⟨stack, weight⟩ : FoldedStack)
  return entries.mergeSort fun a b => (FoldedStack.order a b).isLE

end ProfileNode
end CilProfiler

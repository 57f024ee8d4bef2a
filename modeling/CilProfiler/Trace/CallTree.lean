import CilProfiler.Counter
import CilProfiler.Trace.SlotTable
import CilProfiler.Trace.MethodName

/-! # Call trees

A call tree collects the calls of one thread. Every traced call arrives as a start and a finish:
a start moves the cursor to the child of the active call for that callee, a finish credits the
active call and moves the cursor back to its caller. Calls that are reached through the same
chain of callers share a node, so that counts and ticks add up per call path.

Nodes live in an arena in the order in which their paths were first started. The root stands for
the thread outside any traced call; it never finishes.
-/

namespace CilProfiler

structure NodeIndex where
  index : Nat
  deriving Repr, DecidableEq

def NodeIndex.text (id : NodeIndex) : String :=
  "node#" ++ id.index.repr

inductive FinishError where
  /-- The finished callee is not the active call. -/
  | nestingMismatch (expected : Option Handle) (actual : Handle)
  /-- A counter of the active call is full. -/
  | overflow (cause : Overflow)
  deriving Repr, DecidableEq

def FinishError.message : FinishError → String
  | .nestingMismatch expected actual =>
    let active :=
      match expected with
      | some handle => "Some(CallHandle(" ++ handle.raw.repr ++ "))"
      | none => "None"
    "finish of " ++ actual.text ++ " does not match the active call " ++ active
  | .overflow cause => cause.message

/-- One call path. The root has no parent, handle or method; any other node has all three. -/
structure CallNode where
  parent : Option NodeIndex := none
  handle : Option Handle := none
  method : Option MethodName := none
  calls : Count := 0
  ticks : Ticks := 0
  children : SlotTable NodeIndex := .empty

namespace CallNode

def root : CallNode := {}

/-- The node of a path that is started for the first time. -/
def child (parent : NodeIndex) (handle : Handle) (method : MethodName) : CallNode where
  parent := some parent
  handle := some handle
  method := some method

def credit (node : CallNode) (handle : Handle) (elapsed : Ticks) :
    Except FinishError CallNode :=
  if node.handle = some handle then do
    let calls ← (Count.add node.calls 1).mapError .overflow
    let ticks ← (Ticks.add node.ticks elapsed).mapError .overflow
    return { node with calls, ticks }
  else .error (.nestingMismatch node.handle handle)

def clear (node : CallNode) : CallNode :=
  { node with calls := 0, ticks := 0 }

end CallNode

/-- Call tree with a cursor at the active call. -/
structure CallTree where
  nodes : Array CallNode
  /-- Node of the active call, or the root. -/
  cursor : NodeIndex
  /-- Clock reading at the start of the elapsed time. -/
  since : Ticks

namespace CallTree

def root : NodeIndex := ⟨0⟩

/-- Tree of a thread that has made no call yet, from a clock reading on. -/
def empty (reading : Ticks) : CallTree where
  nodes := #[CallNode.root]
  cursor := root
  since := reading

def node? (tree : CallTree) (id : NodeIndex) : Option CallNode :=
  tree.nodes[id.index]?

def size (tree : CallTree) : Nat :=
  tree.nodes.size

def isIdle (tree : CallTree) : Bool :=
  tree.cursor = root

/-- Child table of a node; a node that does not exist has no children. -/
def table (tree : CallTree) (id : NodeIndex) : SlotTable NodeIndex :=
  match tree.node? id with
  | some node => node.children
  | none => .empty

/-- Handle held by each slot of a node's child table; a node that does not exist has no slots. -/
def childSlots (tree : CallTree) (id : NodeIndex) : List (Option Handle) :=
  match tree.node? id with
  | some node => node.children.slotHandles
  | none => []

/-- A node has completed at least one call since the last clear. -/
def isVisible (tree : CallTree) (id : NodeIndex) : Bool :=
  (tree.node? id).any (0 < ·.calls)

def visibleChildren (tree : CallTree) (id : NodeIndex) : List NodeIndex :=
  ((tree.table id).entries.map Prod.snd).filter tree.isVisible

/-- Enter a call of `handle` from the active call. A path that was never started before gets a
    node with the given method; any later method for it is ignored. -/
def enter (tree : CallTree) (handle : Handle) (method : MethodName) : CallTree :=
  match tree.node? tree.cursor with
  | none => tree
  | some caller =>
    let found := caller.children.findOrInsert handle ⟨tree.nodes.size⟩
    let nodes :=
      tree.nodes.setIfInBounds tree.cursor.index { caller with children := found.table }
    { tree with
      nodes :=
        if found.value = ⟨tree.nodes.size⟩ then
          nodes.push (CallNode.child tree.cursor handle method)
        else nodes
      cursor := found.value }

/-- Leave the active call, crediting it with inclusive ticks. Nothing is recorded unless `handle`
    is the active call. -/
def leave (tree : CallTree) (handle : Handle) (elapsed : Ticks) :
    Except FinishError CallTree :=
  match tree.node? tree.cursor with
  | none => .error (.nestingMismatch none handle)
  | some active => do
    let credited ← active.credit handle elapsed
    return { tree with
      nodes := tree.nodes.setIfInBounds tree.cursor.index credited
      cursor := credited.parent.getD tree.cursor }

/-- Zero every counter and restart the elapsed time at a clock reading. Nodes, tables and the
    cursor stay for the calls to come. -/
def clear (tree : CallTree) (reading : Ticks) : CallTree :=
  { tree with nodes := tree.nodes.map CallNode.clear, since := reading }

def enterReport (before after : CallTree) : List LogLine :=
  (before.table before.cursor).growthReport (after.table before.cursor)

def clearReport (tree : CallTree) : List LogLine :=
  [⟨.debug, "Cleared stats of " ++ (tree.size - 1).repr ++ " call paths"⟩]

end CallTree
end CilProfiler

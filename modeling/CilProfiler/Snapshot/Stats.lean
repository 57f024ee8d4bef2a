import CilProfiler.Counter
import CilProfiler.Decimal.Fixed
import CilProfiler.Trace.MethodName

/-! # Call statistics

The numbers of one method or call path in a snapshot, and the nodes of a hierarchical snapshot.
Ticks are inclusive in a hierarchical snapshot: the own ticks of a node are what its children
leave of them, and they are negative where the children outlast their caller.
-/

namespace CilProfiler

structure CallStats where
  /-- Absent for the root and for time outside any traced call. -/
  method : Option MethodName
  calls : Count
  ticks : Ticks
  percent : Float := 0.0
  deriving Repr

/-- Percentage of `total`; zero if nothing has elapsed. -/
def share (ticks total : Ticks) : Float :=
  if total = 0 then 0.0 else Float.ofInt ticks * 100.0 / Float.ofInt total

namespace CallStats

def percentPlaces : Nat := 2

def summary (stats : CallStats) : String :=
  let name :=
    match stats.method with
    | some method => method.text
    | none => "<untracked>"
  let percent := Fixed.text percentPlaces (BinaryFormat.double.read stats.percent.toBits.toNat)
  name ++ ": " ++ stats.calls.repr ++ " calls, " ++ stats.ticks.repr ++ " ticks ("
    ++ percent ++ "%)"

end CallStats

structure ProfileNode where
  stats : CallStats
  children : List ProfileNode
  deriving Repr

namespace ProfileNode

def childNamed? (node : ProfileNode) (name : String) : Option ProfileNode :=
  node.children.find? fun child => child.stats.method.any (·.text == name)

/-- Inclusive ticks minus the inclusive ticks of the children. -/
def ownTicks (node : ProfileNode) : Except Overflow Ticks := do
  let below ← Ticks.sum (node.children.map (·.stats.ticks))
  Ticks.sub node.stats.ticks below

mutual

def size : ProfileNode → Nat
  | ⟨_, children⟩ => 1 + sizes children

def sizes : List ProfileNode → Nat
  | [] => 0
  | node :: rest => node.size + sizes rest

end

mutual

def preorder : ProfileNode → List ProfileNode
  | ⟨stats, children⟩ => ⟨stats, children⟩ :: preorders children

def preorders : List ProfileNode → List ProfileNode
  | [] => []
  | node :: rest => node.preorder ++ preorders rest

end

end ProfileNode
end CilProfiler

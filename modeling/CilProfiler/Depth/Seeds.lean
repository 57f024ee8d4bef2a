import Std.Data.TreeMap
import CilProfiler.Body.Basic
import CilProfiler.Depth.Effect

/-! # Seeded depths

A seed is the depth at which an instruction is entered other than from the instruction before
it. Handler entries are seeded with the exception object before the walk starts; branches raise
the seeds of their targets while it runs. Depths of different branches to one target are merged
by taking the greater one.
-/

namespace CilProfiler

abbrev Seeds := Std.TreeMap Nat Depth

namespace Seeds

/-- Stack slots that the exception object takes on entry to a handler or filter. -/
def objectSlots : Depth := 1

def depth? (seeds : Seeds) (id : InstrId) : Option Depth :=
  seeds[id.index]?

/-- Seed an instruction with at least `depth`. -/
def raise (depth : Depth) (seeds : Seeds) (id : InstrId) : Seeds :=
  match seeds.depth? id with
  | none => seeds.insert id.index depth
  | some seeded => seeds.insert id.index (max seeded depth)

/-- Seeds of the instructions that are entered with an exception object. -/
def ofEntries (entries : List InstrId) : Seeds :=
  entries.foldl (fun seeds id => seeds.insert id.index objectSlots) ∅

/-- Carry the depth behind an instruction to its branch targets. An empty stack seeds nothing. -/
def propagate (seeds : Seeds) (targets : List InstrId) (depth : Depth) : Seeds :=
  if depth = 0 then seeds else targets.foldl (raise depth) seeds

end Seeds
end CilProfiler

import CilProfiler.Proofs.Snapshot.Shown
import CilProfiler.Proofs.Trace.History

/-! # Snapshots by path

A snapshot shows paths, not nodes: what it says of a path is what the path machine knows of it and
what it says of the paths that are one call longer. All that a call tree adds is the order in which
it goes through the callees of a path, which is the order of their slots.
-/

namespace CilProfiler

open PathMachine

/-- Numbers of a path in a hierarchical snapshot. -/
def PathMachine.statsOf (machine : PathMachine) (elapsed : Ticks) (path : CallPath) :
    CallStats where
  method := (machine.records path).map (·.method)
  calls := machine.callsOf path
  ticks := machine.ticksOf path
  percent := share (machine.ticksOf path) elapsed

namespace CallTree

variable {tree : CallTree} {machine : PathMachine} {handle : Handle} {path : CallPath}
  {elapsed reading : Ticks}

/-- Callees of a path that have completed calls, in the order of their slots. -/
def visibleCallees (tree : CallTree) (machine : PathMachine) (path : CallPath) : List Handle :=
  (tree.callees (machine.nodeOf path)).filter fun handle => 0 < machine.callsOf (handle :: path)

/-- Node of the hierarchical snapshot for a path. -/
def shownAt (tree : CallTree) (machine : PathMachine) (elapsed : Ticks) (path : CallPath) :
    ProfileNode :=
  tree.shown elapsed (machine.nodeOf path)

theorem hierarchyBelow_root (tree : CallTree) (machine : PathMachine) (elapsed : Ticks) :
    tree.hierarchyBelow elapsed root = (tree.shownAt machine elapsed []).children := by
  rw [shownAt, nodeOf_nil, shown]

namespace Recalls

variable (recalls : tree.Recalls machine)
include recalls

theorem nodup_visibleCallees (path : CallPath) : (tree.visibleCallees machine path).Nodup :=
  (recalls.nodup_callees _).filter _

theorem mem_visibleCallees (known : path ∈ machine.known) :
    handle ∈ tree.visibleCallees machine path ↔ 0 < machine.callsOf (handle :: path) := by
  simp only [visibleCallees, List.mem_filter, recalls.mem_callees known, decide_eq_true_eq,
    and_iff_right_iff_imp]
  exact recalls.formed.known_of_callsOf

theorem isVisible_nodeOf (known : path ∈ machine.known) :
    tree.isVisible (machine.nodeOf path) ↔ 0 < machine.callsOf path := by
  rw [isVisible_iff, recalls.callsAt_nodeOf known]

theorem visibleChildren_nodeOf (known : path ∈ machine.known) :
    tree.visibleChildren (machine.nodeOf path) = (tree.visibleCallees machine path).map
      fun handle => machine.nodeOf (handle :: path) := by
  simp only [visibleChildren, recalls.entries_nodeOf known, List.map_map, List.filter_map,
    visibleCallees, Function.comp_def]
  congr 1
  refine List.filter_congr fun handle member => ?_
  rw [Bool.eq_iff_iff, decide_eq_true_iff]
  exact recalls.isVisible_nodeOf ((recalls.mem_callees known).mp member)

/-- What holds of a path if it holds of its visible callees holds of every path. -/
@[elab_as_elim]
theorem path_induction {motive : CallPath → Prop} (known : path ∈ machine.known)
    (step : ∀ path ∈ machine.known,
      (∀ handle, 0 < machine.callsOf (handle :: path) → motive (handle :: path)) → motive path) :
    motive path := by
  suffices every : ∀ id, ∀ path ∈ machine.known, machine.nodeOf path = id → motive path from
    every _ path known rfl
  intro id
  induction id using recalls.linked.downward_induction with
  | step id ih =>
      rintro path known rfl
      refine step path known fun handle counted => ?_
      refine ih _ ?_ _ (recalls.formed.known_of_callsOf counted) rfl
      rw [recalls.visibleChildren_nodeOf known]
      exact List.mem_map_of_mem ((recalls.mem_visibleCallees known).mpr counted)

/-- A tree does not show negative ticks if the machine does not know any. -/
theorem ticksAt_nonneg (nonneg : ∀ path, 0 ≤ machine.ticksOf path) (id : NodeIndex) :
    0 ≤ tree.ticksAt id := by
  by_cases inside : id.index < tree.nodes.size
  · obtain ⟨path, known, rfl⟩ := recalls.exists_nodeOf inside
    rw [recalls.ticksAt_nodeOf known]
    exact nonneg path
  · rw [ticksAt, counters_of_outside inside]

theorem stats_shownAt (known : path ∈ machine.known) :
    (tree.shownAt machine elapsed path).stats = machine.statsOf elapsed path := by
  obtain ⟨node, found, shows⟩ := recalls.node known
  rw [shownAt, stats_shown found, statsOf, shows.method, shows.calls, shows.ticks, callsOf, ticksOf]

theorem children_shownAt (known : path ∈ machine.known) :
    (tree.shownAt machine elapsed path).children = sortSiblings
      ((tree.visibleCallees machine path).map fun handle =>
        tree.shownAt machine elapsed (handle :: path)) := by
  change tree.hierarchyBelow elapsed (machine.nodeOf path) = _
  rw [recalls.linked.hierarchyBelow_eq, recalls.visibleChildren_nodeOf known, List.map_map]
  rfl

/-- The root of a snapshot shows nothing of its own. -/
theorem hierarchy_eq (reading : Ticks) : tree.hierarchy reading = (do
    let elapsed ← tree.elapsedAt reading
    return {
      stats := { method := none, calls := 0, ticks := 0, percent := wholePercent }
      children := (tree.shownAt machine elapsed []).children }) := by
  obtain ⟨node, found, shows⟩ := recalls.node (List.mem_cons_self ..)
  rw [nodeOf_nil] at found
  have silent := recalls.formed.records_nil
  have method := shows.method
  have calls := shows.calls
  have ticks := shows.ticks
  simp only [silent, Option.map_none, Option.elim_none] at method calls ticks
  simp only [hierarchy, found, Option.getD_some, method, calls, ticks,
    hierarchyBelow_root tree machine]

/-- Recording a path goes through its visible callees in the order of their slots. -/
theorem recordOwn_nodeOf (known : path ∈ machine.known) (tally : MethodTally) :
    tree.recordOwn (machine.nodeOf path) tally = (do
      let (tally, own) ← (tree.visibleCallees machine path).foldlM
        (fun (tally, own) handle => do
          let tally ← tree.recordOwn (machine.nodeOf (handle :: path)) tally
          let own ← Ticks.sub own (machine.ticksOf (handle :: path))
          return (tally, own))
        (tally, machine.ticksOf path)
      match (machine.records path).map (·.method) with
      | none => return tally
      | some method =>
          tally.record OwnTotal.add method.definition ⟨machine.callsOf path, own⟩) := by
  obtain ⟨node, found, shows⟩ := recalls.node known
  rw [recalls.linked.recordOwn_eq found, recalls.visibleChildren_nodeOf known, List.foldlM_map,
    shows.method, shows.calls, shows.ticks]
  refine congrArg (· >>= _) (Outcome.foldlM_congr (fun handle member state => ?_) _)
  have inside := (recalls.mem_callees known).mp (List.mem_filter.mp member).1
  rw [ticksAt, recalls.counters_nodeOf inside]

theorem methodTally_eq : tree.methodTally = (tree.visibleCallees machine []).foldlM
    (fun tally handle => tree.recordOwn (machine.nodeOf [handle]) tally) [] := by
  rw [methodTally, ← machine.nodeOf_nil, recalls.visibleChildren_nodeOf (List.mem_cons_self ..),
    List.foldlM_map]

end Recalls
end CallTree
end CilProfiler

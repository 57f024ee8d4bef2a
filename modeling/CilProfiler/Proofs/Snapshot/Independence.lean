import CilProfiler.Proofs.Snapshot.Agreement
import CilProfiler.Proofs.Snapshot.ByPath
import CilProfiler.Snapshot.FoldedStack

/-! # Snapshots do not show the order of calls

Two threads that have made the same calls, each in an order of its own, have trees with other node
numbers, other cursors and tables that have grown in other steps. Their snapshots are the same, down
to the order of siblings with equal ticks: the handles of a path's callees alone decide how its
table is laid out, and along the paths both walks meet the same numbers in the same order.
-/

namespace CilProfiler

open PathMachine

/-- Two machines that agree on all paths that either of them knows agree on every path. -/
theorem PathMachine.Formed.records_eq {machine machine' : PathMachine} (formed : machine.Formed)
    (formed' : machine'.Formed)
    (agree : ∀ path ∈ machine.started ++ machine'.started,
      machine'.records path = machine.records path) (path : CallPath) :
    machine'.records path = machine.records path := by
  by_cases started : path ∈ machine.started ++ machine'.started
  · exact agree path started
  · have absent := started
    rw [List.mem_append, ← formed.record, ← formed'.record] at absent
    simp only [not_or, Option.not_isSome_iff_eq_none] at absent
    rw [absent.1, absent.2]

namespace CallTree

variable {tree other : CallTree} {machine machine' : PathMachine} {handle : Handle}
  {path : CallPath} {elapsed reading : Ticks} {id id' : NodeIndex}

namespace Recalls

/-- Slots of a path's table. -/
theorem childSlots_nodeOf (recalls : tree.Recalls machine) (known : path ∈ machine.known) :
    tree.childSlots (machine.nodeOf path) = (tree.table (machine.nodeOf path)).slotHandles := by
  obtain ⟨node, found, -⟩ := recalls.node known
  simp only [childSlots, table, found]

theorem stored_nodeOf (recalls : tree.Recalls machine) (known : path ∈ machine.known) :
    (tree.table (machine.nodeOf path)).stored = {handle | handle :: path ∈ machine.known} := by
  ext handle
  rw [SlotTable.mem_stored, recalls.get?_table known, nodeOf?]
  split <;> simp_all

variable (recalls : tree.Recalls machine) (recalls' : other.Recalls machine')
  (same : ∀ path, machine'.records path = machine.records path)
include recalls recalls' same

theorem mem_known_iff : path ∈ machine'.known ↔ path ∈ machine.known := by
  rw [recalls'.formed.mem_known, recalls.formed.mem_known, same]

/-- Tables of the same path are laid out alike, whatever they have grown through. -/
theorem slotHandles_eq (known : path ∈ machine.known) :
    (other.table (machine'.nodeOf path)).slotHandles =
      (tree.table (machine.nodeOf path)).slotHandles := by
  have stored : (other.table (machine'.nodeOf path)).stored =
      (tree.table (machine.nodeOf path)).stored := by
    rw [recalls.stored_nodeOf known,
      recalls'.stored_nodeOf ((recalls.mem_known_iff recalls' same).mpr known)]
    ext handle
    exact recalls.mem_known_iff recalls' same
  have wide := (recalls.narrow.tight_table (machine.nodeOf path)).width_eq
    (recalls'.narrow.tight_table (machine'.nodeOf path)) stored
  exact (recalls.linked.placed_table _).slotHandles_eq (recalls'.linked.placed_table _) wide stored

theorem visibleCallees_eq (known : path ∈ machine.known) :
    other.visibleCallees machine' path = tree.visibleCallees machine path := by
  have callees : other.callees (machine'.nodeOf path) = tree.callees (machine.nodeOf path) := by
    simp only [callees, SlotTable.map_fst_entries, recalls.slotHandles_eq recalls' same known]
  rw [visibleCallees, visibleCallees, callees]
  refine List.filter_congr fun handle _ => ?_
  rw [callsOf, callsOf, same]

theorem shownAt_eq (elapsed : Ticks) (known : path ∈ machine.known) :
    other.shownAt machine' elapsed path = tree.shownAt machine elapsed path := by
  refine recalls.path_induction known fun path known ih => ?_
  have known' := (recalls.mem_known_iff recalls' same).mpr known
  have stats : (other.shownAt machine' elapsed path).stats =
      (tree.shownAt machine elapsed path).stats := by
    rw [recalls.stats_shownAt known, recalls'.stats_shownAt known', statsOf, statsOf, callsOf,
      callsOf, ticksOf, ticksOf, same]
  have children : (other.shownAt machine' elapsed path).children =
      (tree.shownAt machine elapsed path).children := by
    rw [recalls.children_shownAt known, recalls'.children_shownAt known',
      recalls.visibleCallees_eq recalls' same known]
    congr 1
    refine List.map_congr_left fun handle member => ?_
    exact ih handle ((recalls.mem_visibleCallees known).mp member)
  exact congrArg₂ ProfileNode.mk stats children

theorem recordOwn_nodeOf_eq (known : path ∈ machine.known) (tally : MethodTally) :
    other.recordOwn (machine'.nodeOf path) tally = tree.recordOwn (machine.nodeOf path) tally := by
  revert tally
  refine recalls.path_induction known fun path known ih tally => ?_
  have known' := (recalls.mem_known_iff recalls' same).mpr known
  rw [recalls.recordOwn_nodeOf known, recalls'.recordOwn_nodeOf known',
    recalls.visibleCallees_eq recalls' same known]
  simp only [callsOf, ticksOf, same]
  refine congrArg (· >>= _) (Outcome.foldlM_congr (fun handle member state => ?_) _)
  simp only [ih handle ((recalls.mem_visibleCallees known).mp member)]

theorem methodTally_congr : other.methodTally = tree.methodTally := by
  have known : [] ∈ machine.known := List.mem_cons_self ..
  rw [recalls.methodTally_eq, recalls'.methodTally_eq,
    recalls.visibleCallees_eq recalls' same known]
  refine Outcome.foldlM_congr (fun handle member tally => ?_) _
  refine recalls.recordOwn_nodeOf_eq recalls' same ?_ tally
  exact recalls.formed.known_of_callsOf ((recalls.mem_visibleCallees known).mp member)

variable (since : other.since = tree.since)
include since

theorem hierarchy_congr (reading : Ticks) : other.hierarchy reading = tree.hierarchy reading := by
  have known : [] ∈ machine.known := List.mem_cons_self ..
  simp only [recalls.hierarchy_eq, recalls'.hierarchy_eq, elapsedAt, since,
    recalls.shownAt_eq recalls' same _ known]

theorem flatList_congr (reading : Ticks) : other.flatList reading = tree.flatList reading := by
  simp only [flatList, elapsedAt, since, recalls.methodTally_congr recalls' same]

end Recalls

/-- Two traces may start other paths first, finish calls in another order and leave other calls
    open. If behind both of them the elapsed time began at the same clock reading, the same paths
    were started, each of them first with the same method, and each has the same completed calls and
    ticks since the last clear, then all snapshots are the same at any time, in whatever order a
    tally holds its methods; and so are the child tables of each path, which has a node in both trees
    or in neither. -/
theorem replay_snapshots_eq (start start' : Ticks) (events events' : List TraceEvent) :
    let run := replay CallTree.step (empty start) events
    let run' := replay CallTree.step (empty start') events'
    run'.2.since = run.2.since →
    (∀ path, (history events' run'.1).records path = (history events run.1).records path) →
    (∀ reading,
      run'.2.hierarchy reading = run.2.hierarchy reading ∧
      run'.2.flatList reading = run.2.flatList reading ∧
      (run'.2.hierarchy reading >>= ProfileNode.foldedStacks) =
        (run.2.hierarchy reading >>= ProfileNode.foldedStacks)) ∧
    run'.2.methodTally = run.2.methodTally ∧
    (∀ tally shuffled shuffled', run.2.methodTally = .ok tally →
      shuffled.Perm tally → shuffled'.Perm tally → ∀ elapsed entries entries',
        listed elapsed shuffled = .ok entries → listed elapsed shuffled' = .ok entries' →
        entries' = entries) ∧
    (∀ path, (∃ id, run'.2.PathOf id path) ↔ ∃ id, run.2.PathOf id path) ∧
    ∀ path id id', run.2.PathOf id path → run'.2.PathOf id' path →
      run'.2.childSlots id' = run.2.childSlots id := by
  intro run run' since same
  have recalls : run.2.Recalls (history events run.1) := recalls_history start events
  have recalls' : run'.2.Recalls (history events' run'.1) := recalls_history start' events'
  refine ⟨fun reading => ?_, recalls.methodTally_congr recalls' same, ?_, fun path => ?_, ?_⟩
  · have hierarchy := recalls.hierarchy_congr recalls' same since reading
    exact ⟨hierarchy, recalls.flatList_congr recalls' same since reading, by rw [hierarchy]⟩
  · intro tally shuffled shuffled' tallied first second elapsed entries entries' found found'
    have distinct := ((recalls.linked.tallies elapsed tallied).of_perm first).nodup
    exact listed_eq_of_perm distinct (second.trans first.symm) found found'
  · simp only [recalls.pathOf_iff, recalls'.pathOf_iff, recalls.mem_known_iff recalls' same]
    simp
  · intro path id id' leads leads'
    obtain ⟨known, rfl⟩ := recalls.pathOf_iff.mp leads
    obtain ⟨known', rfl⟩ := recalls'.pathOf_iff.mp leads'
    rw [recalls.childSlots_nodeOf known, recalls'.childSlots_nodeOf known',
      recalls.slotHandles_eq recalls' same known]

/-- A call with a callee, and a sibling of it with the same ticks. -/
def siblingTrace (run load stop : Handle) : List TraceEvent := [
  .start run ⟨"App", "Run", [], []⟩,
  .start load ⟨"App", "Load", [], []⟩,
  .finish load 5,
  .finish run 20,
  .start stop ⟨"App", "Stop", [], []⟩,
  .finish stop 20]

/-- The same calls in the other order, behind a clear and with one that goes on at the end. -/
def reversedTrace (run load stop : Handle) : List TraceEvent := [
  .start stop ⟨"App", "Stop", [], []⟩,
  .finish stop 3,
  .clear 100,
  .start stop ⟨"App", "Halt", [], []⟩,
  .finish run 1,
  .finish stop 20,
  .start run ⟨"App", "Run", [], []⟩,
  .start load ⟨"App", "Load", [], []⟩,
  .finish load 5,
  .finish run 20,
  .start stop ⟨"App", "Stop", [], []⟩]

theorem reversedTrace_snapshots_eq :
    let run := replay CallTree.step (empty 100)
      (siblingTrace { raw := 4 } { raw := 6 } { raw := 7 })
    let run' := replay CallTree.step (empty 50)
      (reversedTrace { raw := 4 } { raw := 6 } { raw := 7 })
    run.2.cursor = ⟨0⟩ ∧ run'.2.cursor = ⟨1⟩ ∧
      (∀ reading, run'.2.hierarchy reading = run.2.hierarchy reading) ∧
      run'.2.flatList 200 = run.2.flatList 200 ∧
      run'.2.childSlots ⟨0⟩ = [some { raw := 4 }, some { raw := 7 }] := by
  intro run run'
  have same : ∀ path, (history _ run'.1).records path = (history _ run.1).records path :=
    (recalls_history 100 _).formed.records_eq (recalls_history 50 _).formed (by decide +kernel)
  obtain ⟨snapshots, -, -, -, slots⟩ :=
    replay_snapshots_eq 100 50 _ _ (by decide +kernel) same
  refine ⟨by decide +kernel, by decide +kernel, fun reading => (snapshots reading).1,
    (snapshots 200).2.1, ?_⟩
  exact (slots [] ⟨0⟩ ⟨0⟩ .root .root).trans (by decide +kernel)

end CallTree
end CilProfiler

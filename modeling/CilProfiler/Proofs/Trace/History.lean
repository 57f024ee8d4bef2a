import CilProfiler.Proofs.Trace.Callers
import CilProfiler.Proofs.Trace.Refinement
import CilProfiler.Proofs.Trace.SlotLayout

/-! # What a call tree remembers

A call tree refuses a finish that does not match the active call, or that finds no room in a
counter, and a refused finish leaves nothing behind. Behind any trace the tree therefore shows what
the path machine knows of the other events, with no premise that the counters never fill up.

Its child tables are as narrow as their handles allow, so that nothing in the tree but the numbers
of the nodes depends on the order in which paths were first started.
-/

namespace CilProfiler

/-- Reason for which an event was refused. -/
def TraceAnswer.refusal? : TraceAnswer → Option FinishError
  | .refused reason => some reason
  | _ => none

/-- Events of a trace that were not refused. -/
def recorded : List TraceEvent → List TraceAnswer → List TraceEvent
  | event :: events, answer :: answers =>
      if answer.refusal? = none then event :: recorded events answers else recorded events answers
  | _, _ => []

namespace PathMachine

/-- What is known of the paths behind a trace with the given answers. -/
def history (events : List TraceEvent) (answers : List TraceAnswer) : PathMachine :=
  (replay PathMachine.step {} (recorded events answers)).2

/-- Completed calls of a path since the last clear. -/
def callsOf (machine : PathMachine) (path : CallPath) : Nat :=
  (machine.records path).elim 0 (·.calls)

/-- Inclusive ticks of a path since the last clear. -/
def ticksOf (machine : PathMachine) (path : CallPath) : Int :=
  (machine.records path).elim 0 (·.ticks)

variable {machine : PathMachine} {path : CallPath}

theorem Formed.mem_known (formed : machine.Formed) :
    path ∈ machine.known ↔ path = [] ∨ (machine.records path).isSome := by
  rw [known, List.mem_cons, formed.record]

theorem Formed.records_nil (formed : machine.Formed) : machine.records [] = none := by
  have nodup := formed.nodup
  rw [known, List.nodup_cons, ← formed.record] at nodup
  simpa using nodup.1

/-- Only paths that were started have completed calls. -/
theorem Formed.known_of_callsOf (formed : machine.Formed) (counted : 0 < machine.callsOf path) :
    path ∈ machine.known := by
  rw [formed.mem_known]
  cases held : machine.records path with
  | none => simp [callsOf, held] at counted
  | some record => simp

theorem nodeOf_nil (machine : PathMachine) : machine.nodeOf [] = CallTree.root := by
  simp [nodeOf, known, CallTree.root]

end PathMachine

open PathMachine

theorem CallNode.credit_overflow {node : CallNode} {handle : Handle} {elapsed : Ticks}
    {reason : FinishError} (named : node.handle = some handle)
    (failed : node.credit handle elapsed = .error reason) : ∃ cause, reason = .overflow cause := by
  simp only [CallNode.credit, if_pos named] at failed
  cases counted : Count.add node.calls 1 with
  | error cause =>
      rw [counted] at failed
      cases failed
      exact ⟨cause, rfl⟩
  | ok calls =>
      cases added : Ticks.add node.ticks elapsed with
      | error cause =>
          rw [counted, added] at failed
          cases failed
          exact ⟨cause, rfl⟩
      | ok ticks =>
          rw [counted, added] at failed
          cases failed

namespace CallTree

variable {tree next other : CallTree} {machine : PathMachine} {handle : Handle} {elapsed : Ticks}
  {id : NodeIndex} {path : CallPath}

namespace Represents

/-- A finish that the tree records is one of the active call. -/
theorem leave (represents : tree.Represents machine) (formed : machine.Formed)
    (left : tree.leave handle elapsed = .ok next) :
    machine.active.head? = some handle ∧ next.Represents (machine.finish elapsed) := by
  obtain ⟨node, found, shows⟩ := represents.active_node formed
  obtain ⟨_, found', named, calls, ticks, -⟩ := leave_eq_ok left
  cases found.symm.trans found'
  have top : machine.active.head? = some handle := shows.handle.symm.trans named
  obtain ⟨callers, active⟩ := List.head?_eq_some_iff.mp top
  have roomy : ∀ record ∈ machine.records machine.active, (record.credit elapsed).Fits := by
    intro record held
    have held : machine.records machine.active = some record := held
    rw [shows.calls, held] at calls
    rw [shows.ticks, held] at ticks
    exact ⟨calls, ticks⟩
  obtain ⟨_, left', kept⟩ := represents.leave_recorded formed active roomy
  cases left.symm.trans left'
  exact ⟨top, kept⟩

/-- A finish of the active call is refused for want of room only. -/
theorem leave_overflow (represents : tree.Represents machine) (formed : machine.Formed)
    (top : machine.active.head? = some handle) {reason : FinishError}
    (failed : tree.leave handle elapsed = .error reason) : ∃ cause, reason = .overflow cause := by
  obtain ⟨node, found, shows⟩ := represents.active_node formed
  rw [CallTree.leave, found] at failed
  cases credited : node.credit handle elapsed with
  | error reason' =>
      simp only [credited] at failed
      cases failed
      exact CallNode.credit_overflow (shows.handle.trans top) credited
  | ok credited' =>
      simp only [credited] at failed
      cases failed

/-- An event that is not refused is answered by the machine as by the tree. -/
theorem step_recorded (represents : tree.Represents machine) (formed : machine.Formed)
    (event : TraceEvent) (kept : (tree.step event).1.refusal? = none) :
    (tree.step event).1 = (machine.step event).1 ∧
      (tree.step event).2.Represents (machine.step event).2 := by
  cases event with
  | start handle method =>
      have entered : (tree.enter handle method).Represents (machine.start handle method) :=
        represents.enter formed
      exact ⟨congrArg TraceAnswer.entered entered.cursor, entered⟩
  | finish handle elapsed =>
      simp only [CallTree.step] at kept ⊢
      cases left : tree.leave handle elapsed with
      | error reason => simp [left, TraceAnswer.refusal?] at kept
      | ok next =>
          obtain ⟨top, left'⟩ := represents.leave formed left
          simp only [PathMachine.step, if_pos top]
          exact ⟨congrArg TraceAnswer.left left'.cursor, left'⟩
  | clear reading => exact ⟨rfl, represents.clear reading⟩

end Represents

theorem step_refused (tree : CallTree) (event : TraceEvent)
    (refused : (tree.step event).1.refusal? ≠ none) : (tree.step event).2 = tree := by
  cases event with
  | start handle method => exact absurd rfl refused
  | finish handle elapsed =>
      simp only [CallTree.step] at refused ⊢
      cases left : tree.leave handle elapsed with
      | error reason => rfl
      | ok next => simp [left, TraceAnswer.refusal?] at refused
  | clear reading => exact absurd rfl refused

/-- The elapsed time restarts at a clear and at no other event. -/
theorem since_step (tree : CallTree) (event : TraceEvent) : (tree.step event).2.since =
    match event with
    | .clear reading => reading
    | _ => tree.since := by
  cases event with
  | start handle method =>
      simp only [CallTree.step, enter]
      split <;> rfl
  | finish handle elapsed =>
      simp only [CallTree.step]
      cases left : tree.leave handle elapsed with
      | error reason => rfl
      | ok next =>
          obtain ⟨_, -, -, -, -, rfl⟩ := leave_eq_ok left
          rfl
  | clear reading => rfl

theorem since_replay (same : other.since = tree.since) (events : List TraceEvent) :
    (replay CallTree.step other events).2.since = (replay CallTree.step tree events).2.since := by
  induction events generalizing tree other with
  | nil => exact same
  | cons event rest ih =>
      have next : (other.step event).2.since = (tree.step event).2.since := by
        rw [since_step, since_step, same]
      exact ih next

/-- No child table is wider than its handles ask for. -/
def Narrow (tree : CallTree) : Prop :=
  ∀ id node, tree.node? id = some node → node.children.Tight SlotTable.initialLength

theorem tight_empty : (SlotTable.empty : SlotTable NodeIndex).Tight SlotTable.initialLength :=
  SlotTable.tight_withLength SlotTable.initialLength

theorem narrow_empty (reading : Ticks) : (empty reading).Narrow := by
  rintro ⟨_ | index⟩ node found
  · cases found
    exact tight_empty
  · cases found

theorem Narrow.tight_table (narrow : tree.Narrow) (id : NodeIndex) :
    (tree.table id).Tight SlotTable.initialLength := by
  unfold table
  split
  · rename_i node found
    exact narrow id node found
  · exact tight_empty

/-- Tables do not depend on the counters. -/
theorem Narrow.of_clear_eq (narrow : tree.Narrow)
    (same : ∀ id, (next.node? id).map CallNode.clear = (tree.node? id).map CallNode.clear) :
    next.Narrow := by
  intro id node found
  have shared := same id
  rw [found, Option.map_some] at shared
  obtain ⟨old, there, cleared⟩ := Option.map_eq_some_iff.mp shared.symm
  rw [← (CallNode.sameLinks_of_clear cleared).children]
  exact narrow id old there

theorem Narrow.enter (narrow : tree.Narrow) (linked : tree.Linked) (handle : Handle)
    (method : MethodName) : (tree.enter handle method).Narrow := by
  obtain ⟨caller, found⟩ := exists_node? linked.cursor
  have placed := linked.placed _ _ found
  cases leads : caller.children.get? handle with
  | none =>
      intro id node there
      rw [node?_enter_new found placed leads] at there
      split at there
      · cases there
        exact tight_empty
      · split at there
        · cases there
          exact (narrow _ _ found).insert placed (placed.stored_findOrInsert handle _)
            (placed.width_findOrInsert handle _)
        · exact narrow id node there
  | some child =>
      obtain ⟨-, callee, there, -, -⟩ := linked.callee _ _ _ _ found leads
      rw [enter_known found placed leads (node?_lt there)]
      exact narrow

theorem Narrow.step (narrow : tree.Narrow) (linked : tree.Linked) (event : TraceEvent) :
    (tree.step event).2.Narrow := by
  cases event with
  | start handle method => exact narrow.enter linked handle method
  | finish handle elapsed =>
      simp only [CallTree.step]
      cases left : tree.leave handle elapsed with
      | error reason => exact narrow
      | ok next => exact narrow.of_clear_eq (map_clear_leave left)
  | clear reading => exact narrow.of_clear_eq (map_clear_clear tree reading)

/-- The tree shows what the machine knows, and its links and tables are in order. -/
structure Recalls (tree : CallTree) (machine : PathMachine) : Prop where
  represents : tree.Represents machine
  formed : machine.Formed
  linked : tree.Linked
  narrow : tree.Narrow

theorem recalls_empty (reading : Ticks) : (empty reading).Recalls {} :=
  ⟨represents_empty reading, formed_initial, linked_empty reading, narrow_empty reading⟩

namespace Recalls

theorem step (recalls : tree.Recalls machine) (event : TraceEvent)
    (kept : (tree.step event).1.refusal? = none) :
    (tree.step event).1 = (machine.step event).1 ∧
      (tree.step event).2.Recalls (machine.step event).2 := by
  obtain ⟨answer, represents⟩ := recalls.represents.step_recorded recalls.formed event kept
  exact ⟨answer, represents, recalls.formed.step event, recalls.linked.step event,
    recalls.narrow.step recalls.linked event⟩

/-- Behind a trace the tree recalls the events that were not refused. -/
theorem replay (recalls : tree.Recalls machine) (events : List TraceEvent) :
    let run := CilProfiler.replay CallTree.step tree events
    run.2.Recalls (CilProfiler.replay PathMachine.step machine (recorded events run.1)).2 := by
  induction events generalizing tree machine with
  | nil => exact recalls
  | cons event rest ih =>
      simp only [CilProfiler.replay, recorded]
      split
      · rename_i kept
        exact ih (recalls.step event kept).2
      · rename_i refused
        rw [tree.step_refused event refused]
        exact ih recalls

/-- An event that does not overflow a counter is answered by the machine as by the tree, also if it
    is refused. -/
theorem step_of_roomy (recalls : tree.Recalls machine) (event : TraceEvent)
    (roomy : ∀ cause, (tree.step event).1 ≠ .refused (.overflow cause)) :
    (tree.step event).1 = (machine.step event).1 ∧
      (tree.step event).2.Recalls (machine.step event).2 := by
  by_cases kept : (tree.step event).1.refusal? = none
  · exact recalls.step event kept
  · have same := tree.step_refused event kept
    cases event with
    | start handle method => exact absurd rfl kept
    | clear reading => exact absurd rfl kept
    | finish handle elapsed =>
        have other : machine.active.head? ≠ some handle := by
          intro top
          simp only [CallTree.step] at roomy kept
          cases left : tree.leave handle elapsed with
          | ok next => simp [left, TraceAnswer.refusal?] at kept
          | error reason =>
              obtain ⟨cause, rfl⟩ := recalls.represents.leave_overflow recalls.formed top left
              simp only [left] at roomy
              exact roomy cause rfl
        rw [same]
        simp only [PathMachine.step, if_neg other, CallTree.step,
          recalls.represents.leave_refused recalls.formed other]
        exact ⟨trivial, recalls⟩

/-- If no counter overflows, the machine gives the answers of the tree to the whole trace. -/
theorem replay_of_roomy (recalls : tree.Recalls machine) (events : List TraceEvent)
    (roomy : ∀ answer ∈ (CilProfiler.replay CallTree.step tree events).1,
      ∀ cause, answer ≠ .refused (.overflow cause)) :
    (CilProfiler.replay CallTree.step tree events).1 =
        (CilProfiler.replay PathMachine.step machine events).1 ∧
      (CilProfiler.replay CallTree.step tree events).2.Recalls
        (CilProfiler.replay PathMachine.step machine events).2 := by
  induction events generalizing tree machine with
  | nil => exact ⟨rfl, recalls⟩
  | cons event rest ih =>
      simp only [CilProfiler.replay, List.forall_mem_cons] at roomy ⊢
      obtain ⟨answer, next⟩ := recalls.step_of_roomy event roomy.1
      obtain ⟨answers, last⟩ := ih next roomy.2
      exact ⟨by rw [answer, answers], last⟩

end Recalls

theorem recalls_history (reading : Ticks) (events : List TraceEvent) :
    let run := replay CallTree.step (empty reading) events
    run.2.Recalls (history events run.1) :=
  (recalls_empty reading).replay events

theorem Reachable.recalls (reachable : tree.Reachable) : ∃ machine, tree.Recalls machine := by
  obtain ⟨reading, events, rfl⟩ := reachable
  exact ⟨_, recalls_history reading events⟩

/-- Callees of a node in the order of its child table. -/
def callees (tree : CallTree) (id : NodeIndex) : List Handle :=
  (tree.table id).entries.map Prod.fst

namespace Recalls

variable (recalls : tree.Recalls machine)
include recalls

theorem node (known : path ∈ machine.known) :
    ∃ node, tree.node? (machine.nodeOf path) = some node ∧ node.Shows machine path :=
  recalls.represents.node _ _ (Formed.getElem?_nodeOf known)

/-- Every node is the node of a path. -/
theorem exists_nodeOf (inside : id.index < tree.nodes.size) :
    ∃ path ∈ machine.known, machine.nodeOf path = id := by
  rw [recalls.represents.size] at inside
  have there : machine.known[id.index]? = some machine.known[id.index] :=
    List.getElem?_eq_getElem inside
  exact ⟨_, List.getElem_mem inside, recalls.formed.nodeOf_eq there⟩

theorem counters_nodeOf (known : path ∈ machine.known) :
    tree.counters (machine.nodeOf path) = (machine.callsOf path, machine.ticksOf path) := by
  obtain ⟨node, found, shows⟩ := recalls.node known
  rw [counters_of_node? found, shows.calls, shows.ticks, callsOf, ticksOf]

theorem ticksAt_nodeOf (known : path ∈ machine.known) :
    tree.ticksAt (machine.nodeOf path) = machine.ticksOf path := by
  rw [ticksAt, recalls.counters_nodeOf known]

theorem callsAt_nodeOf (known : path ∈ machine.known) :
    tree.callsAt (machine.nodeOf path) = machine.callsOf path := by
  rw [callsAt, recalls.counters_nodeOf known]

/-- The path of a node is the one that the machine has the node for. -/
theorem nodeOf_of_pathOf (leads : tree.PathOf id path) :
    path ∈ machine.known ∧ id = machine.nodeOf path := by
  induction leads with
  | root => exact ⟨List.mem_cons_self .., machine.nodeOf_nil.symm⟩
  | @call id caller node handle path found parent called _ ih =>
      obtain ⟨above, rfl⟩ := ih
      obtain ⟨other, known, rfl⟩ := recalls.exists_nodeOf (node?_lt found)
      obtain ⟨_, found', shows⟩ := recalls.node known
      cases found.symm.trans found'
      cases other with
      | nil => cases shows.handle.symm.trans called
      | cons first callers =>
          cases shows.handle.symm.trans called
          have tail : callers ∈ machine.known := recalls.formed.tail?_known known rfl
          have same : machine.nodeOf callers = machine.nodeOf path :=
            Option.some.inj (shows.parent.symm.trans parent)
          cases Formed.nodeOf_injective tail same
          exact ⟨known, rfl⟩

theorem pathOf_nodeOf (known : path ∈ machine.known) :
    tree.PathOf (machine.nodeOf path) path := by
  obtain ⟨node, found, -⟩ := recalls.node known
  obtain ⟨other, leads⟩ := recalls.linked.exists_path (node?_lt found)
  cases Formed.nodeOf_injective known (recalls.nodeOf_of_pathOf leads).2
  exact leads

theorem pathOf_iff : tree.PathOf id path ↔ path ∈ machine.known ∧ id = machine.nodeOf path := by
  constructor
  · exact recalls.nodeOf_of_pathOf
  · rintro ⟨known, rfl⟩
    exact recalls.pathOf_nodeOf known

theorem exists_pathOf_iff : (∃ id, tree.PathOf id path) ↔ path ∈ machine.known := by
  simp [recalls.pathOf_iff]

theorem get?_table (known : path ∈ machine.known) (handle : Handle) :
    (tree.table (machine.nodeOf path)).get? handle = machine.nodeOf? (handle :: path) := by
  obtain ⟨node, found, shows⟩ := recalls.node known
  rw [table, found]
  exact shows.children handle

theorem mem_callees (known : path ∈ machine.known) :
    handle ∈ tree.callees (machine.nodeOf path) ↔ handle :: path ∈ machine.known := by
  have placed := recalls.linked.placed_table (machine.nodeOf path)
  simp [callees, placed.mem_entries, recalls.get?_table known, nodeOf?]

theorem nodup_callees (id : NodeIndex) : (tree.callees id).Nodup :=
  (recalls.linked.placed_table id).nodup_entries

/-- A child table holds the nodes of the paths that are one call longer. -/
theorem entries_nodeOf (known : path ∈ machine.known) :
    (tree.table (machine.nodeOf path)).entries = (tree.callees (machine.nodeOf path)).map
      fun handle => (handle, machine.nodeOf (handle :: path)) := by
  have placed := recalls.linked.placed_table (machine.nodeOf path)
  rw [callees, List.map_map]
  refine (List.map_id _).symm.trans (List.map_congr_left fun entry member => ?_)
  obtain ⟨handle, child⟩ := entry
  rw [placed.mem_entries, recalls.get?_table known, nodeOf?] at member
  split at member
  · cases member
    rfl
  · cases member

end Recalls
end CallTree
end CilProfiler

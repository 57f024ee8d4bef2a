import CilProfiler.Proofs.Trace.PathMachine
import CilProfiler.Proofs.Trace.SlotTable
import Mathlib.Data.List.Infix

/-! # Call trees refine path maps

Each known path has one node, and the node shows what the machine knows of the path. The child
table of a node leads to the nodes of the paths that are one call longer, and to nothing else. An
event keeps this: a start finds a node exactly if its path was started before, because every stored
number lies below the size of the arena; a finish changes the counters of the active node alone.
-/

namespace CilProfiler

open PathMachine

/-- A node shows what the machine knows of its path. -/
structure CallNode.Shows (node : CallNode) (machine : PathMachine) (path : CallPath) : Prop where
  parent : node.parent = path.tail?.map machine.nodeOf
  handle : node.handle = path.head?
  method : node.method = (machine.records path).map (·.method)
  calls : node.calls = (machine.records path).elim 0 (·.calls)
  ticks : node.ticks = (machine.records path).elim 0 (·.ticks)
  placed : node.children.Placed
  children : ∀ handle, node.children.get? handle = machine.nodeOf? (handle :: path)

/-- A tree holds a node for each known path, in the order of their first start. -/
structure CallTree.Represents (tree : CallTree) (machine : PathMachine) : Prop where
  size : tree.nodes.size = machine.known.length
  cursor : tree.cursor = machine.nodeOf machine.active
  node : ∀ (i : Nat) path, machine.known[i]? = some path →
    ∃ node, tree.nodes[i]? = some node ∧ node.Shows machine path

/-- What a node shows when the machine has moved on without a change for the node's path, and the
    child table leads to the paths that are known now. -/
theorem CallNode.Shows.withChildren {node : CallNode} {machine next : PathMachine} {path : CallPath}
    (shows : node.Shows machine path) (record : next.records path = machine.records path)
    (parent : ∀ callers, path.tail? = some callers → next.nodeOf callers = machine.nodeOf callers)
    {children : SlotTable NodeIndex} (placed : children.Placed)
    (leads : ∀ handle, children.get? handle = next.nodeOf? (handle :: path)) :
    CallNode.Shows { node with children } next path := by
  refine ⟨?_, shows.handle, ?_, ?_, ?_, placed, leads⟩
  · rw [shows.parent]
    exact Option.map_congr fun callers tail => (parent callers tail).symm
  · rw [record, shows.method]
  · rw [record, shows.calls]
  · rw [record, shows.ticks]

namespace CallTree

variable {tree : CallTree} {machine : PathMachine} {handle : Handle} {method : MethodName}
  {elapsed : Ticks} {path : CallPath}

theorem represents_empty (reading : Ticks) : (empty reading).Represents {} where
  size := rfl
  cursor := rfl
  node i path there := by
    obtain ⟨inside, same⟩ := List.getElem?_eq_some_iff.mp there
    cases i with
    | zero =>
        cases same
        refine ⟨CallNode.root, rfl, rfl, rfl, rfl, rfl, rfl, SlotTable.placed_withLength _, ?_⟩
        intro handle
        rw [CallNode.root, SlotTable.get?_empty]
        rfl
    | succ i => cases inside with | step below => cases below

namespace Represents

/-- The node under the cursor is the node of the active path. -/
theorem active_node (represents : tree.Represents machine) (formed : machine.Formed) :
    ∃ node, tree.node? tree.cursor = some node ∧ node.Shows machine machine.active := by
  rw [node?, represents.cursor]
  exact represents.node _ _ (Formed.getElem?_nodeOf formed.active)

theorem clear (represents : tree.Represents machine) (reading : Ticks) :
    (tree.clear reading).Represents machine.clear where
  size := by rw [CallTree.clear, Array.size_map]; exact represents.size
  cursor := represents.cursor
  node i path there := by
    obtain ⟨node, found, shows⟩ := represents.node i path there
    refine ⟨node.clear, by rw [CallTree.clear, Array.getElem?_map, found]; rfl, ?_⟩
    refine ⟨shows.parent, shows.handle, ?_, ?_, ?_, shows.placed, shows.children⟩
    · rw [CallNode.clear, shows.method, PathMachine.clear, Option.map_map]
      rfl
    · simp only [CallNode.clear, PathMachine.clear]
      cases machine.records path <;> rfl
    · simp only [CallNode.clear, PathMachine.clear]
      cases machine.records path <;> rfl

/-- A finish of another call than the active one is refused. -/
theorem leave_refused (represents : tree.Represents machine) (formed : machine.Formed)
    (mismatch : machine.active.head? ≠ some handle) :
    tree.leave handle elapsed = .error (.nestingMismatch machine.active.head? handle) := by
  obtain ⟨node, found, shows⟩ := represents.active_node formed
  rw [leave, found]
  simp only [CallNode.credit, shows.handle, if_neg mismatch]
  rfl

theorem credit_recorded (node : CallNode) (active : node.handle = some handle)
    (calls : node.calls + 1 < Count.bound) (ticks : Ticks.InRange (node.ticks + elapsed)) :
    node.credit handle elapsed =
      .ok { node with calls := node.calls + 1, ticks := node.ticks + elapsed } := by
  simp only [CallNode.credit, if_pos active, Count.add, if_pos calls, Ticks.add, if_pos ticks]
  rfl

/-- A finish of the active call credits its node and moves the cursor to its caller, if the record
    of the active path has room for it. -/
theorem leave_recorded (represents : tree.Represents machine) (formed : machine.Formed)
    {callers : CallPath} (active : machine.active = handle :: callers)
    (fits : ∀ record ∈ machine.records machine.active, (record.credit elapsed).Fits) :
    ∃ next, tree.leave handle elapsed = .ok next ∧ next.Represents (machine.finish elapsed) := by
  obtain ⟨node, found, shows⟩ := represents.active_node formed
  obtain ⟨record, recorded⟩ := Option.isSome_iff_exists.mp
    ((formed.record _).mpr (formed.active_started active))
  have credited : (machine.finish elapsed).records machine.active = some (record.credit elapsed) := by
    rw [records_finish_active, recorded]
    rfl
  obtain ⟨calls_lt, ticks_range⟩ := fits record recorded
  have calls : node.calls = record.calls := by rw [shows.calls, recorded]; rfl
  have ticks : node.ticks = record.ticks := by rw [shows.ticks, recorded]; rfl
  have named : node.handle = some handle := by rw [shows.handle, active]; rfl
  have credit := credit_recorded node named (by rw [calls]; exact calls_lt)
    (by rw [ticks]; exact ticks_range)
  refine ⟨_, by rw [leave, found]; simp only [credit]; rfl, ?_, ?_, fun i path there => ?_⟩
  · rw [Array.size_setIfInBounds]
    exact represents.size
  · simp only [shows.parent, PathMachine.finish, active]
    rfl
  · have there : machine.known[i]? = some path := there
    obtain ⟨other, there', shows'⟩ := represents.node i path there
    rw [Array.getElem?_setIfInBounds]
    by_cases same : path = machine.active
    · subst same
      have here : tree.cursor.index = i := by rw [represents.cursor, formed.nodeOf_eq there]
      obtain ⟨inside, _⟩ := Array.getElem?_eq_some_iff.mp there'
      rw [if_pos here, if_pos (by rw [here]; exact inside)]
      refine ⟨_, rfl, shows.parent, shows.handle, ?_, ?_, ?_, shows.placed, shows.children⟩
      · rw [credited, shows.method, recorded]
        rfl
      · simp only [credited, calls]
        rfl
      · simp only [credited, ticks]
        rfl
    · have apart : tree.cursor.index ≠ i := by
        rintro rfl
        rw [represents.cursor, Formed.getElem?_nodeOf formed.active] at there
        exact same (Option.some.inj there).symm
      rw [if_neg apart]
      exact ⟨other, there', shows'.withChildren (records_finish_of_ne same elapsed)
        (fun _ _ => rfl) shows'.placed shows'.children⟩

/-- Behind a start the nodes of the paths that were known before show the same as before. The child
    table of the caller has an entry for the callee, if it had none. -/
theorem old_node (represents : tree.Represents machine) (formed : machine.Formed) {caller : CallNode}
    (found : tree.node? tree.cursor = some caller) (shows : caller.Shows machine machine.active)
    (handle : Handle) (method : MethodName) {i : Nat} (there : machine.known[i]? = some path) :
    ∃ node, (tree.nodes.setIfInBounds tree.cursor.index { caller with
          children := (caller.children.findOrInsert handle ⟨tree.nodes.size⟩).table })[i]? = some node ∧
      node.Shows (machine.start handle method) path := by
  have member := List.mem_of_getElem? there
  have record : (machine.start handle method).records path = machine.records path :=
    formed.records_start member
  have parent : ∀ callers, path.tail? = some callers →
      (machine.start handle method).nodeOf callers = machine.nodeOf callers :=
    fun callers tail => formed.nodeOf_start (formed.tail?_known member tail)
  by_cases same : path = machine.active
  · subst same
    have here : tree.cursor.index = i := by rw [represents.cursor, formed.nodeOf_eq there]
    rw [node?, here] at found
    obtain ⟨inside, _⟩ := Array.getElem?_eq_some_iff.mp found
    rw [Array.getElem?_setIfInBounds, if_pos here, if_pos (by rw [here]; exact inside)]
    refine ⟨_, rfl, shows.withChildren record parent (shows.placed.findOrInsert _ _) ?_⟩
    intro other
    rw [shows.placed.get?_findOrInsert, formed.nodeOf?_start, shows.children, shows.children,
      represents.size]
    simp
  · have apart : tree.cursor.index ≠ i := by
      rintro rfl
      rw [represents.cursor, Formed.getElem?_nodeOf formed.active] at there
      exact same (Option.some.inj there).symm
    obtain ⟨node, found', shows'⟩ := represents.node i path there
    rw [Array.getElem?_setIfInBounds, if_neg apart]
    refine ⟨node, found', shows'.withChildren record parent shows'.placed ?_⟩
    intro other
    rw [formed.nodeOf?_start, if_neg (by simp [same]), shows'.children]

/-- The node of a path that is started for the first time. -/
theorem new_node (represents : tree.Represents machine) (formed : machine.Formed)
    (new : handle :: machine.active ∉ machine.started) :
    (CallNode.child tree.cursor handle method).Shows (machine.start handle method)
      (handle :: machine.active) := by
  have record : (machine.start handle method).records (handle :: machine.active) =
      some { method } := by
    rw [start_of_new new formed]
    exact Function.update_self ..
  refine ⟨?_, rfl, ?_, ?_, ?_, SlotTable.placed_withLength _, fun other => ?_⟩
  · rw [CallNode.child, represents.cursor, List.tail?_cons, Option.map_some,
      formed.nodeOf_start formed.active]
  · rw [record]
    rfl
  · rw [record]
    rfl
  · rw [record]
    rfl
  · have longer : other :: handle :: machine.active ∉ machine.known := fun member =>
      new (List.mem_of_ne_of_mem (List.cons_ne_nil _ _) (formed.tail?_known member rfl))
    rw [CallNode.child, SlotTable.get?_empty, formed.nodeOf?_start,
      if_neg (List.cons_ne_self other _), nodeOf?, if_neg longer]

/-- A start keeps the tree in step with the machine. -/
theorem enter (represents : tree.Represents machine) (formed : machine.Formed) :
    (tree.enter handle method).Represents (machine.start handle method) := by
  obtain ⟨caller, found, shows⟩ := represents.active_node formed
  have leads := shows.children handle
  rw [CallTree.enter, found]
  simp only [shows.placed.findOrInsert_value, leads]
  by_cases seen : handle :: machine.active ∈ machine.started
  · -- The stored number lies below the size of the arena, so that no node is added.
    have member : handle :: machine.active ∈ machine.known := List.mem_cons_of_mem _ seen
    have numbered : machine.nodeOf? (handle :: machine.active) =
        some (machine.nodeOf (handle :: machine.active)) := if_pos member
    have stored : machine.nodeOf (handle :: machine.active) ≠ ⟨tree.nodes.size⟩ := by
      intro same
      have below := Formed.nodeOf_lt member
      rw [same, represents.size] at below
      exact Nat.lt_irrefl _ below
    simp only [numbered, Option.getD_some, if_neg stored]
    have old : ∀ (i : Nat) path, machine.known[i]? = some path → _ := fun i path there =>
      represents.old_node formed found shows handle method there
    rw [start_of_known seen formed] at old ⊢
    refine ⟨?_, rfl, old⟩
    rw [Array.size_setIfInBounds]
    exact represents.size
  · have unknown : handle :: machine.active ∉ machine.known := by simpa [known] using seen
    have unnumbered : machine.nodeOf? (handle :: machine.active) = none := if_neg unknown
    simp only [unnumbered, Option.getD_none, if_true]
    have size := represents.size
    have grown : (machine.start handle method).known = machine.known ++ [handle :: machine.active] :=
      known_start_of_new seen formed
    refine ⟨?_, ?_, fun i path there => ?_⟩
    · simp [grown, size]
    · rw [nodeOf, grown, start_of_new seen formed, List.idxOf_append_of_notMem unknown]
      simp [size]
    · rw [Array.getElem?_push, Array.size_setIfInBounds, size]
      rw [grown] at there
      by_cases last : i = machine.known.length
      · rw [last, List.getElem?_concat_length] at there
        cases there
        exact ⟨_, if_pos last, represents.new_node formed seen⟩
      · obtain ⟨inside, _⟩ := List.getElem?_eq_some_iff.mp there
        rw [List.length_append, List.length_singleton] at inside
        rw [List.getElem?_append_left (by omega)] at there
        rw [if_neg last, ← size]
        exact represents.old_node formed found shows handle method there

/-- One event: tree and machine give the same answer and stay in step, if no counter overflows. -/
theorem step (represents : tree.Represents machine) (formed : machine.Formed) (event : TraceEvent)
    (fits : (machine.step event).2.Fits) :
    (tree.step event).1 = (machine.step event).1 ∧
      (tree.step event).2.Represents (machine.step event).2 := by
  cases event with
  | start handle method =>
      have entered : (tree.enter handle method).Represents (machine.start handle method) :=
        represents.enter formed
      exact ⟨congrArg TraceAnswer.entered entered.cursor, entered⟩
  | finish handle elapsed =>
      by_cases top : machine.active.head? = some handle
      · obtain ⟨callers, active⟩ := List.head?_eq_some_iff.mp top
        simp only [PathMachine.step, if_pos top] at fits ⊢
        have roomy : ∀ record ∈ machine.records machine.active, (record.credit elapsed).Fits := by
          intro record recorded
          refine fits _ (formed.active_started active) _ ?_
          rw [records_finish_active, recorded]
          rfl
        obtain ⟨next, left, kept⟩ := represents.leave_recorded formed active roomy
        simp only [CallTree.step, left]
        exact ⟨congrArg TraceAnswer.left kept.cursor, kept⟩
      · simp only [PathMachine.step, if_neg top, CallTree.step, represents.leave_refused formed top]
        exact ⟨trivial, represents⟩
  | clear reading => exact ⟨rfl, represents.clear reading⟩

/-- A whole trace, event by event. -/
theorem replay (represents : tree.Represents machine) (formed : machine.Formed)
    (events : List TraceEvent)
    (fits : ∀ trace, trace <+: events → (CilProfiler.replay PathMachine.step machine trace).2.Fits) :
    (CilProfiler.replay CallTree.step tree events).1 =
        (CilProfiler.replay PathMachine.step machine events).1 ∧
      (CilProfiler.replay CallTree.step tree events).2.Represents
        (CilProfiler.replay PathMachine.step machine events).2 := by
  induction events generalizing tree machine with
  | nil => exact ⟨rfl, represents⟩
  | cons event rest ih =>
      have first := represents.step formed event (fits [event] (List.prefix_append [event] rest))
      have later := ih first.2 (formed.step event) fun trace before =>
        fits (event :: trace) (List.cons_prefix_cons.mpr ⟨rfl, before⟩)
      simp only [CilProfiler.replay]
      exact ⟨by rw [first.1, later.1], later.2⟩

theorem isIdle_iff (represents : tree.Represents machine) (formed : machine.Formed) :
    tree.isIdle ↔ machine.active = [] := by
  have root : CallTree.root = machine.nodeOf [] := by simp [CallTree.root, nodeOf, known]
  rw [isIdle, decide_eq_true_iff, represents.cursor, root]
  exact ⟨Formed.nodeOf_injective formed.active, fun same => by rw [same]⟩

end Represents

/-- Every trace of a new tree refines the path machine. The answers are the same, the tree shows
    the machine's paths and its cursor is at the active one, and a finish that does not match
    changes nothing. The nodes that starts enter are numbered from one on, in the order of the first
    start of each path, and the tree is idle exactly if no call is active. -/
theorem replay_refines (reading : Ticks) (events : List TraceEvent)
    (fits : ∀ trace, trace <+: events → (replay PathMachine.step {} trace).2.Fits) :
    let run := replay CallTree.step (empty reading) events
    let machine := (replay PathMachine.step {} events).2
    let starts := PathMachine.starts {} events
    run.1 = (replay PathMachine.step {} events).1 ∧
      run.2.Represents machine ∧
      (∀ handle elapsed, machine.active.head? ≠ some handle →
        run.2.step (.finish handle elapsed) =
          (.refused (.nestingMismatch machine.active.head? handle), run.2)) ∧
      run.1.filterMap TraceAnswer.entered? = starts.map machine.nodeOf ∧
      (∀ path ∈ starts, ∀ other ∈ starts, machine.nodeOf path = machine.nodeOf other ↔ path = other) ∧
      (∀ (i : Nat) path, starts.eraseDups[i]? = some path → machine.nodeOf path = ⟨i + 1⟩) ∧
      run.2.size = starts.eraseDups.length + 1 ∧
      (run.2.isIdle ↔ machine.active = []) := by
  intro run machine starts
  obtain ⟨answers, represents⟩ := (represents_empty reading).replay formed_initial events fits
  have formed : machine.Formed := formed_initial.replay events
  have started : machine.started = starts.eraseDups := by
    have found := formed_initial.started_replay events
    simpa [List.removeAll] using found
  have numbered : ∀ path ∈ starts, path ∈ machine.known := fun path member =>
    List.mem_cons_of_mem _ (started ▸ List.mem_eraseDups.mpr member)
  refine ⟨answers, represents, fun handle elapsed mismatch => ?_, ?_, fun path member other _ => ?_,
    fun i path there => ?_, ?_, represents.isIdle_iff formed⟩
  · rw [CallTree.step, represents.leave_refused formed mismatch]
  · exact answers ▸ (formed_initial.entered_replay events).2
  · exact ⟨Formed.nodeOf_injective (numbered path member), fun same => by rw [same]⟩
  · refine formed.nodeOf_eq ?_
    rw [known, List.getElem?_cons_succ, started]
    exact there
  · rw [← started]
    exact represents.size

/-- Two handles that share a slot, a recursion, a finish that does not match and a clear between a
    start and its finish. -/
def recursiveTrace : List TraceEvent := [
  .start { raw := 4 } ⟨"App", "Run", [], []⟩,
  .finish { raw := 4 } 10,
  .start { raw := 6 } ⟨"App", "Load", [], []⟩,
  .start { raw := 6 } ⟨"App", "Load", [], []⟩,
  .finish { raw := 4 } 1,
  .clear 100,
  .finish { raw := 6 } 5,
  .start { raw := 6 } ⟨"App", "Reload", [], []⟩]

theorem recursiveTrace_refines :
    (∀ trace, trace <+: recursiveTrace → (replay PathMachine.step {} trace).2.Fits) ∧
      (replay CallTree.step (empty 0) recursiveTrace).1 = [
        .entered ⟨1⟩, .left ⟨0⟩, .entered ⟨2⟩, .entered ⟨3⟩,
        .refused (.nestingMismatch (some { raw := 6 }) { raw := 4 }),
        .cleared, .left ⟨2⟩, .entered ⟨3⟩] ∧
      (replay CallTree.step (empty 0) recursiveTrace).2.Represents
        (replay PathMachine.step {} recursiveTrace).2 :=
  have inits : ∀ trace ∈ recursiveTrace.inits, (replay PathMachine.step {} trace).2.Fits := by
    decide +kernel
  have fits : ∀ trace, trace <+: recursiveTrace → (replay PathMachine.step {} trace).2.Fits :=
    fun trace before => inits trace ((List.mem_inits trace recursiveTrace).mpr before)
  have refined := replay_refines 0 recursiveTrace fits
  ⟨fits, refined.1.trans (by decide +kernel), refined.2.1⟩

end CallTree
end CilProfiler

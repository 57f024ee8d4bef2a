import CilProfiler.Proofs.Counter
import CilProfiler.Proofs.Trace.PathMachine
import CilProfiler.Proofs.Trace.SlotTable

/-! # Links between call paths

The nodes of a call tree are linked twice, upwards by the number of the caller and downwards by its
child table, and both links agree. A caller always comes before its callees in the arena, so that
walks from the root downwards end and walks upwards reach the root. Starts are the only events that
add a link; finishes and clears change counters.
-/

namespace CilProfiler

/-- Two nodes differ in their counters at most. -/
structure CallNode.SameLinks (a b : CallNode) : Prop where
  parent : a.parent = b.parent
  handle : a.handle = b.handle
  method : a.method = b.method
  children : a.children = b.children

theorem CallNode.sameLinks_of_clear {a b : CallNode} (same : a.clear = b.clear) : a.SameLinks b := by
  cases a
  cases b
  cases same
  exact ⟨rfl, rfl, rfl, rfl⟩

theorem CallNode.credit_eq_ok {node next : CallNode} {handle : Handle} {elapsed : Ticks}
    (credited : node.credit handle elapsed = .ok next) :
    node.handle = some handle ∧ node.calls + 1 < Count.bound ∧
      Ticks.InRange (node.ticks + elapsed) ∧
      next = { node with calls := node.calls + 1, ticks := node.ticks + elapsed } := by
  unfold CallNode.credit at credited
  split at credited
  · rename_i named
    obtain ⟨calls, counted, credited⟩ := Outcome.bind_eq_ok.mp credited
    obtain ⟨ticks, added, credited⟩ := Outcome.bind_eq_ok.mp credited
    obtain ⟨rfl, room⟩ := Count.add_eq_ok.mp (Outcome.mapError_eq_ok.mp counted)
    obtain ⟨rfl, range⟩ := Ticks.add_eq_ok.mp (Outcome.mapError_eq_ok.mp added)
    cases credited
    exact ⟨named, room, range, rfl⟩
  · cases credited

namespace CallTree

/-- Some events give the tree, from some clock reading on. -/
def Reachable (tree : CallTree) : Prop :=
  ∃ reading events, (replay CallTree.step (empty reading) events).2 = tree

/-- Every node but the root is a named child of a node in front of it, and a child table leads
    exactly to the nodes that name its owner as their parent. -/
structure Linked (tree : CallTree) : Prop where
  cursor : tree.cursor.index < tree.nodes.size
  root : ∃ node, tree.node? root = some node ∧ node.parent = none ∧ node.handle = none ∧
    node.method = none
  caller : ∀ id node, tree.node? id = some node → id ≠ CallTree.root →
    ∃ parent handle method, node.parent = some parent ∧ node.handle = some handle ∧
      node.method = some method ∧ parent.index < id.index ∧
      ∃ caller, tree.node? parent = some caller ∧ caller.children.get? handle = some id
  callee : ∀ id node handle child, tree.node? id = some node →
    node.children.get? handle = some child →
    id.index < child.index ∧
      ∃ callee, tree.node? child = some callee ∧ callee.parent = some id ∧
        callee.handle = some handle
  placed : ∀ id node, tree.node? id = some node → node.children.Placed

variable {tree next : CallTree} {id child : NodeIndex} {node caller : CallNode} {handle : Handle}
  {method : MethodName} {elapsed : Ticks}

theorem node?_lt (found : tree.node? id = some node) : id.index < tree.nodes.size :=
  (Array.getElem?_eq_some_iff.mp found).1

theorem exists_node? (inside : id.index < tree.nodes.size) : ∃ node, tree.node? id = some node :=
  ⟨_, Array.getElem?_eq_getElem inside⟩

theorem linked_empty (reading : Ticks) : (empty reading).Linked := by
  have alone : ∀ id node, (empty reading).node? id = some node →
      id = root ∧ node = CallNode.root := by
    intro id node found
    have first : id.index = 0 := Nat.lt_one_iff.mp (node?_lt found)
    obtain rfl : id = root := by cases id; cases first; rfl
    cases found
    exact ⟨rfl, rfl⟩
  refine ⟨Nat.one_pos, ⟨_, rfl, rfl, rfl, rfl⟩, ?_, ?_, ?_⟩
  · intro id node found other
    exact absurd (alone id node found).1 other
  · intro id node handle child found there
    rw [(alone id node found).2, CallNode.root, SlotTable.get?_empty] at there
    cases there
  · intro id node found
    rw [(alone id node found).2]
    exact SlotTable.placed_withLength _

/-- A start of a known path moves the cursor and nothing else. -/
theorem enter_known (found : tree.node? tree.cursor = some caller) (placed : caller.children.Placed)
    (known : caller.children.get? handle = some child) (inside : child.index < tree.nodes.size) :
    tree.enter handle method = { tree with cursor := child } := by
  have stored : child ≠ ⟨tree.nodes.size⟩ := by
    rintro rfl
    exact Nat.lt_irrefl _ inside
  have kept : tree.nodes.setIfInBounds tree.cursor.index caller = tree.nodes := by
    obtain ⟨there, same⟩ := Array.getElem?_eq_some_iff.mp found
    rw [← same, Array.setIfInBounds, dif_pos there, Array.set_getElem_self]
  rw [enter, found]
  simp only [placed.findOrInsert_of_some known, SlotTable.roomFor_of_some known, if_neg stored,
    kept]

/-- A start of a new path adds its node and an entry for it to the table of the caller. -/
theorem enter_new (found : tree.node? tree.cursor = some caller) (placed : caller.children.Placed)
    (new : caller.children.get? handle = none) :
    tree.enter handle method = { tree with
      nodes := (tree.nodes.setIfInBounds tree.cursor.index { caller with
        children := (caller.children.findOrInsert handle ⟨tree.nodes.size⟩).table }).push
          (CallNode.child tree.cursor handle method)
      cursor := ⟨tree.nodes.size⟩ } := by
  rw [enter, found]
  simp only [placed.findOrInsert_value, new, Option.getD_none, if_true]

theorem node?_enter_new (found : tree.node? tree.cursor = some caller)
    (placed : caller.children.Placed) (new : caller.children.get? handle = none) :
    (tree.enter handle method).node? id =
      if id = ⟨tree.nodes.size⟩ then some (CallNode.child tree.cursor handle method)
      else if id = tree.cursor then some { caller with
        children := (caller.children.findOrInsert handle ⟨tree.nodes.size⟩).table }
      else tree.node? id := by
  have inside := node?_lt found
  have old : tree.cursor ≠ ⟨tree.nodes.size⟩ := by
    intro same
    rw [same] at inside
    exact Nat.lt_irrefl _ inside
  rw [enter_new found placed new, node?, Array.getElem?_push, Array.size_setIfInBounds,
    Array.getElem?_setIfInBounds, node?]
  cases id with
  | mk index =>
      by_cases last : index = tree.nodes.size
      · simp [last]
      · by_cases active : tree.cursor.index = index
        · have same : (⟨index⟩ : NodeIndex) = tree.cursor := by rw [← active]
          simp [last, active, same, old, active ▸ inside]
        · have other : (⟨index⟩ : NodeIndex) ≠ tree.cursor := by
            rintro same
            exact active (by rw [← same])
          simp [last, active, other]

/-- A finish that is recorded raises the counters of the active node. -/
theorem leave_eq_ok (left : tree.leave handle elapsed = .ok next) :
    ∃ active, tree.node? tree.cursor = some active ∧ active.handle = some handle ∧
      active.calls + 1 < Count.bound ∧ Ticks.InRange (active.ticks + elapsed) ∧
      next = { tree with
        nodes := tree.nodes.setIfInBounds tree.cursor.index
          { active with calls := active.calls + 1, ticks := active.ticks + elapsed }
        cursor := active.parent.getD tree.cursor } := by
  unfold leave at left
  split at left
  · cases left
  · rename_i active found
    obtain ⟨credited, credit, moved⟩ := Outcome.bind_eq_ok.mp left
    obtain ⟨named, room, range, rfl⟩ := CallNode.credit_eq_ok credit
    cases moved
    exact ⟨active, found, named, room, range, rfl⟩

theorem map_clear_leave (left : tree.leave handle elapsed = .ok next) (id : NodeIndex) :
    (next.node? id).map CallNode.clear = (tree.node? id).map CallNode.clear := by
  obtain ⟨active, found, -, -, -, rfl⟩ := leave_eq_ok left
  simp only [node?, Array.getElem?_setIfInBounds]
  rw [node?] at found
  split
  · rename_i here
    rw [← here, if_pos (node?_lt found), found]
    rfl
  · rfl

theorem map_clear_clear (tree : CallTree) (reading : Ticks) (id : NodeIndex) :
    ((tree.clear reading).node? id).map CallNode.clear = (tree.node? id).map CallNode.clear := by
  rw [CallTree.clear, node?, node?, Array.getElem?_map, Option.map_map]
  rfl

/-- An old node behind the first start of a path from the active call. The table of the active call
    has an entry more, which leads to the new node. -/
structure Gains (tree : CallTree) (callee : Handle) (id : NodeIndex) (old node : CallNode) :
    Prop where
  parent : node.parent = old.parent
  handle : node.handle = old.handle
  method : node.method = old.method
  placed : node.children.Placed
  get? : ∀ other, node.children.get? other =
    if id = tree.cursor ∧ other = callee then some ⟨tree.nodes.size⟩ else old.children.get? other

namespace Linked

/-- Links do not depend on the counters. -/
theorem of_clear_eq (linked : tree.Linked)
    (same : ∀ id, (next.node? id).map CallNode.clear = (tree.node? id).map CallNode.clear)
    (cursor : next.cursor.index < next.nodes.size) : next.Linked := by
  have before : ∀ id node, next.node? id = some node →
      ∃ old, tree.node? id = some old ∧ old.SameLinks node := by
    intro id node found
    have shared := same id
    rw [found, Option.map_some] at shared
    obtain ⟨old, there, cleared⟩ := Option.map_eq_some_iff.mp shared.symm
    exact ⟨old, there, CallNode.sameLinks_of_clear cleared⟩
  have after : ∀ id old, tree.node? id = some old →
      ∃ node, next.node? id = some node ∧ old.SameLinks node := by
    intro id old found
    have shared := same id
    rw [found, Option.map_some] at shared
    obtain ⟨node, there, cleared⟩ := Option.map_eq_some_iff.mp shared
    exact ⟨node, there, CallNode.sameLinks_of_clear cleared.symm⟩
  refine ⟨cursor, ?_, ?_, ?_, ?_⟩
  · obtain ⟨old, found, facts⟩ := linked.root
    obtain ⟨node, found', links⟩ := after _ old found
    exact ⟨node, found', by rwa [← links.parent, ← links.handle, ← links.method]⟩
  · intro id node found other
    obtain ⟨old, found', links⟩ := before id node found
    obtain ⟨parent, handle, method, above, called, named, first, caller, there, leads⟩ :=
      linked.caller id old found' other
    obtain ⟨caller', there', links'⟩ := after parent caller there
    exact ⟨parent, handle, method, links.parent ▸ above, links.handle ▸ called,
      links.method ▸ named, first, caller', there', links'.children ▸ leads⟩
  · intro id node handle child found leads
    obtain ⟨old, found', links⟩ := before id node found
    obtain ⟨first, callee, there, above, called⟩ :=
      linked.callee id old handle child found' (links.children ▸ leads)
    obtain ⟨callee', there', links'⟩ := after child callee there
    exact ⟨first, callee', there', links'.parent ▸ above, links'.handle ▸ called⟩
  · intro id node found
    obtain ⟨old, found', links⟩ := before id node found
    exact links.children ▸ linked.placed id old found'

theorem clear (linked : tree.Linked) (reading : Ticks) : (tree.clear reading).Linked := by
  refine linked.of_clear_eq (map_clear_clear tree reading) ?_
  rw [CallTree.clear, Array.size_map]
  exact linked.cursor

theorem leave (linked : tree.Linked) (left : tree.leave handle elapsed = .ok next) : next.Linked := by
  refine linked.of_clear_eq (map_clear_leave left) ?_
  obtain ⟨active, found, -, -, -, rfl⟩ := leave_eq_ok left
  rw [Array.size_setIfInBounds]
  cases above : active.parent with
  | none => exact linked.cursor
  | some parent =>
      have other : tree.cursor ≠ CallTree.root := by
        intro same
        obtain ⟨node, there, alone, -⟩ := linked.root
        rw [same, there] at found
        cases found
        rw [above] at alone
        cases alone
      obtain ⟨_, _, _, above', _, _, _, caller, there, _⟩ := linked.caller _ _ found other
      rw [above] at above'
      cases above'
      exact node?_lt there

/-- An old node keeps its links behind the first start of a path. -/
theorem old_node_enter (linked : tree.Linked) (found : tree.node? tree.cursor = some caller)
    (new : caller.children.get? handle = none) (method : MethodName)
    (there : tree.node? id = some node) :
    ∃ node', (tree.enter handle method).node? id = some node' ∧
      tree.Gains handle id node node' := by
  have placed := linked.placed _ _ found
  have inside : id ≠ ⟨tree.nodes.size⟩ := by
    rintro rfl
    exact Nat.lt_irrefl _ (node?_lt there)
  rw [node?_enter_new found placed new, if_neg inside]
  by_cases active : id = tree.cursor
  · subst active
    rw [found] at there
    cases there
    refine ⟨_, if_pos rfl, rfl, rfl, rfl, placed.findOrInsert _ _, fun other => ?_⟩
    rw [placed.get?_findOrInsert, new]
    simp
  · refine ⟨node, by rw [if_neg active, there], rfl, rfl, rfl, linked.placed _ _ there, ?_⟩
    intro other
    rw [if_neg (fun both => active both.1)]

/-- Behind the first start of a path a node is the new one or an old one. -/
theorem node_enter_cases (linked : tree.Linked) (found : tree.node? tree.cursor = some caller)
    (new : caller.children.get? handle = none) {node' : CallNode}
    (there : (tree.enter handle method).node? id = some node') :
    id = ⟨tree.nodes.size⟩ ∧ node' = CallNode.child tree.cursor handle method ∨
      ∃ node, tree.node? id = some node ∧ tree.Gains handle id node node' := by
  by_cases last : id = ⟨tree.nodes.size⟩
  · rw [node?_enter_new found (linked.placed _ _ found) new, if_pos last] at there
    exact .inl ⟨last, (Option.some.inj there).symm⟩
  · have inside : ∃ node, tree.node? id = some node := by
      rw [node?_enter_new found (linked.placed _ _ found) new, if_neg last] at there
      split at there
      · rename_i same
        exact ⟨caller, same ▸ found⟩
      · exact ⟨node', there⟩
    obtain ⟨node, before⟩ := inside
    obtain ⟨_, there', gains⟩ := linked.old_node_enter found new method before
    rw [there] at there'
    cases there'
    exact .inr ⟨node, before, gains⟩

/-- The number of a new node is behind all others, and the table of its caller leads to it. -/
theorem enter_new (linked : tree.Linked) (found : tree.node? tree.cursor = some caller)
    (new : caller.children.get? handle = none) : (tree.enter handle method).Linked where
  cursor := by
    rw [CallTree.enter_new found (linked.placed _ _ found) new, Array.size_push,
      Array.size_setIfInBounds]
    exact Nat.lt_succ_self _
  root := by
    obtain ⟨node, there, links⟩ := linked.root
    obtain ⟨node', there', gains⟩ := linked.old_node_enter found new method there
    exact ⟨node', there', by rwa [gains.parent, gains.handle, gains.method]⟩
  caller := by
    intro id node' there other
    rcases linked.node_enter_cases found new there with ⟨rfl, rfl⟩ | ⟨node, before, gains⟩
    · obtain ⟨caller', found', gains⟩ := linked.old_node_enter found new method found
      exact ⟨tree.cursor, handle, method, rfl, rfl, rfl, linked.cursor, caller', found',
        (gains.get? handle).trans (if_pos ⟨rfl, rfl⟩)⟩
    · obtain ⟨above, callee, name, parent, called, named, first, caller', found', leads⟩ :=
        linked.caller _ _ before other
      obtain ⟨caller'', found'', gains'⟩ := linked.old_node_enter found new method found'
      refine ⟨above, callee, name, gains.parent ▸ parent, gains.handle ▸ called,
        gains.method ▸ named, first, caller'', found'', ?_⟩
      -- The entry that leads here is not the new one: its handle had none before.
      rw [gains'.get?, if_neg, leads]
      rintro ⟨rfl, rfl⟩
      rw [found] at found'
      cases found'
      rw [new] at leads
      cases leads
  callee := by
    intro id node' other child there leads
    rcases linked.node_enter_cases found new there with ⟨rfl, rfl⟩ | ⟨node, before, gains⟩
    · rw [CallNode.child, SlotTable.get?_empty] at leads
      cases leads
    · rw [gains.get?] at leads
      split at leads
      · rename_i both
        obtain ⟨rfl, rfl⟩ := both
        cases leads
        refine ⟨linked.cursor, CallNode.child tree.cursor other method, ?_, rfl, rfl⟩
        rw [node?_enter_new found (linked.placed _ _ found) new, if_pos rfl]
      · obtain ⟨first, callee, found', parent, called⟩ := linked.callee _ _ _ _ before leads
        obtain ⟨callee', found'', gains'⟩ := linked.old_node_enter found new method found'
        exact ⟨first, callee', found'', gains'.parent.trans parent, gains'.handle.trans called⟩
  placed := by
    intro id node' there
    rcases linked.node_enter_cases found new there with ⟨rfl, rfl⟩ | ⟨node, before, gains⟩
    · exact SlotTable.placed_withLength _
    · exact gains.placed

theorem enter (linked : tree.Linked) : (tree.enter handle method).Linked := by
  obtain ⟨caller, found⟩ := exists_node? linked.cursor
  have placed := linked.placed _ _ found
  cases leads : caller.children.get? handle with
  | none => exact linked.enter_new found leads
  | some child =>
      obtain ⟨-, callee, there, -, -⟩ := linked.callee _ _ _ _ found leads
      rw [enter_known found placed leads (node?_lt there)]
      exact ⟨node?_lt there, linked.root, linked.caller, linked.callee, linked.placed⟩

theorem step (linked : tree.Linked) (event : TraceEvent) : (tree.step event).2.Linked := by
  cases event with
  | start handle method => exact linked.enter
  | finish handle elapsed =>
      simp only [CallTree.step]
      cases left : tree.leave handle elapsed with
      | error reason => exact linked
      | ok next => exact linked.leave left
  | clear reading => exact linked.clear reading

theorem replay (linked : tree.Linked) (events : List TraceEvent) :
    (CilProfiler.replay CallTree.step tree events).2.Linked := by
  induction events generalizing tree with
  | nil => exact linked
  | cons event rest ih => exact ih (linked.step event)

end Linked

theorem Reachable.linked (reachable : tree.Reachable) : tree.Linked := by
  obtain ⟨reading, events, rfl⟩ := reachable
  exact (linked_empty reading).replay events

/-- What starts, recorded finishes and clears keep holds of every tree that comes from a new one. -/
@[elab_as_elim]
theorem Reachable.induction {motive : CallTree → Prop}
    (empty : ∀ reading, motive (empty reading))
    (enter : ∀ tree handle method, tree.Linked → motive tree → motive (tree.enter handle method))
    (leave : ∀ tree next handle elapsed, tree.Linked → tree.leave handle elapsed = .ok next →
      motive tree → motive next)
    (clear : ∀ tree reading, tree.Linked → motive tree → motive (tree.clear reading))
    (reachable : tree.Reachable) : motive tree := by
  obtain ⟨reading, events, rfl⟩ := reachable
  suffices every : ∀ start : CallTree, start.Linked → motive start →
      motive (CilProfiler.replay CallTree.step start events).2 from
    every _ (linked_empty reading) (empty reading)
  induction events with
  | nil => exact fun _ _ holds => holds
  | cons event rest ih =>
      intro start linked holds
      refine ih (start.step event).2 (linked.step event) ?_
      cases event with
      | start handle method => exact enter _ _ _ linked holds
      | finish handle elapsed =>
          simp only [CallTree.step]
          cases left : start.leave handle elapsed with
          | error reason => exact holds
          | ok next => exact leave _ _ _ _ linked left holds
      | clear reading => exact clear _ _ linked holds

end CallTree
end CilProfiler

import CilProfiler.Proofs.Trace.Links
import Mathlib.Logic.Relation

/-! # Callers

Seen from below, a node of a call tree is a chain of callers that ends at the root, and the handles
on the way are the path that the node stands for. No two nodes have the same path. Seen from above,
the child tables hold every node but the root, each in one place, so that a walk over them visits no
node twice and comes to an end.
-/

namespace CilProfiler
namespace CallTree

/-- The parent of a node is the caller. -/
def CalledBy (tree : CallTree) (id caller : NodeIndex) : Prop :=
  ∃ node, tree.node? id = some node ∧ node.parent = some caller

/-- The handles of a node and of its callers up to the root, innermost first. -/
inductive PathOf (tree : CallTree) : NodeIndex → CallPath → Prop where
  | root : PathOf tree CallTree.root []
  | call {id caller : NodeIndex} {node : CallNode} {handle : Handle} {path : CallPath}
      (found : tree.node? id = some node) (parent : node.parent = some caller)
      (called : node.handle = some handle) (above : PathOf tree caller path) :
      PathOf tree id (handle :: path)

variable {tree next : CallTree} {id other caller : NodeIndex} {node : CallNode} {handle : Handle}
  {path : CallPath} {elapsed : Ticks}

theorem CalledBy.inside (called : tree.CalledBy id caller) : id.index < tree.nodes.size := by
  obtain ⟨node, found, -⟩ := called
  exact node?_lt found

theorem CalledBy.unique (first : tree.CalledBy id caller) (second : tree.CalledBy id other) :
    caller = other := by
  obtain ⟨node, found, parent⟩ := first
  obtain ⟨node', found', parent'⟩ := second
  cases found.symm.trans found'
  exact Option.some.inj (parent.symm.trans parent')

namespace Linked

theorem ne_root (linked : tree.Linked) (called : tree.CalledBy id caller) : id ≠ CallTree.root := by
  rintro rfl
  obtain ⟨node, found, parent⟩ := called
  obtain ⟨top, there, alone, -⟩ := linked.root
  cases found.symm.trans there
  cases parent.symm.trans alone

theorem lt_of_calledBy (linked : tree.Linked) (called : tree.CalledBy id caller) :
    caller.index < id.index := by
  obtain ⟨node, found, parent⟩ := called
  obtain ⟨_, _, _, parent', _, _, before, _⟩ :=
    linked.caller id node found (linked.ne_root ⟨node, found, parent⟩)
  cases parent.symm.trans parent'
  exact before

theorem placed_table (linked : tree.Linked) (id : NodeIndex) : (tree.table id).Placed := by
  unfold table
  split
  · rename_i node found
    exact linked.placed _ _ found
  · exact SlotTable.placed_withLength _

/-- A table leads to the nodes that name its owner as their parent. -/
theorem get?_table (linked : tree.Linked) : (tree.table caller).get? handle = some id ↔
    ∃ node, tree.node? id = some node ∧ node.parent = some caller ∧ node.handle = some handle := by
  constructor
  · intro leads
    unfold table at leads
    split at leads
    · rename_i owner found
      exact (linked.callee _ _ _ _ found leads).2
    · rw [SlotTable.get?_empty] at leads
      cases leads
  · rintro ⟨node, found, parent, called⟩
    obtain ⟨_, _, _, parent', called', _, _, owner, there, leads⟩ :=
      linked.caller id node found (linked.ne_root ⟨node, found, parent⟩)
    cases parent.symm.trans parent'
    cases called.symm.trans called'
    rw [table, there]
    exact leads

theorem mem_entries (linked : tree.Linked) : (handle, id) ∈ (tree.table caller).entries ↔
    ∃ node, tree.node? id = some node ∧ node.parent = some caller ∧ node.handle = some handle := by
  rw [(linked.placed_table caller).mem_entries, linked.get?_table]

/-- A node below the root has a caller, and the caller's table holds it. -/
theorem exists_place (linked : tree.Linked) (found : tree.node? id = some node)
    (below : id ≠ CallTree.root) :
    ∃ caller handle, node.parent = some caller ∧ node.handle = some handle ∧
      (handle, id) ∈ (tree.table caller).entries := by
  obtain ⟨caller, handle, _, parent, called, _⟩ := linked.caller id node found below
  exact ⟨caller, handle, parent, called, linked.mem_entries.mpr ⟨node, found, parent, called⟩⟩

theorem mem_children (linked : tree.Linked) :
    id ∈ (tree.table caller).entries.map Prod.snd ↔ tree.CalledBy id caller := by
  constructor
  · intro member
    obtain ⟨⟨handle, _⟩, entry, rfl⟩ := List.mem_map.mp member
    obtain ⟨node, found, parent, -⟩ := linked.mem_entries.mp entry
    exact ⟨node, found, parent⟩
  · rintro ⟨node, found, parent⟩
    obtain ⟨_, handle, parent', -, entry⟩ :=
      linked.exists_place found (linked.ne_root ⟨node, found, parent⟩)
    cases parent.symm.trans parent'
    exact List.mem_map_of_mem (f := Prod.snd) entry

/-- What holds of the root and of a node if it holds of its caller holds of every node. -/
@[elab_as_elim]
theorem upward_induction (linked : tree.Linked) {motive : NodeIndex → Prop}
    (root : motive CallTree.root)
    (call : ∀ id caller, tree.CalledBy id caller → motive caller → motive id)
    (id : NodeIndex) (inside : id.index < tree.nodes.size) : motive id := by
  induction place : id.index using Nat.strongRecOn generalizing id with
  | ind place ih =>
      by_cases top : id = CallTree.root
      · exact top ▸ root
      · obtain ⟨node, found⟩ := exists_node? inside
        obtain ⟨caller, -, parent, -⟩ := linked.exists_place found top
        have called : tree.CalledBy id caller := ⟨node, found, parent⟩
        have before := linked.lt_of_calledBy called
        exact call id caller called (ih _ (place ▸ before) caller (before.trans inside) rfl)

theorem exists_path (linked : tree.Linked) (inside : id.index < tree.nodes.size) :
    ∃ path, tree.PathOf id path := by
  refine linked.upward_induction ⟨[], .root⟩ (fun id caller called above => ?_) id inside
  obtain ⟨path, above⟩ := above
  obtain ⟨node, found, parent⟩ := called
  obtain ⟨_, handle, _, named, _⟩ :=
    linked.exists_place found (linked.ne_root ⟨node, found, parent⟩)
  exact ⟨handle :: path, .call found parent named above⟩

theorem path_unique (linked : tree.Linked) {path' : CallPath} (first : tree.PathOf id path)
    (second : tree.PathOf id path') : path = path' := by
  induction first generalizing path' with
  | root =>
      cases second with
      | root => rfl
      | call found parent _ _ => exact absurd rfl (linked.ne_root ⟨_, found, parent⟩)
  | call found parent called above ih =>
      cases second with
      | root => exact absurd rfl (linked.ne_root ⟨_, found, parent⟩)
      | call found' parent' called' above' =>
          cases found.symm.trans found'
          cases parent.symm.trans parent'
          cases called.symm.trans called'
          rw [ih above']

/-- A path names one node: its last handle has one entry in the table of the caller. -/
theorem path_injective (linked : tree.Linked) (first : tree.PathOf id path)
    (second : tree.PathOf other path) : id = other := by
  induction first generalizing other with
  | root =>
      cases second
      rfl
  | call found parent called above ih =>
      cases second with
      | call found' parent' called' above' =>
          cases ih above'
          have entry := linked.mem_entries.mpr ⟨_, found, parent, called⟩
          have entry' := linked.mem_entries.mpr ⟨_, found', parent', called'⟩
          have same := List.inj_on_of_nodup_map (linked.placed_table _).nodup_entries entry entry' rfl
          exact congrArg Prod.snd same

theorem leads_to_root (linked : tree.Linked) (inside : id.index < tree.nodes.size) :
    Relation.ReflTransGen tree.CalledBy id CallTree.root :=
  linked.upward_induction .refl (fun _ _ called above => above.head called) id inside

/-- Callees come behind their callers and inside the arena, so that no walk downwards is endless. -/
theorem wellFounded_children (linked : tree.Linked) :
    WellFounded fun child id => child ∈ (tree.table id).entries.map Prod.snd := by
  refine Subrelation.wf (fun {child id} member => ?_)
    (measure fun id : NodeIndex => tree.nodes.size - id.index).wf
  have called := linked.mem_children.mp member
  have before := linked.lt_of_calledBy called
  have inside := called.inside
  change tree.nodes.size - child.index < tree.nodes.size - id.index
  omega

end Linked

/-- Calls and ticks of a node. -/
def counters (tree : CallTree) (id : NodeIndex) : Count × Ticks :=
  (tree.node? id).elim (0, 0) fun node => (node.calls, node.ticks)

def callsAt (tree : CallTree) (id : NodeIndex) : Count :=
  (tree.counters id).1

def ticksAt (tree : CallTree) (id : NodeIndex) : Ticks :=
  (tree.counters id).2

theorem counters_of_node? (found : tree.node? id = some node) :
    tree.counters id = (node.calls, node.ticks) := by
  rw [counters, found, Option.elim_some]

/-- Nothing is counted outside the arena. -/
theorem counters_of_outside (outside : ¬id.index < tree.nodes.size) :
    tree.counters id = (0, 0) := by
  rw [counters, node?, Array.getElem?_eq_none (Nat.not_lt.mp outside), Option.elim_none]

theorem isVisible_iff : tree.isVisible id ↔ 0 < tree.callsAt id := by
  rw [isVisible, callsAt, counters]
  cases tree.node? id <;> simp

theorem exists_of_callsAt (counted : 0 < tree.callsAt id) : ∃ node, tree.node? id = some node := by
  rw [callsAt, counters] at counted
  cases found : tree.node? id with
  | none => simp [found] at counted
  | some node => exact ⟨node, rfl⟩

theorem Linked.counters_enter (linked : tree.Linked) (handle : Handle) (method : MethodName) :
    (tree.enter handle method).counters = tree.counters := by
  funext id
  obtain ⟨caller, found⟩ := exists_node? linked.cursor
  have placed := linked.placed _ _ found
  cases leads : caller.children.get? handle with
  | none =>
      rw [counters, node?_enter_new found placed leads]
      split
      · rename_i new
        have outside : tree.node? id = none := by
          rw [new]
          exact Array.getElem?_eq_none (Nat.le_refl _)
        rw [counters, outside]
        rfl
      · split
        · rename_i active
          rw [active, counters_of_node? found]
          rfl
        · rfl
  | some child =>
      obtain ⟨-, callee, there, -, -⟩ := linked.callee _ _ _ _ found leads
      rw [enter_known found placed leads (node?_lt there)]
      rfl

theorem counters_leave (left : tree.leave handle elapsed = .ok next) (id : NodeIndex) :
    next.counters id = if id = tree.cursor
      then ((tree.counters id).1 + 1, (tree.counters id).2 + elapsed) else tree.counters id := by
  obtain ⟨active, found, -, -, -, rfl⟩ := leave_eq_ok left
  have inside := node?_lt found
  split
  · rename_i here
    subst here
    rw [counters_of_node? found, counters, node?, Array.getElem?_setIfInBounds_self_of_lt inside]
    rfl
  · rename_i elsewhere
    have other : tree.cursor.index ≠ id.index := by
      intro same
      exact elsewhere (congrArg NodeIndex.mk same.symm)
    rw [counters, node?, Array.getElem?_setIfInBounds_ne other]
    rfl

theorem callsAt_leave (left : tree.leave handle elapsed = .ok next) (id : NodeIndex) :
    next.callsAt id = tree.callsAt id + if id = tree.cursor then 1 else 0 := by
  rw [callsAt, counters_leave left]
  split <;> rfl

theorem counters_clear (tree : CallTree) (reading : Ticks) (id : NodeIndex) :
    (tree.clear reading).counters id = (0, 0) := by
  rw [counters, clear, node?, Array.getElem?_map]
  cases tree.nodes[id.index]? <;> rfl

namespace Linked

theorem calledBy_enter (linked : tree.Linked) (handle : Handle) (method : MethodName)
    (inside : id.index < tree.nodes.size) :
    (tree.enter handle method).CalledBy id caller ↔ tree.CalledBy id caller := by
  obtain ⟨active, found⟩ := exists_node? linked.cursor
  cases leads : active.children.get? handle with
  | none =>
      constructor
      · rintro ⟨node', there, parent⟩
        rcases linked.node_enter_cases found leads there with ⟨rfl, -⟩ | ⟨node, before, gains⟩
        · exact absurd inside (Nat.lt_irrefl _)
        · exact ⟨node, before, gains.parent ▸ parent⟩
      · rintro ⟨node, before, parent⟩
        obtain ⟨node', there, gains⟩ := linked.old_node_enter found leads method before
        exact ⟨node', there, gains.parent.trans parent⟩
  | some child =>
      obtain ⟨-, callee, there, -, -⟩ := linked.callee _ _ _ _ found leads
      rw [enter_known found (linked.placed _ _ found) leads (node?_lt there)]
      exact Iff.rfl

/-- A start goes to a callee of the active call. -/
theorem calledBy_cursor_enter (linked : tree.Linked) (handle : Handle) (method : MethodName) :
    (tree.enter handle method).CalledBy (tree.enter handle method).cursor tree.cursor := by
  obtain ⟨active, found⟩ := exists_node? linked.cursor
  have placed := linked.placed _ _ found
  cases leads : active.children.get? handle with
  | none =>
      have cursor : (tree.enter handle method).cursor = ⟨tree.nodes.size⟩ := by
        rw [CallTree.enter_new found placed leads]
      rw [cursor]
      exact ⟨_, (node?_enter_new found placed leads).trans (if_pos rfl), rfl⟩
  | some child =>
      obtain ⟨-, callee, there, parent, -⟩ := linked.callee _ _ _ _ found leads
      rw [enter_known found placed leads (node?_lt there)]
      exact ⟨callee, there, parent⟩

end Linked

/-- Callers do not depend on the counters. -/
theorem calledBy_congr
    (same : (next.node? id).map CallNode.clear = (tree.node? id).map CallNode.clear) :
    next.CalledBy id caller ↔ tree.CalledBy id caller := by
  have cleared : ∀ tree : CallTree, tree.CalledBy id caller ↔
      ((tree.node? id).map CallNode.clear).bind (·.parent) = some caller := by
    intro tree
    simp only [CalledBy, Option.bind_map, Option.bind_eq_some_iff]
    rfl
  rw [cleared, cleared, same]

/-- A finish goes back to the caller of the active call. -/
theorem Linked.calledBy_cursor_leave (linked : tree.Linked)
    (left : tree.leave handle elapsed = .ok next) : tree.CalledBy tree.cursor next.cursor := by
  obtain ⟨active, found, called, -, -, rfl⟩ := leave_eq_ok left
  have below : tree.cursor ≠ CallTree.root := by
    intro same
    obtain ⟨top, there, -, unnamed, -⟩ := linked.root
    rw [← same, found] at there
    cases there
    cases called.symm.trans unnamed
  obtain ⟨caller, -, parent, -⟩ := linked.exists_place found below
  exact ⟨active, found, by rw [parent, Option.getD_some]⟩

/-- No call of the root is ever finished. -/
theorem Reachable.counters_root (reachable : tree.Reachable) : tree.counters root = (0, 0) := by
  refine Reachable.induction (fun reading => rfl) (fun tree handle method linked silent => ?_)
    (fun tree next handle elapsed linked left silent => ?_)
    (fun tree reading linked silent => counters_clear tree reading root) reachable
  · rw [linked.counters_enter, silent]
  · rw [counters_leave left, if_neg, silent]
    exact fun active => linked.ne_root (linked.calledBy_cursor_leave left) active.symm

/-- The arena is a tree of call paths, and it is the same tree from above and from below. -/
structure Arranged (tree : CallTree) : Prop where
  cursor : tree.cursor.index < tree.size
  root : ∃ node, tree.node? CallTree.root = some node ∧ node.calls = 0 ∧ node.ticks = 0
  /-- Parent, handle and method are absent for the root only. -/
  absent : ∀ id node, tree.node? id = some node →
    (node.parent = none ↔ id = CallTree.root) ∧ (node.handle = none ↔ id = CallTree.root) ∧
      (node.method = none ↔ id = CallTree.root)
  caller : ∀ id node caller handle, tree.node? id = some node → node.parent = some caller →
    node.handle = some handle →
    caller.index < id.index ∧ (tree.table caller).get? handle = some id
  callee : ∀ id handle child, (handle, child) ∈ (tree.table id).entries →
    id.index < child.index ∧
      ∃ node, tree.node? child = some node ∧ node.parent = some id ∧ node.handle = some handle
  /-- A node below the root is held by one table, under one handle. -/
  place : ∀ id, id.index < tree.size → id ≠ CallTree.root →
    ∃! place : NodeIndex × Handle, (place.2, id) ∈ (tree.table place.1).entries
  nodup : ∀ id, (tree.table id).entries.Nodup
  path : ∀ id, id.index < tree.size → ∃! path, tree.PathOf id path
  injective : ∀ id other path, tree.PathOf id path → tree.PathOf other path → id = other
  upwards : ∀ id, id.index < tree.size → Relation.ReflTransGen tree.CalledBy id CallTree.root
  downwards : WellFounded fun child id => child ∈ (tree.table id).entries.map Prod.snd

theorem Linked.absent_iff (linked : tree.Linked) (found : tree.node? id = some node) :
    (node.parent = none ↔ id = CallTree.root) ∧ (node.handle = none ↔ id = CallTree.root) ∧
      (node.method = none ↔ id = CallTree.root) := by
  by_cases top : id = CallTree.root
  · obtain ⟨node', there, parent, called, named⟩ := linked.root
    rw [← top, found] at there
    cases there
    simp [top, parent, called, named]
  · obtain ⟨caller, handle, method, parent, called, named, -⟩ := linked.caller id node found top
    simp [top, parent, called, named]

theorem Reachable.arranged (reachable : tree.Reachable) : tree.Arranged := by
  have linked := reachable.linked
  refine ⟨linked.cursor, ?_, fun id node => linked.absent_iff,
    fun id node caller handle found parent called => ?_, fun id handle child entry => ?_,
    fun id inside below => ?_, fun id => ?_, fun id inside => ?_,
    fun id other path => linked.path_injective, fun id => linked.leads_to_root,
    linked.wellFounded_children⟩
  · obtain ⟨node, found, -⟩ := linked.root
    have silent := reachable.counters_root
    rw [counters_of_node? found, Prod.mk.injEq] at silent
    exact ⟨node, found, silent⟩
  · exact ⟨linked.lt_of_calledBy ⟨node, found, parent⟩,
      linked.get?_table.mpr ⟨node, found, parent, called⟩⟩
  · obtain ⟨node, found, parent, called⟩ := linked.mem_entries.mp entry
    exact ⟨linked.lt_of_calledBy ⟨node, found, parent⟩, node, found, parent, called⟩
  · obtain ⟨node, found⟩ := exists_node? inside
    obtain ⟨caller, handle, parent, called, entry⟩ := linked.exists_place found below
    refine ⟨(caller, handle), entry, fun place entry' => ?_⟩
    obtain ⟨_, found', parent', called'⟩ := linked.mem_entries.mp entry'
    cases found.symm.trans found'
    cases parent.symm.trans parent'
    cases called.symm.trans called'
    rfl
  · exact (linked.placed_table id).nodup_entries.of_map _
  · obtain ⟨path, leads⟩ := linked.exists_path inside
    exact ⟨path, leads, fun other leads' => linked.path_unique leads' leads⟩

end CallTree
end CilProfiler

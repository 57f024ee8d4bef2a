import CilProfiler.Proofs.Counter
import CilProfiler.Proofs.Snapshot.Tally
import CilProfiler.Proofs.Trace.Callers
import CilProfiler.Snapshot.Flat

/-! # What snapshots show

Both snapshots of a call tree walk over the same call paths: those that are reached from the root
over visible nodes. The hierarchical one lists them callers first and siblings by their ticks, the
flat one visits them callees first and in the order of the child tables. For each of them the
hierarchical snapshot has a node; what the flat one records for the path can be read off it.
-/

namespace CilProfiler

namespace ProfileNode

/-- Own ticks as they are, whether or not the sums on the way to them fit. -/
def own (node : ProfileNode) : Ticks :=
  node.stats.ticks - (node.children.map (·.stats.ticks)).sum

theorem own_of_ownTicks {node : ProfileNode} {ticks : Ticks} (found : node.ownTicks = .ok ticks) :
    ticks = node.own := by
  obtain ⟨below, summed, rest⟩ := Outcome.bind_eq_ok.mp found
  rw [(Ticks.sub_eq_ok.mp rest).1, (Ticks.sum_eq_ok summed).1, own]

/-- What the flat snapshot records for a node. -/
def ownRecord? (node : ProfileNode) : Option (MethodName × OwnTotal) :=
  node.stats.method.map fun method => (method.definition, ⟨node.stats.calls, node.own⟩)

theorem preorder_eq (node : ProfileNode) : node.preorder = node :: preorders node.children := by
  cases node
  rw [preorder]

theorem preorders_eq_flatMap (nodes : List ProfileNode) :
    preorders nodes = nodes.flatMap preorder := by
  induction nodes with
  | nil => rfl
  | cons node rest ih => rw [preorders, ih, List.flatMap_cons]

end ProfileNode

namespace CallTree

variable {tree : CallTree} {id child : NodeIndex} {node : CallNode} {elapsed : Ticks}
  {tally next : MethodTally}

/-- Paths below a node that are shown, callees first and in the order of the child tables. -/
def below (tree : CallTree) (id : NodeIndex) : List NodeIndex :=
  (tree.visibleChildren id).flatMap fun child =>
    if _h : id.index < child.index ∧ child.index < tree.nodes.size then
      tree.below child ++ [child]
    else []
termination_by tree.nodes.size - id.index

/-- Node of the hierarchical snapshot for a path. -/
def shown (tree : CallTree) (elapsed : Ticks) (id : NodeIndex) : ProfileNode :=
  let node := (tree.node? id).getD CallNode.root
  { stats := {
      method := node.method
      calls := node.calls
      ticks := node.ticks
      percent := share node.ticks elapsed }
    children := tree.hierarchyBelow elapsed id }

theorem stats_shown (found : tree.node? id = some node) :
    (tree.shown elapsed id).stats = {
      method := node.method
      calls := node.calls
      ticks := node.ticks
      percent := share node.ticks elapsed } := by
  rw [shown, found]
  rfl

theorem calls_shown (tree : CallTree) (elapsed : Ticks) (id : NodeIndex) :
    (tree.shown elapsed id).stats.calls = tree.callsAt id := by
  rw [shown, callsAt, counters]
  cases tree.node? id <;> rfl

theorem ticks_shown (tree : CallTree) (elapsed : Ticks) (id : NodeIndex) :
    (tree.shown elapsed id).stats.ticks = tree.ticksAt id := by
  rw [shown, ticksAt, counters]
  cases tree.node? id <;> rfl

/-- What the visible callees of a node leave of its ticks. -/
def ownAt (tree : CallTree) (id : NodeIndex) : Ticks :=
  tree.ticksAt id - ((tree.visibleChildren id).map tree.ticksAt).sum

/-- What the flat snapshot records for paths. -/
def ownRecords (tree : CallTree) (elapsed : Ticks) (ids : List NodeIndex) :
    List (MethodName × OwnTotal) :=
  (ids.map (tree.shown elapsed)).filterMap ProfileNode.ownRecord?

theorem node?_of_visible (visible : child ∈ tree.visibleChildren id) :
    ∃ node, tree.node? child = some node ∧ 0 < node.calls := by
  obtain ⟨-, shown⟩ := List.mem_filter.mp visible
  simpa [isVisible, Option.any_eq_true] using shown

theorem visibleChildren_of_outside (outside : ¬id.index < tree.nodes.size) :
    tree.visibleChildren id = [] := by
  rw [visibleChildren, table, node?, Array.getElem?_eq_none (Nat.not_lt.mp outside)]
  rfl

/-- Siblings are sorted by what they are shown with. -/
theorem sortSiblings_map {α : Type} (shown : α → ProfileNode) (items : List α) :
    sortSiblings (items.map shown) =
      (items.mergeSort fun a b => (shown b).stats.ticks ≤ (shown a).stats.ticks).map shown :=
  (List.map_mergeSort (f := shown) fun _ _ _ _ => rfl).symm

namespace Linked

theorem mem_visibleChildren (linked : tree.Linked) :
    child ∈ tree.visibleChildren id ↔ tree.isVisible child ∧ tree.CalledBy child id := by
  rw [visibleChildren, List.mem_filter, linked.mem_children, and_comm]

/-- Walks downwards go on to the right in the arena, and stay inside. -/
theorem lt_of_visible (linked : tree.Linked) (visible : child ∈ tree.visibleChildren id) :
    id.index < child.index ∧ child.index < tree.nodes.size := by
  have called := (linked.mem_visibleChildren.mp visible).2
  exact ⟨linked.lt_of_calledBy called, called.inside⟩

/-- What holds of a node if it holds of its visible children holds of every node. -/
theorem downward_induction (linked : tree.Linked) {motive : NodeIndex → Prop}
    (step : ∀ id, (∀ child ∈ tree.visibleChildren id, motive child) → motive id)
    (id : NodeIndex) : motive id := by
  induction left : tree.nodes.size - id.index using Nat.strongRecOn generalizing id with
  | ind rest ih =>
      refine step id fun child visible => ?_
      obtain ⟨first, inside⟩ := linked.lt_of_visible visible
      exact ih _ (by omega) child rfl

theorem below_eq (linked : tree.Linked) (id : NodeIndex) :
    tree.below id = (tree.visibleChildren id).flatMap fun child => tree.below child ++ [child] := by
  rw [below, List.flatMap_def, List.flatMap_def]
  congr 1
  refine List.map_congr_left fun child visible => ?_
  rw [dif_pos (linked.lt_of_visible visible)]

theorem hierarchyBelow_eq (linked : tree.Linked) (elapsed : Ticks) (id : NodeIndex) :
    tree.hierarchyBelow elapsed id =
      sortSiblings ((tree.visibleChildren id).map (tree.shown elapsed)) := by
  rw [hierarchyBelow]
  congr 1
  rw [← List.filterMap_eq_map]
  refine List.filterMap_congr fun child visible => ?_
  have inside := linked.lt_of_visible visible
  rw [dif_pos inside, Function.comp_apply, shown, node?, Array.getElem?_eq_getElem inside.2]
  rfl

/-- Siblings are the visible children, in some order. -/
theorem exists_order (linked : tree.Linked) (elapsed : Ticks) (id : NodeIndex) :
    ∃ order : List NodeIndex, order.Perm (tree.visibleChildren id) ∧
      tree.hierarchyBelow elapsed id = order.map (tree.shown elapsed) := by
  rw [linked.hierarchyBelow_eq, sortSiblings_map]
  exact ⟨_, List.mergeSort_perm .., rfl⟩

theorem children_perm (linked : tree.Linked) (elapsed : Ticks) (id : NodeIndex) :
    (tree.hierarchyBelow elapsed id).Perm ((tree.visibleChildren id).map (tree.shown elapsed)) := by
  obtain ⟨order, perm, found⟩ := linked.exists_order elapsed id
  exact found ▸ perm.map _

/-- The hierarchical snapshot shows the paths below a node, each once. -/
theorem preorders_perm (linked : tree.Linked) (elapsed : Ticks) (id : NodeIndex) :
    (ProfileNode.preorders (tree.hierarchyBelow elapsed id)).Perm
      ((tree.below id).map (tree.shown elapsed)) := by
  induction id using linked.downward_induction with
  | step id ih =>
      rw [ProfileNode.preorders_eq_flatMap, linked.below_eq, List.map_flatMap]
      refine ((linked.children_perm elapsed id).flatMap_right _).trans ?_
      rw [List.flatMap_map]
      refine (List.Perm.refl _).flatMap fun child visible => ?_
      rw [ProfileNode.preorder_eq, List.map_append, List.map_singleton]
      exact ((ih child visible).cons _).trans (List.perm_append_singleton _ _).symm

theorem own_shown (linked : tree.Linked) (elapsed : Ticks) (id : NodeIndex) :
    (tree.shown elapsed id).own = tree.ownAt id := by
  have children : (tree.shown elapsed id).children.Perm _ := linked.children_perm elapsed id
  rw [ProfileNode.own, (children.map _).sum_eq, List.map_map, ticks_shown, ownAt]
  simp only [Function.comp_def, ticks_shown]

theorem ownRecords_append (tree : CallTree) (elapsed : Ticks) (ids later : List NodeIndex) :
    tree.ownRecords elapsed (ids ++ later) =
      tree.ownRecords elapsed ids ++ tree.ownRecords elapsed later := by
  rw [ownRecords, List.map_append, List.filterMap_append]
  rfl

theorem ownRecords_flatMap {α : Type} (tree : CallTree) (elapsed : Ticks) (list : List α)
    (ids : α → List NodeIndex) :
    tree.ownRecords elapsed (list.flatMap ids) =
      list.flatMap fun item => tree.ownRecords elapsed (ids item) := by
  rw [ownRecords, List.map_flatMap, List.filterMap_flatMap]
  rfl

theorem ownRecords_singleton (found : tree.node? id = some node) :
    tree.ownRecords elapsed [id] = (node.method.map fun method =>
      (method.definition, ⟨node.calls, (tree.shown elapsed id).own⟩)).toList := by
  rw [ownRecords, List.map_singleton, List.filterMap_cons, ProfileNode.ownRecord?,
    stats_shown found]
  cases node.method <;> rfl

/-- Every child passes the test for the end of the arena, so that the walk goes on to all of them. -/
theorem recordOwn_eq (linked : tree.Linked) (found : tree.node? id = some node)
    (tally : MethodTally) :
    tree.recordOwn id tally = (do
      let (tally, own) ← (tree.visibleChildren id).foldlM
        (fun (tally, own) child => do
          let tally ← tree.recordOwn child tally
          let own ← Ticks.sub own (tree.ticksAt child)
          return (tally, own))
        (tally, node.ticks)
      match node.method with
      | none => return tally
      | some method => tally.record OwnTotal.add method.definition ⟨node.calls, own⟩) := by
  rw [recordOwn, found]
  refine congrArg (· >>= _) ?_
  refine Outcome.foldlM_congr (fun child visible state => ?_) _
  have inside := linked.lt_of_visible visible
  rw [ticksAt, counters_of_node? (Array.getElem?_eq_getElem inside.2)]
  exact dif_pos inside

/-- A node is recorded behind its children, with what they leave of its ticks. -/
theorem recordOwn_eq_ok (linked : tree.Linked) (elapsed : Ticks) (found : tree.node? id = some node)
    (recorded : tree.recordOwn id tally = .ok next) :
    ∃ middle,
      (tree.visibleChildren id).foldlM (fun tally child => tree.recordOwn child tally) tally =
        .ok middle ∧
      middle.recordAll OwnTotal.add (tree.ownRecords elapsed [id]) = .ok next := by
  rw [linked.recordOwn_eq found] at recorded
  obtain ⟨⟨middle, own⟩, walked, last⟩ := Outcome.bind_eq_ok.mp recorded
  obtain ⟨children, taken⟩ := Outcome.foldlM_pair_eq_ok
    (fun tally child => tree.recordOwn child tally)
    (fun own child => Ticks.sub own (tree.ticksAt child)) walked
  have own_eq : own = (tree.shown elapsed id).own := by
    rw [linked.own_shown, ownAt, ticksAt, counters_of_node? found]
    refine Ticks.foldlM_sub_eq_ok ?_
    rw [List.foldlM_map]
    exact taken
  refine ⟨middle, children, ?_⟩
  rw [ownRecords_singleton found, ← own_eq]
  simp only at last
  cases named : node.method with
  | none =>
      rw [named] at last
      exact last
  | some method =>
      rw [named] at last
      exact Outcome.bind_eq_ok.mpr ⟨next, last, rfl⟩

/-- Recording the children of a node records what is shown for all paths below it. -/
theorem recordAll_below (linked : tree.Linked) (elapsed : Ticks)
    (recorded : (tree.visibleChildren id).foldlM (fun tally child => tree.recordOwn child tally)
      tally = .ok next) :
    tally.recordAll OwnTotal.add (tree.ownRecords elapsed (tree.below id)) = .ok next := by
  induction id using linked.downward_induction generalizing tally next with
  | step id ih =>
      rw [linked.below_eq, ownRecords_flatMap, Tally.recordAll_flatMap]
      refine Outcome.foldlM_eq_ok_imp (fun child visible state next done => ?_) recorded
      obtain ⟨callee, there, -⟩ := node?_of_visible visible
      obtain ⟨middle, children, itself⟩ := linked.recordOwn_eq_ok elapsed there done
      rw [ownRecords_append, Tally.recordAll_append]
      exact Outcome.bind_eq_ok.mpr ⟨middle, ih child visible children, itself⟩

end Linked

/-- After any events the arena is a tree of call paths, which both snapshots walk over without a
    test for the end of the arena: they go on to every visible child. -/
theorem replay_arranged (start : Ticks) (events : List TraceEvent) :
    let tree := (replay CallTree.step (empty start) events).2
    tree.Arranged ∧
      (∀ elapsed id, tree.hierarchyBelow elapsed id =
        sortSiblings ((tree.visibleChildren id).map (tree.shown elapsed))) ∧
      ∀ id node tally, tree.node? id = some node →
        tree.recordOwn id tally = (do
          let (tally, own) ← (tree.visibleChildren id).foldlM
            (fun (tally, own) child => do
              let tally ← tree.recordOwn child tally
              let own ← Ticks.sub own (tree.ticksAt child)
              return (tally, own))
            (tally, node.ticks)
          match node.method with
          | none => return tally
          | some method => tally.record OwnTotal.add method.definition ⟨node.calls, own⟩) := by
  intro tree
  have reachable : tree.Reachable := ⟨start, events, rfl⟩
  exact ⟨reachable.arranged, reachable.linked.hierarchyBelow_eq,
    fun id node tally found => reachable.linked.recordOwn_eq found tally⟩

end CallTree
end CilProfiler

import CilProfiler.Proofs.Snapshot.Agreement
import CilProfiler.Proofs.Snapshot.FoldedStack
import Mathlib.Data.List.Forall2

/-! # Snapshots up to the order of ties

The slots of a child table show in a hierarchical snapshot only where siblings have equal ticks.
Two snapshots that differ in nothing else have the same folded stacks, and any tallies of the two
hold the same entries: both are made of what each node says of itself and of its callees' ticks.

The order of siblings plays no part in the own ticks of a node, equal ticks or not; it decides only
which sums are formed on the way to them.
-/

namespace CilProfiler
namespace ProfileNode

variable {node other : ProfileNode}

/-- The same snapshot but for the order of siblings, at every level. -/
inductive Rearranged : ProfileNode → ProfileNode → Prop
  | node (stats : CallStats) {children moved others : List ProfileNode}
      (perm : moved.Perm children) (each : List.Forall₂ Rearranged moved others) :
      Rearranged ⟨stats, children⟩ ⟨stats, others⟩

/-- What holds of two nodes if it holds of their children, pair by pair, holds of all rearranged
    snapshots. -/
@[elab_as_elim]
theorem Rearranged.induction {motive : ProfileNode → ProfileNode → Prop}
    (rearranged : node.Rearranged other)
    (step : ∀ stats children moved others, moved.Perm children →
      List.Forall₂ Rearranged moved others → List.Forall₂ motive moved others →
      motive ⟨stats, children⟩ ⟨stats, others⟩) :
    motive node other := by
  refine @Rearranged.rec (fun node other _ => motive node other)
    (fun moved others _ => List.Forall₂ motive moved others) ?_ .nil ?_ _ _ rearranged
  · intro stats children moved others perm each every
    exact step stats children moved others perm each every
  · intro node other nodes others _ _ first rest
    exact .cons first rest

mutual

theorem Rearranged.refl : ∀ node : ProfileNode, node.Rearranged node
  | ⟨stats, children⟩ => .node stats (.refl children) (forall₂_rearranged children)

theorem forall₂_rearranged : ∀ nodes : List ProfileNode, List.Forall₂ Rearranged nodes nodes
  | [] => .nil
  | node :: rest => .cons (.refl node) (forall₂_rearranged rest)

end

/-- Siblings pass on to a flattened list that it is a rearrangement. -/
theorem flatMap_perm {α : Type} {walk : ProfileNode → List α} {nodes others : List ProfileNode}
    (each : List.Forall₂ (fun node other => (walk other).Perm (walk node)) nodes others) :
    (others.flatMap walk).Perm (nodes.flatMap walk) := by
  induction each with
  | nil => exact .refl _
  | cons first _ ih => exact first.append ih

theorem siblingWeights_eq_flatMap (frames : List String) (nodes : List ProfileNode) :
    siblingWeights frames nodes = nodes.flatMap (weights frames) := by
  induction nodes with
  | nil => rw [siblingWeights, List.flatMap_nil]
  | cons node rest ih => rw [siblingWeights, ih, List.flatMap_cons]

namespace Rearranged

theorem stats (rearranged : node.Rearranged other) : other.stats = node.stats := by
  cases rearranged
  rfl

theorem map_ticks {nodes others : List ProfileNode} (each : List.Forall₂ Rearranged nodes others) :
    others.map (·.stats.ticks) = nodes.map (·.stats.ticks) := by
  induction each with
  | nil => rfl
  | cons first _ ih => simp [first.stats, ih]

/-- Own ticks are what the children leave, in whatever order they are taken off. -/
theorem own_eq (rearranged : node.Rearranged other) : other.own = node.own := by
  cases rearranged with
  | node stats perm each => rw [own, own, map_ticks each, (perm.map _).sum_eq]

/-- Paths get the same weights, in another order. -/
theorem weights_perm (rearranged : node.Rearranged other) (frames : List String) :
    (weights frames other).Perm (weights frames node) := by
  revert frames
  refine rearranged.induction fun stats children moved others perm each ih frames => ?_
  have own := (Rearranged.node stats perm each).own_eq
  have frame : frame ⟨stats, others⟩ = frame ⟨stats, children⟩ := rfl
  simp only [weights, siblingWeights_eq_flatMap, own, frame]
  refine List.Perm.cons _ (List.Perm.trans ?_ (perm.flatMap_right _))
  exact flatMap_perm (ih.imp fun _ _ below => below _)

theorem siblingWeights_perm (rearranged : node.Rearranged other) (frames : List String) :
    (siblingWeights frames other.children).Perm (siblingWeights frames node.children) := by
  cases rearranged with
  | node stats perm each =>
      simp only [siblingWeights_eq_flatMap]
      refine List.Perm.trans ?_ (perm.flatMap_right _)
      exact flatMap_perm (each.imp fun _ _ below => below.weights_perm frames)

end Rearranged

/-- The same snapshot but for the order of siblings with equal ticks, at every level. -/
inductive Reordered : ProfileNode → ProfileNode → Prop
  | node (stats : CallStats) {children moved others : List ProfileNode}
      (perm : moved.Perm children)
      (ticks : moved.map (·.stats.ticks) = children.map (·.stats.ticks))
      (each : List.Forall₂ Reordered moved others) :
      Reordered ⟨stats, children⟩ ⟨stats, others⟩

/-- What holds of two nodes if it holds of their children, pair by pair, holds of all reordered
    snapshots. -/
@[elab_as_elim]
theorem Reordered.induction {motive : ProfileNode → ProfileNode → Prop}
    (reordered : node.Reordered other)
    (step : ∀ stats children moved others, moved.Perm children →
      moved.map (·.stats.ticks) = children.map (·.stats.ticks) →
      List.Forall₂ Reordered moved others → List.Forall₂ motive moved others →
      motive ⟨stats, children⟩ ⟨stats, others⟩) :
    motive node other := by
  refine @Reordered.rec (fun node other _ => motive node other)
    (fun moved others _ => List.Forall₂ motive moved others) ?_ .nil ?_ _ _ reordered
  · intro stats children moved others perm ticks each every
    exact step stats children moved others perm ticks each every
  · intro node other nodes others _ _ first rest
    exact .cons first rest

namespace Reordered

theorem rearranged (reordered : node.Reordered other) : node.Rearranged other := by
  refine reordered.induction fun stats children moved others perm ticks each ih => ?_
  exact .node stats perm ih

theorem stats (reordered : node.Reordered other) : other.stats = node.stats :=
  reordered.rearranged.stats

/-- The numbers of a node itself play no part in the order of its children. -/
theorem withStats (reordered : node.Reordered other) (stats : CallStats) :
    Reordered ⟨stats, node.children⟩ ⟨stats, other.children⟩ := by
  cases reordered with
  | node _ perm ticks each => exact .node stats perm ticks each

end Reordered

/-- What a node says of itself and of the ticks of its callees. -/
def outline (node : ProfileNode) : CallStats × List Ticks :=
  (node.stats, node.children.map (·.stats.ticks))

theorem stats_of_outline (same : other.outline = node.outline) : other.stats = node.stats :=
  congrArg Prod.fst same

theorem own_of_outline (same : other.outline = node.outline) : other.own = node.own := by
  have ticks : other.children.map (·.stats.ticks) = _ := congrArg Prod.snd same
  rw [own, own, ticks, stats_of_outline same, outline]

theorem ownTicks_of_outline (same : other.outline = node.outline) :
    other.ownTicks = node.ownTicks := by
  have ticks : other.children.map (·.stats.ticks) = _ := congrArg Prod.snd same
  rw [ownTicks, ownTicks, ticks, stats_of_outline same, outline]

/-- What is recorded for a node can be told from its outline. -/
def outlineRecord? (outline : CallStats × List Ticks) : Option (MethodName × OwnTotal) :=
  outline.1.method.map fun method =>
    (method.definition, ⟨outline.1.calls, outline.1.ticks - outline.2.sum⟩)

theorem ownRecord?_eq : ownRecord? = outlineRecord? ∘ outline :=
  rfl

namespace Reordered

theorem outline_eq (reordered : node.Reordered other) : other.outline = node.outline := by
  cases reordered with
  | node stats perm ticks each =>
      have alike := Rearranged.map_ticks (each.imp fun _ _ => rearranged)
      simp [outline, ← ticks, alike]

/-- The nodes of a reordered snapshot say the same, in another order. -/
theorem preorder_perm (reordered : node.Reordered other) :
    (other.preorder.map outline).Perm (node.preorder.map outline) := by
  refine reordered.induction fun stats children moved others perm ticks each ih => ?_
  have whole : outline ⟨stats, others⟩ = outline ⟨stats, children⟩ :=
    (Reordered.node stats perm ticks each).outline_eq
  rw [preorder, preorder, List.map_cons, List.map_cons, whole, preorders_eq_flatMap,
    preorders_eq_flatMap, List.map_flatMap, List.map_flatMap]
  exact ((flatMap_perm ih).trans (perm.flatMap_right _)).cons _

theorem preorders_perm (reordered : node.Reordered other) :
    ((preorders other.children).map outline).Perm ((preorders node.children).map outline) := by
  have whole := reordered.preorder_perm
  rwa [preorder_eq, preorder_eq, List.map_cons, List.map_cons, reordered.outline_eq,
    List.perm_cons] at whole

end Reordered

/-- Stacks that are folded do not depend on the order of the nodes. -/
theorem foldedStacks_of_perm {folded : List FoldedStack}
    (outlines : ((preorders other.children).map outline).Perm
      ((preorders node.children).map outline))
    (weights : (siblingWeights [] other.children).Perm (siblingWeights [] node.children))
    (done : node.foldedStacks = .ok folded) : other.foldedStacks = .ok folded := by
  obtain ⟨owns, tally, recorded, rfl⟩ := foldedStacks_eq_ok.mp done
  obtain ⟨tally', recorded'⟩ := Tally.exists_recordAll_of_perm weights (weights_lt owns) recorded
  refine foldedStacks_eq_ok.mpr ⟨fun inner member => ?_, tally', recorded', ?_⟩
  · obtain ⟨twin, there, alike⟩ :=
      List.mem_map.mp (outlines.mem_iff.mp (List.mem_map_of_mem member))
    rw [← ownTicks_of_outline alike, ← own_of_outline alike]
    exact owns twin there
  · exact (rankedStacks_eq weights recorded recorded').symm

/-- Reordered snapshots have the same folded stacks. -/
theorem Reordered.foldedStacks_eq (reordered : node.Reordered other) :
    other.foldedStacks.toOption = node.foldedStacks.toOption := by
  have outlines := reordered.preorders_perm
  have weights := reordered.rearranged.siblingWeights_perm []
  cases done : node.foldedStacks with
  | ok folded => rw [foldedStacks_of_perm outlines weights done]
  | error cause =>
      cases done' : other.foldedStacks with
      | error cause' => rfl
      | ok folded =>
          rw [foldedStacks_of_perm outlines.symm weights.symm done'] at done
          cases done

/-- Siblings that were found in another order are sorted alike, but for ties. -/
theorem reordered_sortSiblings {α : Type} {shown shown' : α → ProfileNode} {items items' : List α}
    (perm : items'.Perm items) (each : ∀ item ∈ items, (shown item).Reordered (shown' item))
    (stats : CallStats) :
    Reordered ⟨stats, CallTree.sortSiblings (items.map shown)⟩
      ⟨stats, CallTree.sortSiblings (items'.map shown')⟩ := by
  let before (a b : α) : Bool := (shown b).stats.ticks ≤ (shown a).stats.ticks
  have sorted : CallTree.sortSiblings (items.map shown) = (items.mergeSort before).map shown :=
    CallTree.sortSiblings_map shown items
  have sorted' : CallTree.sortSiblings (items'.map shown') =
      (items'.mergeSort before).map shown' := by
    refine (List.map_mergeSort fun a member b member' => ?_).symm
    simp only [before, (each a (perm.mem_iff.mp member)).stats,
      (each b (perm.mem_iff.mp member')).stats]
  have descending (list : List α) :
      ((list.mergeSort before).map fun item => (shown item).stats.ticks).Pairwise (· ≥ ·) := by
    rw [List.pairwise_map]
    refine (List.pairwise_mergeSort (fun a b c => ?_) (fun a b => ?_) list).imp of_decide_eq_true
    · simpa [before] using fun first second => le_trans second first
    · simpa [before] using le_total _ _
  have moved : (items'.mergeSort before).Perm (items.mergeSort before) :=
    ((List.mergeSort_perm ..).trans perm).trans (List.mergeSort_perm ..).symm
  rw [sorted, sorted']
  refine .node stats (moved.map shown) ?_ ?_
  · rw [List.map_map, List.map_map]
    exact (moved.map _).eq_of_pairwise (fun _ _ _ _ above below => le_antisymm below above)
      (descending items') (descending items)
  · rw [List.forall₂_map_left_iff, List.forall₂_map_right_iff, List.forall₂_same]
    intro item member
    exact each item (perm.mem_iff.mp (List.mem_mergeSort.mp member))

end ProfileNode

namespace CallTree

variable {nodes nodes' : List ProfileNode} {tally tally' : MethodTally}

/-- Tallies of nodes that say the same hold the same entries. -/
theorem Tallies.perm (tallies : Tallies tally nodes) (tallies' : Tallies tally' nodes')
    (outlines : (nodes'.map ProfileNode.outline).Perm (nodes.map ProfileNode.outline)) :
    tally'.Perm tally := by
  have records : (nodes'.filterMap ProfileNode.ownRecord?).Perm
      (nodes.filterMap ProfileNode.ownRecord?) := by
    have told := outlines.filterMap ProfileNode.outlineRecord?
    rwa [List.filterMap_map, List.filterMap_map, ← ProfileNode.ownRecord?_eq] at told
  have totals {M : Type} [AddCommMonoid M] (size : OwnTotal → M)
      (additive : Tally.Additive OwnTotal.add size) (definition : MethodName) :
      Tally.total size (· = definition) tally' = Tally.total size (· = definition) tally := by
    rw [tallies.total size _ additive, tallies'.total size _ additive,
      Tally.total_eq_of_perm records]
  refine Tally.perm_of_values tallies.nodup tallies'.nodup (fun definition => ?_) ?_
  · rw [tallies.mem_keys, tallies'.mem_keys, ← ProfileNode.mem_keys_ownRecords,
      ← ProfileNode.mem_keys_ownRecords, (records.map Prod.fst).mem_iff]
  · rintro definition ⟨calls, ticks⟩ ⟨calls', ticks'⟩ here there
    have counted := totals OwnTotal.calls OwnTotal.additive_calls definition
    have summed := totals OwnTotal.ticks OwnTotal.additive_ticks definition
    rw [Tally.total_of_mem tallies.nodup here, Tally.total_of_mem tallies'.nodup there]
      at counted summed
    exact congrArg₂ OwnTotal.mk counted summed

end CallTree
end CilProfiler

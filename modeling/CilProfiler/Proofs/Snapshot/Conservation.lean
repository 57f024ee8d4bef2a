import CilProfiler.Proofs.Snapshot.Agreement
import CilProfiler.Proofs.Snapshot.FoldedStack

/-! # No tick is lost

The own ticks of a call are what its callees leave of its inclusive ticks. Over a call and all that
is below it they telescope to the inclusive ticks of the call, so that nested and recursive calls
count through the outermost one only. The flat snapshot lists these ticks by method and the folded
stacks list them by path; the rest of the elapsed time is the entry without a method.
-/

namespace CilProfiler

namespace ProfileNode

mutual

/-- The own ticks of a node and of everything below it make up its inclusive ticks. -/
theorem sum_own_preorder :
    ∀ node : ProfileNode, (node.preorder.map own).sum = node.stats.ticks
  | ⟨stats, children⟩ => by
      rw [preorder, List.map_cons, List.sum_cons, sum_own_preorders children, own]
      exact sub_add_cancel ..

theorem sum_own_preorders :
    ∀ nodes : List ProfileNode, ((preorders nodes).map own).sum = (nodes.map (·.stats.ticks)).sum
  | [] => rfl
  | node :: rest => by
      rw [preorders, List.map_append, List.sum_append, sum_own_preorder node,
        sum_own_preorders rest, List.map_cons, List.sum_cons]

end

/-- Nodes with a method are recorded with all of their own ticks. -/
theorem total_ownRecords_of_named {nodes : List ProfileNode}
    (named : ∀ node ∈ nodes, node.stats.method.isSome) :
    Tally.total OwnTotal.ticks (fun _ => true) (nodes.filterMap ownRecord?) =
      (nodes.map own).sum := by
  rw [total_ownRecords_of_chosen, List.filter_eq_self.mpr fun node member => ?_]
  rw [Option.any_true, Option.isSome_map]
  exact named node member

theorem sum_weights {nodes : List ProfileNode} (positive : ∀ node ∈ nodes, 0 ≤ node.own) :
    (((nodes.map (·.own.toNat)).sum : Nat) : Int) = (nodes.map own).sum := by
  rw [Ticks.sum_toNat, List.filter_eq_self.mpr]
  simpa using positive

end ProfileNode

namespace CallTree

variable {tree : CallTree} {id child : NodeIndex} {reading elapsed : Ticks} {tally shuffled : MethodTally}
  {entries : List CallStats}

namespace Linked

theorem method_of_below (linked : tree.Linked) (member : child ∈ tree.below id) :
    ∃ node method, tree.node? child = some node ∧ node.method = some method := by
  induction id using linked.downward_induction with
  | step id ih =>
      rw [linked.below_eq, List.mem_flatMap] at member
      obtain ⟨callee, visible, member⟩ := member
      rcases List.mem_append.mp member with below | itself
      · exact ih callee visible below
      · cases List.mem_singleton.mp itself
        obtain ⟨node, there, -⟩ := node?_of_visible visible
        have other : child ≠ CallTree.root := by
          rintro rfl
          exact Nat.not_lt_zero _ (linked.lt_of_visible visible).1
        obtain ⟨-, -, method, -, -, named, -⟩ := linked.caller _ _ there other
        exact ⟨node, method, there, named⟩

/-- Only the root of a hierarchical snapshot has no method. -/
theorem named_preorders (linked : tree.Linked) (elapsed : Ticks) :
    ∀ node ∈ ProfileNode.preorders (tree.hierarchyBelow elapsed id), node.stats.method.isSome := by
  intro node member
  rw [(linked.preorders_perm elapsed id).mem_iff] at member
  obtain ⟨path, below, rfl⟩ := List.mem_map.mp member
  obtain ⟨held, method, there, named⟩ := linked.method_of_below below
  rw [stats_shown there]
  exact Option.isSome_iff_exists.mpr ⟨method, named⟩

/-- The tally of a tree holds the inclusive ticks of the outermost calls. -/
theorem sum_tally (linked : tree.Linked) (elapsed : Ticks)
    (tallied : tree.methodTally = .ok tally) :
    (tally.map (·.2.ticks)).sum =
      ((tree.hierarchyBelow elapsed CallTree.root).map (·.stats.ticks)).sum := by
  have totals := (linked.tallies elapsed tallied).total OwnTotal.ticks (fun _ => true)
    OwnTotal.additive_ticks
  rw [ProfileNode.total_ownRecords_of_named (linked.named_preorders elapsed),
    ProfileNode.sum_own_preorders] at totals
  simpa [Tally.total] using totals

end Linked

theorem inRange_of_listed (found : listed elapsed tally = .ok entries) :
    Ticks.InRange (tally.map (·.2.ticks)).sum := by
  obtain ⟨recorded, summed, -⟩ := Outcome.bind_eq_ok.mp found
  obtain ⟨rfl, fits⟩ := Ticks.sum_eq_ok summed
  exact fits

/-- The entry without a method makes the ticks of all entries the elapsed time. -/
theorem sum_listed (found : listed elapsed tally = .ok entries) :
    (entries.map (·.ticks)).sum = elapsed := by
  rw [((listed_perm found).map _).sum_eq]
  simp [unranked, withShare, Function.comp_def]

/-- The list of the tally is the flat snapshot, and in whatever order a map gives the tally, all
    entries make up the elapsed time. The entry without a method has what the outermost calls leave
    of it, and the folded stacks weigh the rest if no call has negative own ticks. -/
theorem flatList_conserves (reachable : tree.Reachable)
    (fits : Ticks.InRange (reading - tree.since)) (tallied : tree.methodTally = .ok tally)
    (order : shuffled.Perm tally)
    (found : listed (reading - tree.since) shuffled = .ok entries) :
    tree.flatList reading = listed (reading - tree.since) tally ∧
    ∃ root outside, tree.hierarchy reading = .ok root ∧
      entries.filter (·.method.isNone) = [outside] ∧
      (entries.map (·.ticks)).sum = reading - tree.since ∧
      outside.ticks = reading - tree.since - (root.children.map (·.stats.ticks)).sum ∧
      ((∀ node ∈ ProfileNode.preorders root.children, ∃ own, node.ownTicks = .ok own ∧ 0 ≤ own) →
        ∃ folded, root.foldedStacks = .ok folded ∧
          (((folded.map (·.weight)).sum : Nat) : Int) = reading - tree.since - outside.ticks) := by
  obtain ⟨root, shown⟩ := tree.exists_hierarchy fits
  have children := children_of_hierarchy shown
  have recorded : (shuffled.map (·.2.ticks)).sum = _ :=
    (order.map _).sum_eq.trans (reachable.linked.sum_tally (reading - tree.since) tallied)
  have alone := (listed_perm found).filter (·.method.isNone)
  rw [filter_none_unranked, recorded, ← children] at alone
  refine ⟨flatList_eq_listed fits tallied, root, _, shown, List.perm_singleton.mp alone,
    sum_listed found, rfl, fun owns => ?_⟩
  have own_eq : ∀ node ∈ ProfileNode.preorders root.children,
      node.ownTicks = .ok node.own ∧ 0 ≤ node.own := by
    intro node member
    obtain ⟨own, told, positive⟩ := owns node member
    rw [← ProfileNode.own_of_ownTicks told]
    exact ⟨told, positive⟩
  have weighed := ProfileNode.sum_weights fun node member => (own_eq node member).2
  rw [ProfileNode.sum_own_preorders, children, ← recorded, ← children] at weighed
  have small : ((ProfileNode.preorders root.children).map (·.own.toNat)).sum < Count.bound := by
    have inside := (inRange_of_listed found).2
    rw [← weighed, Ticks.bound] at inside
    rw [Count.bound]
    omega
  obtain ⟨folded, done, total⟩ :=
    ProfileNode.exists_foldedStacks (fun node member => (own_eq node member).1) small
  refine ⟨folded, done, ?_⟩
  rw [total, weighed, recorded, children, sub_sub_cancel]

/-- A method that calls itself, with time before and behind it. -/
def reentrantTrace (run : Handle) : List TraceEvent := [
  .start run ⟨"App", "Run", [], []⟩,
  .start run ⟨"App", "Run", [], []⟩,
  .finish run 20,
  .finish run 60]

theorem reentrantTrace_conserves :
    let tree := (replay CallTree.step (empty 0) (reentrantTrace { raw := 4 })).2
    ∃ entries root folded, tree.flatList 100 = .ok entries ∧ tree.hierarchy 100 = .ok root ∧
      root.foldedStacks = .ok folded ∧ (entries.map (·.ticks)).sum = 100 ∧
      (entries.filter (·.method.isNone)).map (·.ticks) = [40] ∧
      (folded.map (·.weight)).sum = 60 := by
  intro tree
  have linked : tree.Linked := Reachable.linked ⟨0, _, rfl⟩
  have since : tree.since = 0 := by decide +kernel
  have outer : tree.visibleChildren CallTree.root = [⟨1⟩] := by decide +kernel
  have inner : tree.visibleChildren ⟨1⟩ = [⟨2⟩] := by decide +kernel
  have leaf : tree.visibleChildren ⟨2⟩ = [] := by decide +kernel
  have ticks : (tree.shown 100 ⟨1⟩).stats.ticks = 60 ∧ (tree.shown 100 ⟨2⟩).stats.ticks = 20 := by
    decide +kernel
  have middle : (tree.shown 100 ⟨1⟩).children = [tree.shown 100 ⟨2⟩] := by
    simp [CallTree.shown, linked.hierarchyBelow_eq, inner, sortSiblings]
  have last : (tree.shown 100 ⟨2⟩).children = [] := by
    simp [CallTree.shown, linked.hierarchyBelow_eq, leaf, sortSiblings]
  have tallied : tree.methodTally = .ok [(⟨"App", "Run", [], []⟩, ⟨2, 60⟩)] := by decide +kernel
  obtain ⟨entries, found⟩ :
      ∃ entries, listed (100 - tree.since) [(⟨"App", "Run", [], []⟩, ⟨2, 60⟩)] = .ok entries :=
    Outcome.exists_of_isOk (by decide +kernel)
  obtain ⟨flat, root, outside, shown, alone, total, left, weighed⟩ :=
    flatList_conserves ⟨0, _, rfl⟩ (since ▸ by decide) tallied (.refl _) found
  have below : root.children = [tree.shown 100 ⟨1⟩] := by
    rw [children_of_hierarchy shown, since, linked.hierarchyBelow_eq, outer]
    simp [sortSiblings]
  rw [below, since] at left weighed
  have owns : ∀ node ∈ ProfileNode.preorders [tree.shown 100 ⟨1⟩],
      ∃ own, node.ownTicks = .ok own ∧ 0 ≤ own := by
    simp only [ProfileNode.preorders, ProfileNode.preorder_eq, middle, last, ProfileNode.ownTicks,
      List.append_nil, List.forall_mem_cons, List.map_cons, List.map_nil, ticks]
    exact ⟨⟨40, by decide, by decide⟩, ⟨20, by decide, by decide⟩, by simp⟩
  obtain ⟨folded, done, weight⟩ := weighed owns
  rw [List.map_singleton, List.sum_singleton, ticks.1] at left
  rw [left] at weight
  refine ⟨entries, root, folded, flat.trans found, shown, done, ?_, ?_, Int.ofNat_inj.mp weight⟩
  · rw [total, since]
    rfl
  · rw [alone, List.map_singleton, left]
    rfl

end CallTree
end CilProfiler

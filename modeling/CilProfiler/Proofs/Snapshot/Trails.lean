import CilProfiler.Proofs.Snapshot.Reordered
import CilProfiler.Proofs.Text.Utf8Order

/-! # Folded stacks by trails

A node below the root of a snapshot has a trail, the nodes on the way to it. The frames of the trail,
written one behind another, are the stack of the node. So the folded stacks are read off the trails
alone: which stacks there are, what each of them weighs, and in which order they are listed. Neither
the order in which trails are found nor that of siblings has a part in it, as long as all sums fit.
-/

namespace CilProfiler

/-- A node of a snapshot, and the nodes above it from the outermost on, without the root. -/
structure Trail where
  callers : List ProfileNode
  node : ProfileNode

namespace Trail

/-- The trail of a node that is found below a caller. -/
def below (caller : ProfileNode) (trail : Trail) : Trail where
  callers := caller :: trail.callers
  node := trail.node

/-- Frames on the trail, as a folded stack is written. -/
def stack (trail : Trail) : String :=
  FoldedStack.separator.intercalate ((trail.callers ++ [trail.node]).map ProfileNode.frame)

/-- Own ticks of the node, or none if they are negative. -/
def weight (trail : Trail) : Count :=
  trail.node.own.toNat

end Trail

namespace ProfileNode

mutual

def trailsFrom : ProfileNode → List Trail
  | ⟨stats, children⟩ =>
    ⟨[], ⟨stats, children⟩⟩ :: (siblingTrails children).map (·.below ⟨stats, children⟩)

def siblingTrails : List ProfileNode → List Trail
  | [] => []
  | node :: rest => trailsFrom node ++ siblingTrails rest

end

/-- Trails of all nodes below the root, each node with its own. -/
def trails (root : ProfileNode) : List Trail :=
  siblingTrails root.children

/-- A trail leads down from a child of the node. -/
inductive Leads : ProfileNode → Trail → Prop where
  | child {caller node : ProfileNode} (member : node ∈ caller.children) : Leads caller ⟨[], node⟩
  | deeper {caller node : ProfileNode} {trail : Trail} (member : node ∈ caller.children)
      (further : Leads node trail) : Leads caller (trail.below node)

/-- What the trails with a stack weigh. -/
def stackWeight (root : ProfileNode) (stack : String) : Count :=
  ((root.trails.filter (·.stack = stack)).map (·.weight)).sum

variable {node other root : ProfileNode} {trail : Trail} {stack : String} {tally : StackTally}
  {folded : List FoldedStack}

mutual

/-- Each node below the root has one trail. -/
theorem map_node_trailsFrom : ∀ node : ProfileNode, (trailsFrom node).map (·.node) = node.preorder
  | ⟨stats, children⟩ => by
      rw [trailsFrom, preorder, List.map_cons, List.map_map, ← map_node_siblingTrails]
      rfl

theorem map_node_siblingTrails :
    ∀ nodes : List ProfileNode, (siblingTrails nodes).map (·.node) = preorders nodes
  | [] => rfl
  | node :: rest => by
      rw [siblingTrails, preorders, List.map_append, map_node_trailsFrom, map_node_siblingTrails]

end

theorem leads_iff : node.Leads trail ↔ ∃ child ∈ node.children,
    trail = ⟨[], child⟩ ∨ ∃ further, child.Leads further ∧ trail = further.below child := by
  constructor
  · intro leads
    cases leads with
    | child member => exact ⟨_, member, .inl rfl⟩
    | deeper member further => exact ⟨_, member, .inr ⟨_, further, rfl⟩⟩
  · rintro ⟨child, member, rfl | ⟨further, leads, rfl⟩⟩
    · exact .child member
    · exact .deeper member leads

mutual

theorem mem_trailsFrom : ∀ (node : ProfileNode) (trail : Trail), trail ∈ trailsFrom node ↔
    trail = ⟨[], node⟩ ∨ ∃ further, node.Leads further ∧ trail = further.below node
  | ⟨stats, children⟩, trail => by
      rw [trailsFrom, List.mem_cons, List.mem_map]
      refine or_congr Iff.rfl (exists_congr fun further => and_congr ?_ eq_comm)
      rw [mem_siblingTrails children further, leads_iff]

theorem mem_siblingTrails : ∀ (nodes : List ProfileNode) (trail : Trail),
    trail ∈ siblingTrails nodes ↔ ∃ node ∈ nodes,
      trail = ⟨[], node⟩ ∨ ∃ further, node.Leads further ∧ trail = further.below node
  | [], trail => by simp [siblingTrails]
  | node :: rest, trail => by
      rw [siblingTrails, List.mem_append, mem_trailsFrom node, mem_siblingTrails rest,
        List.exists_mem_cons_iff]

end

/-- The trails are those that lead down from the root. -/
theorem mem_trails : trail ∈ root.trails ↔ root.Leads trail := by
  rw [trails, mem_siblingTrails, leads_iff]

mutual

/-- Weights are recorded trail by trail. -/
theorem weights_eq (frames : List String) : ∀ node : ProfileNode,
    weights frames node = (trailsFrom node).map fun trail =>
      (FoldedStack.separator.intercalate (frames ++ (trail.callers ++ [trail.node]).map frame),
        trail.weight)
  | ⟨stats, children⟩ => by
      rw [weights, trailsFrom, List.map_cons, List.map_map, siblingWeights_eq]
      simp [Function.comp_def, Trail.below, Trail.weight]

theorem siblingWeights_eq (frames : List String) : ∀ nodes : List ProfileNode,
    siblingWeights frames nodes = (siblingTrails nodes).map fun trail =>
      (FoldedStack.separator.intercalate (frames ++ (trail.callers ++ [trail.node]).map frame),
        trail.weight)
  | [] => rfl
  | node :: rest => by
      rw [siblingWeights, siblingTrails, List.map_append, weights_eq, siblingWeights_eq]

end

theorem siblingWeights_root (root : ProfileNode) :
    siblingWeights [] root.children = root.trails.map fun trail => (trail.stack, trail.weight) :=
  siblingWeights_eq [] root.children

theorem total_siblingWeights (root : ProfileNode) (stack : String) :
    Tally.total id (· = stack) (siblingWeights [] root.children) = root.stackWeight stack := by
  rw [siblingWeights_root, Tally.total, List.filter_map, List.map_map]
  rfl

/-- The sums that are formed on the way to the folded stacks fit: of the ticks of siblings, one after
    another, of the own ticks of each node, and of the weights for each stack. -/
structure SumsFit (root : ProfileNode) : Prop where
  siblings : ∀ node ∈ preorders root.children, ∀ early,
    early <+: node.children.map (·.stats.ticks) → Ticks.InRange early.sum
  own : ∀ node ∈ preorders root.children, Ticks.InRange node.own
  weight : ∀ stack, root.stackWeight stack < Count.bound

theorem ownTicks_eq_own : node.ownTicks = .ok node.own ↔
    (∀ early, early <+: node.children.map (·.stats.ticks) → Ticks.InRange early.sum) ∧
      Ticks.InRange node.own := by
  rw [ownTicks, Outcome.bind_eq_ok]
  constructor
  · rintro ⟨below, summed, taken⟩
    exact ⟨(Ticks.sum_eq_ok_iff.mp summed).2, (Ticks.sub_eq_ok.mp taken).2⟩
  · rintro ⟨room, fits⟩
    exact ⟨_, Ticks.sum_eq_ok_iff.mpr ⟨rfl, room⟩, Ticks.sub_eq_ok.mpr ⟨rfl, fits⟩⟩

/-- Stacks are folded exactly if all sums fit. -/
theorem exists_foldedStacks_iff : (∃ folded, root.foldedStacks = .ok folded) ↔ root.SumsFit := by
  constructor
  · rintro ⟨folded, done⟩
    obtain ⟨owns, tally, recorded, -⟩ := foldedStacks_eq_ok.mp done
    refine ⟨fun node member => (ownTicks_eq_own.mp (owns node member)).1,
      fun node member => (ownTicks_eq_own.mp (owns node member)).2, fun stack => ?_⟩
    rw [← total_siblingWeights]
    exact Tally.total_lt_of_recordAll (weights_lt owns) recorded stack
  · intro fits
    obtain ⟨tally, recorded⟩ := Tally.exists_recordAll_count fun stack =>
      (total_siblingWeights root stack).trans_lt (fits.weight stack)
    exact ⟨_, foldedStacks_eq_ok.mpr ⟨fun node member => ownTicks_eq_own.mpr
      ⟨fits.siblings node member, fits.own node member⟩, tally, recorded, rfl⟩⟩

end ProfileNode

/-- The heavier of two stacks comes before the other, and of two that weigh the same the one whose
    bytes do. -/
def FoldedStack.Before (a b : FoldedStack) : Prop :=
  b.weight < a.weight ∨ a.weight = b.weight ∧ Utf8.bytes a.stack < Utf8.bytes b.stack

theorem FoldedStack.order_eq_lt {a b : FoldedStack} : order a b = .lt ↔ a.Before b := by
  rw [order, Ordering.then_eq_lt, Nat.compare_eq_lt, Nat.compare_eq_eq, Utf8.compare_eq_lt, Before,
    eq_comm (a := b.weight)]

namespace ProfileNode

variable {root other : ProfileNode} {stack : String} {tally : StackTally} {entry : FoldedStack}
  {folded shuffled : List FoldedStack}

section Recorded

variable (recorded : Tally.recordAll Count.add [] (siblingWeights [] root.children) = .ok tally)

include recorded

theorem nodup_rankedStacks : ((rankedStacks tally).map (·.stack)).Nodup := by
  rw [rankedStacks, ((Ranked.sort_perm _ _ _).map _).nodup_iff]
  exact nodup_stacks recorded

theorem mem_rankedStacks :
    stack ∈ (rankedStacks tally).map (·.stack) ↔ ∃ trail ∈ root.trails, trail.stack = stack := by
  rw [rankedStacks, ((Ranked.sort_perm _ _ _).map _).mem_iff, List.map_map]
  refine (Tally.mem_keys_recordAll recorded).trans ?_
  simp [siblingWeights_root]

theorem weight_rankedStacks (member : entry ∈ rankedStacks tally) :
    entry.weight = root.stackWeight entry.stack := by
  rw [rankedStacks, (Ranked.sort_perm _ _ _).mem_iff, List.mem_map] at member
  obtain ⟨⟨stack, weight⟩, held, rfl⟩ := member
  have all : Tally.total id (· = stack) tally = root.stackWeight stack := by
    rw [Tally.total_recordAll Tally.additive_count recorded, Tally.total_nil, zero_add,
      total_siblingWeights]
  rwa [Tally.total_of_mem (Tally.nodup_recordAll (by simp) recorded) held] at all

theorem pairwise_rankedStacks : (rankedStacks tally).Pairwise FoldedStack.Before :=
  (Ranked.pairwise_sort FoldedStack.weight (nodup_stacks recorded)).imp fun before =>
    FoldedStack.order_eq_lt.mp before

/-- Sorting leads to the same list from any order of the entries. -/
theorem mergeSort_rankedStacks (perm : shuffled.Perm (rankedStacks tally)) :
    (shuffled.mergeSort fun a b => (FoldedStack.order a b).isLE) = rankedStacks tally :=
  Ranked.sort_eq_of_perm FoldedStack.weight (perm.trans (Ranked.sort_perm ..))
    (nodup_stacks recorded)

end Recorded

/-- The folded stacks of a snapshot, which are given exactly if all sums fit, are those of the trails,
    each once. A stack weighs what the nodes with it have of own ticks, negative ones taken as none one
    by one; trails run down to every node, each node by itself. The list is strictly ordered, so that
    neither the order in which a tally hands out its entries nor that of siblings shows in it, and
    altogether it weighs what the nodes do. -/
theorem foldedStacks_exact (root : ProfileNode) :
    ((∀ trail, trail ∈ root.trails ↔ root.Leads trail) ∧
      root.trails.map (·.node) = preorders root.children) ∧
    ((∃ folded, root.foldedStacks = .ok folded) ↔ root.SumsFit) ∧
    ∀ folded, root.foldedStacks = .ok folded →
      (folded.map (·.stack)).Nodup ∧
      (∀ stack, stack ∈ folded.map (·.stack) ↔ ∃ trail ∈ root.trails, trail.stack = stack) ∧
      (∀ entry ∈ folded, entry.weight = root.stackWeight entry.stack) ∧
      folded.Pairwise FoldedStack.Before ∧
      (∀ shuffled : List FoldedStack, shuffled.Perm folded →
        (shuffled.mergeSort fun a b => (FoldedStack.order a b).isLE) = folded) ∧
      (∀ other, root.Rearranged other → other.SumsFit → other.foldedStacks = .ok folded) ∧
      (folded.map (·.weight)).sum = ((preorders root.children).map (·.own.toNat)).sum := by
  refine ⟨⟨fun trail => mem_trails, map_node_siblingTrails _⟩, exists_foldedStacks_iff,
    fun folded done => ?_⟩
  obtain ⟨-, tally, recorded, rfl⟩ := foldedStacks_eq_ok.mp done
  refine ⟨nodup_rankedStacks recorded, fun stack => mem_rankedStacks recorded,
    fun entry => weight_rankedStacks recorded, pairwise_rankedStacks recorded,
    fun shuffled => mergeSort_rankedStacks recorded, fun other rearranged fits => ?_, ?_⟩
  · obtain ⟨folded', done'⟩ := exists_foldedStacks_iff.mpr fits
    obtain ⟨-, tally', recorded', rfl⟩ := foldedStacks_eq_ok.mp done'
    rw [done', rankedStacks_eq (rearranged.siblingWeights_perm []) recorded recorded']
  · rw [sum_rankedStacks recorded, map_snd_siblingWeights]

/-- Two calls that are written alike, one of them outlasted by its callee, and time outside. -/
def overlappingProfile : ProfileNode :=
  ⟨⟨none, 0, 0, 0.0⟩, [
    ⟨⟨some ⟨"App", "Run", [], []⟩, 1, 10, 50.0⟩, [⟨⟨some ⟨"App", "Load", [], []⟩, 1, 12, 60.0⟩, []⟩]⟩,
    ⟨⟨some ⟨"App", "Run", [], []⟩, 2, 7, 35.0⟩, [⟨⟨some ⟨"App", "Load", [], []⟩, 1, 3, 15.0⟩, []⟩]⟩,
    ⟨⟨none, 0, 4, 20.0⟩, []⟩]⟩

theorem overlappingProfile_foldedStacks_exact :
    let root := overlappingProfile
    let other : ProfileNode := ⟨root.stats, root.children.reverse⟩
    ∃ folded, root.foldedStacks = .ok folded ∧ other.foldedStacks = .ok folded ∧
      folded.Pairwise FoldedStack.Before ∧ ⟨"App.Run", 4⟩ ∈ folded ∧
      (folded.map (·.weight)).sum = 23 := by
  intro root other
  obtain ⟨folded, done⟩ : ∃ folded, root.foldedStacks = .ok folded :=
    Outcome.exists_of_isOk (by decide +kernel)
  obtain ⟨-, listed, weights, ordered, -, moved, total⟩ := (foldedStacks_exact root).2.2 folded done
  refine ⟨folded, done, ?_, ordered, ?_, ?_⟩
  · have fits : other.SumsFit :=
      (foldedStacks_exact other).2.1.mp (Outcome.exists_of_isOk (by decide +kernel))
    exact moved other (.node _ (List.reverse_perm _) (forall₂_rearranged _)) fits
  · have run : "App.Run" ∈ folded.map (·.stack) :=
      (listed _).mpr ⟨_, mem_trails.mpr (.child (List.mem_cons_self ..)), by decide +kernel⟩
    obtain ⟨entry, member, written⟩ := List.mem_map.mp run
    have weight : entry.weight = 4 := by
      rw [weights entry member, written]
      decide +kernel
    rwa [← written, ← weight]
  · rw [total]
    decide +kernel

end ProfileNode
end CilProfiler

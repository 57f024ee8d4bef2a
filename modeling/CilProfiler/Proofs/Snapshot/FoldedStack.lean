import CilProfiler.Proofs.Snapshot.Ranking
import CilProfiler.Proofs.Snapshot.Shown
import CilProfiler.Snapshot.FoldedStack

/-! # What folded stacks are made of

Each node of a snapshot gives one weight, its own ticks if they are not negative, to the path that
leads to it; the folded stacks are the tally of these weights. As nothing else is added, the weights
of all stacks make up the weights of all nodes, and they fit if these do.
-/

namespace CilProfiler
namespace ProfileNode

mutual

/-- Paths and weights of a node below the callers with the given frames, and of everything below
    the node. -/
def weights (frames : List String) : ProfileNode → List (String × Count)
  | ⟨stats, children⟩ =>
    let node : ProfileNode := ⟨stats, children⟩
    let frames := frames ++ [node.frame]
    (FoldedStack.separator.intercalate frames, node.own.toNat) :: siblingWeights frames children

def siblingWeights (frames : List String) : List ProfileNode → List (String × Count)
  | [] => []
  | node :: rest => weights frames node ++ siblingWeights frames rest

end

mutual

theorem map_snd_weights (frames : List String) :
    ∀ node : ProfileNode, (weights frames node).map Prod.snd = node.preorder.map (·.own.toNat)
  | ⟨stats, children⟩ => by
      rw [weights, preorder, List.map_cons, List.map_cons, map_snd_siblingWeights]

theorem map_snd_siblingWeights (frames : List String) :
    ∀ nodes : List ProfileNode,
      (siblingWeights frames nodes).map Prod.snd = (preorders nodes).map (·.own.toNat)
  | [] => rfl
  | node :: rest => by
      rw [siblingWeights, preorders, List.map_append, List.map_append, map_snd_weights,
        map_snd_siblingWeights]

end

mutual

/-- A walk over a node records the weights of the nodes, if their own ticks can be told. -/
theorem recordStacks_eq (frames : List String) (tally : StackTally) :
    ∀ node : ProfileNode, (∀ inner ∈ node.preorder, inner.ownTicks = .ok inner.own) →
      recordStacks frames tally node = tally.recordAll Count.add (weights frames node)
  | ⟨stats, children⟩, owns => by
      rw [preorder] at owns
      rw [recordStacks, owns _ (List.mem_cons_self ..), weights]
      refine bind_congr (x := tally.record Count.add _ _) fun next => ?_
      exact recordSiblings_eq _ next children fun inner member => owns inner (.tail _ member)

theorem recordSiblings_eq (frames : List String) (tally : StackTally) :
    ∀ nodes : List ProfileNode, (∀ inner ∈ preorders nodes, inner.ownTicks = .ok inner.own) →
      recordSiblings frames tally nodes = tally.recordAll Count.add (siblingWeights frames nodes)
  | [], _ => by
      rw [recordSiblings, siblingWeights]
      rfl
  | node :: rest, owns => by
      rw [preorders] at owns
      rw [recordSiblings, siblingWeights, Tally.recordAll_append,
        recordStacks_eq frames tally node fun inner member =>
          owns inner (List.mem_append_left _ member)]
      refine bind_congr fun next => ?_
      exact recordSiblings_eq frames next rest fun inner member =>
        owns inner (List.mem_append_right _ member)

end

mutual

/-- The own ticks of a node and of everything below it can be told if the node is recorded. -/
theorem owns_of_recordStacks {frames : List String} {tally next : StackTally} :
    ∀ node : ProfileNode, recordStacks frames tally node = .ok next →
      ∀ inner ∈ node.preorder, inner.ownTicks = .ok inner.own
  | ⟨stats, children⟩, recorded => by
      rw [recordStacks] at recorded
      obtain ⟨own, told, recorded⟩ := Outcome.bind_eq_ok.mp recorded
      obtain ⟨middle, -, below⟩ := Outcome.bind_eq_ok.mp recorded
      rw [preorder, List.forall_mem_cons]
      exact ⟨own_of_ownTicks told ▸ told, owns_of_recordSiblings children below⟩

theorem owns_of_recordSiblings {frames : List String} {tally next : StackTally} :
    ∀ nodes : List ProfileNode, recordSiblings frames tally nodes = .ok next →
      ∀ inner ∈ preorders nodes, inner.ownTicks = .ok inner.own
  | [], _ => by
      rw [preorders]
      intro inner member
      cases member
  | node :: rest, recorded => by
      rw [recordSiblings] at recorded
      obtain ⟨middle, first, later⟩ := Outcome.bind_eq_ok.mp recorded
      rw [preorders, List.forall_mem_append]
      exact ⟨owns_of_recordStacks node first, owns_of_recordSiblings rest later⟩

end

/-- Stacks of a tally of weights, heaviest first. -/
def rankedStacks (tally : StackTally) : List FoldedStack :=
  Ranked.sort FoldedStack.weight FoldedStack.stack
    (tally.map fun (stack, weight) => ⟨stack, weight⟩)

/-- Stacks are folded exactly if the own ticks of all nodes can be told and their weights are
    recorded. -/
theorem foldedStacks_eq_ok {root : ProfileNode} {folded : List FoldedStack} :
    root.foldedStacks = .ok folded ↔
      (∀ node ∈ preorders root.children, node.ownTicks = .ok node.own) ∧
      ∃ tally, Tally.recordAll Count.add [] (siblingWeights [] root.children) = .ok tally ∧
        folded = rankedStacks tally := by
  constructor
  · intro done
    obtain ⟨tally, recorded, ranked⟩ := Outcome.bind_eq_ok.mp done
    have owns := owns_of_recordSiblings root.children recorded
    rw [recordSiblings_eq [] [] root.children owns] at recorded
    cases ranked
    exact ⟨owns, tally, recorded, rfl⟩
  · rintro ⟨owns, tally, recorded, rfl⟩
    rw [← recordSiblings_eq [] [] root.children owns] at recorded
    exact Outcome.bind_eq_ok.mpr ⟨tally, recorded, rfl⟩

section Recorded

variable {root : ProfileNode} {tally tally' : StackTally} {values values' : List (String × Count)}

/-- No stack has two entries in the tally. -/
theorem nodup_stacks (recorded : Tally.recordAll Count.add [] values = .ok tally) :
    ((tally.map fun (stack, weight) => FoldedStack.mk stack weight).map FoldedStack.stack).Nodup := by
  rw [List.map_map]
  exact Tally.nodup_recordAll (by simp) recorded

/-- The stacks do not depend on the order in which the weights were recorded. -/
theorem rankedStacks_eq (same : values'.Perm values)
    (recorded : Tally.recordAll Count.add [] values = .ok tally)
    (recorded' : Tally.recordAll Count.add [] values' = .ok tally') :
    rankedStacks tally' = rankedStacks tally :=
  Ranked.sort_eq_of_perm _ ((Tally.perm_recordAll same recorded recorded').map _)
    (nodup_stacks recorded)

theorem sum_rankedStacks (recorded : Tally.recordAll Count.add [] values = .ok tally) :
    ((rankedStacks tally).map (·.weight)).sum = (values.map Prod.snd).sum := by
  have weighed := Tally.sum_recordAll recorded
  rw [rankedStacks, ((Ranked.sort_perm _ _ _).map _).sum_eq, List.map_map]
  simpa [Function.comp_def] using weighed

/-- Own ticks that can be told are no greater than a weight can be. -/
theorem weights_lt (owns : ∀ node ∈ preorders root.children, node.ownTicks = .ok node.own) :
    ∀ entry ∈ siblingWeights [] root.children, entry.2 < Count.bound := by
  intro entry member
  have weight := List.mem_map_of_mem (f := Prod.snd) member
  rw [map_snd_siblingWeights] at weight
  obtain ⟨inner, there, same⟩ := List.mem_map.mp weight
  obtain ⟨_, -, taken⟩ := Outcome.bind_eq_ok.mp (owns inner there)
  have inside := (Ticks.sub_eq_ok.mp taken).2.2
  have light : inner.own.toNat < Count.bound := by
    rw [Ticks.bound] at inside
    rw [Count.bound]
    omega
  exact same ▸ light

/-- The weights of all stacks make up the weights of all nodes. -/
theorem exists_foldedStacks
    (owns : ∀ node ∈ preorders root.children, node.ownTicks = .ok node.own)
    (fits : ((preorders root.children).map (·.own.toNat)).sum < Count.bound) :
    ∃ folded, root.foldedStacks = .ok folded ∧
      (folded.map (·.weight)).sum = ((preorders root.children).map (·.own.toNat)).sum := by
  rw [← map_snd_siblingWeights []] at fits ⊢
  obtain ⟨tally, recorded⟩ : ∃ tally,
      Tally.recordAll Count.add [] (siblingWeights [] root.children) = .ok tally :=
    Tally.exists_recordAll_count fun key => (Tally.total_le_sum _).trans_lt fits
  exact ⟨_, foldedStacks_eq_ok.mpr ⟨owns, tally, recorded, rfl⟩, sum_rankedStacks recorded⟩

end Recorded

end ProfileNode
end CilProfiler

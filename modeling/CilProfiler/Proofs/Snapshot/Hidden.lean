import CilProfiler.Proofs.Snapshot.Conservation
import Mathlib.Algebra.BigOperators.Group.Finset.Piecewise
import Mathlib.Algebra.BigOperators.Pi

/-! # What snapshots miss

A node is shown if it has completed a call and all of its callers have. A completed call whose
caller still goes on may be hidden that way, for as long as the caller has no other completed call
to show; calls end in reverse order, so nothing else can hide one. Once the tree is idle, every call
that was completed since the last clear is in both snapshots.
-/

namespace CilProfiler
namespace CallTree

/-- The call of the node goes on: it is the active one or one of its callers. -/
def IsActive (tree : CallTree) (id : NodeIndex) : Prop :=
  Relation.ReflTransGen tree.CalledBy tree.cursor id

/-- A caller of a completed call has completed one itself, or it goes on. -/
def Accounted (tree : CallTree) : Prop :=
  ∀ id caller, 0 < tree.callsAt id → tree.CalledBy id caller → caller ≠ root →
    0 < tree.callsAt caller ∨ tree.IsActive caller

variable {tree next : CallTree} {id child above : NodeIndex} {handle : Handle}
  {method : MethodName} {elapsed : Ticks}

theorem Linked.isActive_enter (linked : tree.Linked) (active : tree.IsActive id) :
    (tree.enter handle method).IsActive id := by
  refine .head (linked.calledBy_cursor_enter handle method) ?_
  refine Relation.ReflTransGen.mono (fun callee caller called => ?_) _ _ active
  exact (linked.calledBy_enter handle method called.inside).mpr called

theorem Accounted.enter (accounted : tree.Accounted) (linked : tree.Linked) :
    (tree.enter handle method).Accounted := by
  intro id caller completed called below
  have same := linked.counters_enter handle method
  rw [callsAt, same] at completed
  obtain ⟨node, found⟩ := exists_of_callsAt completed
  rcases accounted id caller completed
    ((linked.calledBy_enter handle method (node?_lt found)).mp called) below with counted | active
  · exact .inl (by rwa [callsAt, same])
  · exact .inr (linked.isActive_enter active)

/-- The finished call counts from now on. All callers but the finished one go on. -/
theorem Accounted.leave (accounted : tree.Accounted) (linked : tree.Linked)
    (left : tree.leave handle elapsed = .ok next) : next.Accounted := by
  intro id caller completed called below
  have same : ∀ id caller, next.CalledBy id caller ↔ tree.CalledBy id caller :=
    fun id _ => calledBy_congr (map_clear_leave left id)
  have back := linked.calledBy_cursor_leave left
  rw [same] at called
  by_cases finished : id = tree.cursor
  · subst finished
    rw [called.unique back]
    exact .inr .refl
  · rw [callsAt_leave left, if_neg finished, Nat.add_zero] at completed
    rcases accounted id caller completed called below with counted | active
    · rw [callsAt_leave left]
      exact .inl (Nat.add_pos_left counted _)
    · rcases Relation.ReflTransGen.cases_head active with rfl | ⟨next', first, rest⟩
      · rw [callsAt_leave left, if_pos rfl]
        exact .inl (Nat.succ_pos _)
      · cases first.unique back
        exact .inr (Relation.ReflTransGen.mono (fun id caller => (same id caller).mpr) _ _ rest)

theorem accounted_of_silent (silent : ∀ id, tree.callsAt id = 0) : tree.Accounted := by
  intro id caller completed
  rw [silent] at completed
  exact absurd completed (Nat.lt_irrefl 0)

theorem Reachable.accounted (reachable : tree.Reachable) : tree.Accounted := by
  refine Reachable.induction (fun reading => accounted_of_silent fun id => ?_)
    (fun tree handle method linked accounted => accounted.enter linked)
    (fun tree next handle elapsed linked left accounted => accounted.leave linked left)
    (fun tree reading linked accounted => accounted_of_silent fun id => ?_) reachable
  · rcases id with ⟨_ | i⟩
    · rfl
    · simp [callsAt, counters, CallTree.empty, node?]
  · rw [callsAt, counters_clear]

namespace Linked

/-- The paths below a node are those from which visible nodes lead up to it. -/
theorem mem_below (linked : tree.Linked) : child ∈ tree.below id ↔
    Relation.TransGen (fun id caller => tree.isVisible id ∧ tree.CalledBy id caller) child id := by
  constructor
  · intro member
    induction id using linked.downward_induction with
    | step id ih =>
        rw [linked.below_eq, List.mem_flatMap] at member
        obtain ⟨callee, visible, member⟩ := member
        have link := linked.mem_visibleChildren.mp visible
        rcases List.mem_append.mp member with further | itself
        · exact (ih callee visible further).tail link
        · cases List.mem_singleton.mp itself
          exact .single link
  · intro leads
    induction leads with
    | single link =>
        rw [linked.below_eq, List.mem_flatMap]
        exact ⟨child, linked.mem_visibleChildren.mpr link, List.mem_append_right _ (.head _)⟩
    | tail _ link ih =>
        rw [linked.below_eq, List.mem_flatMap]
        exact ⟨_, linked.mem_visibleChildren.mpr link, List.mem_append_left _ ih⟩

theorem leads_of_mem_below (linked : tree.Linked) (member : child ∈ tree.below id) :
    Relation.TransGen tree.CalledBy child id :=
  Relation.TransGen.mono (fun _ _ link => link.2) _ _ (linked.mem_below.mp member)

theorem le_of_leads (linked : tree.Linked) (leads : Relation.ReflTransGen tree.CalledBy id above) :
    above.index ≤ id.index := by
  induction leads with
  | refl => exact Nat.le_refl _
  | tail _ called ih => exact (Nat.le_of_lt (linked.lt_of_calledBy called)).trans ih

theorem lt_of_leads (linked : tree.Linked) (leads : Relation.TransGen tree.CalledBy id above) :
    above.index < id.index := by
  obtain ⟨caller, called, rest⟩ := Relation.TransGen.head'_iff.mp leads
  exact (linked.le_of_leads rest).trans_lt (linked.lt_of_calledBy called)

/-- A node leads to one callee of a node at most. -/
theorem callee_unique (linked : tree.Linked) {first second : NodeIndex}
    (left : Relation.ReflTransGen tree.CalledBy child first) (called : tree.CalledBy first id)
    (right : Relation.ReflTransGen tree.CalledBy child second)
    (called' : tree.CalledBy second id) : first = second := by
  have between : ∀ {first second : NodeIndex}, tree.CalledBy first id → tree.CalledBy second id →
      Relation.ReflTransGen tree.CalledBy first second → first = second := by
    intro first second called called' leads
    rcases Relation.ReflTransGen.cases_head leads with same | ⟨caller, called'', rest⟩
    · exact same
    · cases called.unique called''
      exact absurd (linked.le_of_leads rest) (Nat.not_le.mpr (linked.lt_of_calledBy called'))
  have unique : Relator.RightUnique tree.CalledBy := fun _ _ _ => CalledBy.unique
  rcases Relation.ReflTransGen.total_of_right_unique unique left right with leads | leads
  · exact between called called' leads
  · exact (between called' called leads).symm

theorem nodup_visibleChildren (linked : tree.Linked) (id : NodeIndex) :
    (tree.visibleChildren id).Nodup := by
  refine List.Nodup.filter _ (List.Nodup.map_on ?_ (linked.placed_table id).nodup_entries.of_map)
  rintro ⟨handle, child⟩ entry ⟨handle', _⟩ entry' rfl
  obtain ⟨node, found, -, called⟩ := linked.mem_entries.mp entry
  obtain ⟨_, found', -, called'⟩ := linked.mem_entries.mp entry'
  cases found.symm.trans found'
  cases called.symm.trans called'
  rfl

theorem nodup_below (linked : tree.Linked) (id : NodeIndex) : (tree.below id).Nodup := by
  induction id using linked.downward_induction with
  | step id ih =>
      rw [linked.below_eq, List.nodup_flatMap]
      have leads : ∀ {x child : NodeIndex}, x ∈ tree.below child ++ [child] →
          Relation.ReflTransGen tree.CalledBy x child := by
        intro x child member
        rcases List.mem_append.mp member with further | itself
        · exact (linked.leads_of_mem_below further).to_reflTransGen
        · cases List.mem_singleton.mp itself
          exact .refl
      constructor
      · intro child visible
        rw [← List.concat_eq_append]
        refine (ih child visible).concat fun member => ?_
        exact Nat.lt_irrefl _ (linked.lt_of_leads (linked.leads_of_mem_below member))
      · refine (linked.nodup_visibleChildren id).pairwise_of_forall_ne ?_
        intro first visible second visible' different x member member'
        exact different (linked.callee_unique (leads member)
          (linked.mem_visibleChildren.mp visible).2 (leads member')
          (linked.mem_visibleChildren.mp visible').2)

end Linked

def arena (tree : CallTree) : Finset NodeIndex :=
  (Finset.range tree.nodes.size).image NodeIndex.mk

theorem mem_arena : id ∈ tree.arena ↔ id.index < tree.nodes.size := by
  cases id
  simp [arena]

/-- Calls and ticks that the nodes have counted, taken together. -/
def counted (tree : CallTree) : Count × Ticks :=
  ∑ id ∈ tree.arena, tree.counters id

theorem counters_of_notMem_arena (outside : id ∉ tree.arena) : tree.counters id = 0 :=
  counters_of_outside (mem_arena.not.mp outside)

theorem size_le_enter (tree : CallTree) (handle : Handle) (method : MethodName) :
    tree.nodes.size ≤ (tree.enter handle method).nodes.size := by
  unfold enter
  split
  · exact Nat.le_refl _
  · simp only
    split <;> simp

theorem Linked.counted_enter (linked : tree.Linked) (handle : Handle) (method : MethodName) :
    (tree.enter handle method).counted = tree.counted := by
  have grown : tree.arena ⊆ (tree.enter handle method).arena := by
    intro id inside
    rw [mem_arena] at inside ⊢
    exact inside.trans_le (size_le_enter tree handle method)
  rw [counted, linked.counters_enter]
  exact (Finset.sum_subset grown fun id _ outside => counters_of_notMem_arena outside).symm

theorem counted_leave (linked : tree.Linked) (left : tree.leave handle elapsed = .ok next) :
    next.counted = tree.counted + (1, elapsed) := by
  have same : next.arena = tree.arena := by
    obtain ⟨active, -, -, -, -, rfl⟩ := leave_eq_ok left
    rw [arena, Array.size_setIfInBounds, arena]
  have each (id : NodeIndex) : next.counters id =
      tree.counters id + if id = tree.cursor then ((1, elapsed) : Count × Ticks) else 0 := by
    rw [counters_leave left]
    split
    · rfl
    · exact (add_zero _).symm
  rw [counted, same, Finset.sum_congr rfl fun id _ => each id, Finset.sum_add_distrib,
    Finset.sum_ite_eq' tree.arena tree.cursor, if_pos (mem_arena.mpr linked.cursor), counted]

theorem counted_clear (tree : CallTree) (reading : Ticks) : (tree.clear reading).counted = 0 :=
  Finset.sum_eq_zero fun id _ => counters_clear tree reading id

end CallTree

/-- Recorded finishes since the last clear, after one answer more. -/
def TraceAnswer.count (finished : Nat) : TraceAnswer → Nat
  | .entered _ | .refused _ => finished
  | .left _ => finished + 1
  | .cleared => 0

namespace CallTree

variable {tree : CallTree} {id : NodeIndex} {reading elapsed : Ticks} {entries : List CallStats}

/-- Method of a node, by its generic definition. -/
def definition? (tree : CallTree) (id : NodeIndex) : Option MethodName :=
  ((tree.node? id).bind (·.method)).map (·.definition)

theorem definition_shown (tree : CallTree) (elapsed : Ticks) (id : NodeIndex) :
    (tree.shown elapsed id).stats.method.map (·.definition) = tree.definition? id := by
  rw [shown, definition?]
  cases tree.node? id <;> rfl

/-- What is recorded for paths under the chosen definitions. -/
theorem Linked.total_ownRecords {M : Type} [AddCommMonoid M] (linked : tree.Linked)
    (elapsed : Ticks) (size : OwnTotal → M) (chosen : MethodName → Bool) (ids : List NodeIndex) :
    Tally.total size chosen (tree.ownRecords elapsed ids) =
      ((ids.filter fun id => (tree.definition? id).any chosen).map
        fun id => size ⟨tree.callsAt id, tree.ownAt id⟩).sum := by
  rw [ownRecords, ProfileNode.total_ownRecords_of_chosen, List.filter_map, List.map_map]
  simp only [Function.comp_def, definition_shown, calls_shown, linked.own_shown]

theorem Linked.isSome_definition? (linked : tree.Linked) (member : id ∈ tree.below CallTree.root) :
    (tree.definition? id).isSome := by
  obtain ⟨node, method, found, named⟩ := linked.method_of_below member
  rw [definition?, found, Option.bind_some, named]
  rfl

end CallTree
end CilProfiler

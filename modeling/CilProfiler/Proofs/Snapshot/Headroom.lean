import CilProfiler.Proofs.Snapshot.Hidden

/-! # Headroom

Own ticks can be negative, and they are added up in an order that depends on the slots of the child
tables and on the order in which a tally holds its methods. So it is not enough that totals fit: the
sums over any part of the shown paths have to. If they do, every number of every snapshot is
computed, in whatever order it is added up.
-/

namespace CilProfiler

namespace OwnTotal

theorem additive_both : Tally.Additive add fun total => (total.calls, total.ticks) := by
  intro first second sum added
  exact Prod.ext (additive_calls first second sum added) (additive_ticks first second sum added)

theorem checked_both : Tally.Checked add (fun total => (total.calls, total.ticks))
    fun total : Count × Ticks => total.1 < Count.bound ∧ Ticks.InRange total.2 := by
  intro first second
  constructor
  · rintro ⟨sum, added⟩
    obtain ⟨calls, counted, added⟩ := Outcome.bind_eq_ok.mp added
    obtain ⟨ticks, summed, -⟩ := Outcome.bind_eq_ok.mp added
    obtain ⟨rfl, few⟩ := Count.add_eq_ok.mp counted
    obtain ⟨rfl, inside⟩ := Ticks.add_eq_ok.mp summed
    exact ⟨few, inside⟩
  · rintro ⟨few, inside⟩
    exact ⟨_, Outcome.bind_eq_ok.mpr ⟨_, Count.add_eq_ok.mpr ⟨rfl, few⟩,
      Outcome.bind_eq_ok.mpr ⟨_, Ticks.add_eq_ok.mpr ⟨rfl, inside⟩, rfl⟩⟩⟩

end OwnTotal

theorem sum_map_pair {α : Type} (f : α → Nat) (g : α → Int) (list : List α) :
    (list.map fun item => (f item, g item)).sum = ((list.map f).sum, (list.map g).sum) := by
  induction list with
  | nil => rfl
  | cons item rest ih => simp [ih]

/-- Less is found in a part of a list, unless something is negative. -/
theorem sum_map_le_of_subset {α M : Type} [AddCommMonoid M] [PartialOrder M] [IsOrderedAddMonoid M]
    {f : α → M} {part list : List α} (nonneg : ∀ item ∈ list, 0 ≤ f item) (distinct : part.Nodup)
    (within : part ⊆ list) : (part.map f).sum ≤ (list.map f).sum := by
  obtain ⟨front, perm, sublist⟩ := distinct.subperm within
  rw [← (perm.map f).sum_eq]
  refine (sublist.map f).sum_le_sum fun value member => ?_
  obtain ⟨item, there, rfl⟩ := List.mem_map.mp member
  exact nonneg item there

namespace CallTree

/-- The sums over any part of the shown paths fit. -/
structure Headroom (tree : CallTree) : Prop where
  calls : ((tree.below root).map tree.callsAt).sum < Count.bound
  own : ∀ ids, ids.Nodup → ids ⊆ tree.below root → Ticks.InRange (ids.map tree.ownAt).sum
  below : ∀ id part, part.Nodup → part ⊆ tree.visibleChildren id →
    Ticks.InRange (part.map tree.ticksAt).sum ∧
      Ticks.InRange (tree.ticksAt id - (part.map tree.ticksAt).sum)

variable {tree : CallTree} {id : NodeIndex} {order : List NodeIndex} {reading elapsed : Ticks}
  {tally shuffled : MethodTally}

theorem sum_ticksAt_nonneg (nonneg : ∀ id, 0 ≤ tree.ticksAt id) (ids : List NodeIndex) :
    0 ≤ (ids.map tree.ticksAt).sum := by
  refine List.sum_nonneg fun ticks member => ?_
  obtain ⟨id, -, rfl⟩ := List.mem_map.mp member
  exact nonneg id

namespace Linked

/-- If the own ticks of all paths can be told, a walk records what is shown for them. -/
theorem foldlM_recordOwn (linked : tree.Linked) (elapsed : Ticks)
    (told : ∀ id, ((tree.visibleChildren id).map tree.ticksAt).foldlM Ticks.sub (tree.ticksAt id) =
      .ok (tree.ownAt id)) (id : NodeIndex) (tally : MethodTally) :
    (tree.visibleChildren id).foldlM (fun tally child => tree.recordOwn child tally) tally =
      tally.recordAll OwnTotal.add (tree.ownRecords elapsed (tree.below id)) := by
  induction id using linked.downward_induction generalizing tally with
  | step id ih =>
      rw [linked.below_eq, ownRecords_flatMap, Tally.recordAll_flatMap]
      refine Outcome.foldlM_congr (fun child visible tally => ?_) tally
      obtain ⟨callee, there, -⟩ := node?_of_visible visible
      have own := told child
      rw [List.foldlM_map, ticksAt, counters_of_node? there] at own
      have walk := Outcome.foldlM_pair_of_ok (fun tally child => tree.recordOwn child tally)
        (fun own child => Ticks.sub own (tree.ticksAt child)) tally own
      rw [linked.recordOwn_eq there, ownRecords_append, Tally.recordAll_append, ← ih child visible,
        ownRecords_singleton there, linked.own_shown]
      refine (congrArg (· >>= _) walk).trans ?_
      cases (tree.visibleChildren child).foldlM (fun tally child => tree.recordOwn child tally)
        tally with
      | error cause => rfl
      | ok next =>
          cases callee.method with
          | none => rfl
          | some method => exact (bind_pure _).symm

/-- All paths below a node make up what its callees have counted. -/
theorem sum_own_below (linked : tree.Linked) (id : NodeIndex) :
    ((tree.below id).map tree.ownAt).sum = ((tree.visibleChildren id).map tree.ticksAt).sum := by
  have shown := ((linked.preorders_perm 0 id).map ProfileNode.own).sum_eq
  rw [ProfileNode.sum_own_preorders, List.map_map,
    ((linked.children_perm 0 id).map (·.stats.ticks)).sum_eq, List.map_map] at shown
  simpa only [Function.comp_def, linked.own_shown, ticks_shown] using shown.symm

/-- What all methods are listed with is what the outermost calls have taken. -/
theorem sum_recordAll (linked : tree.Linked) (perm : order.Perm (tree.below CallTree.root))
    (recorded : Tally.recordAll OwnTotal.add [] (tree.ownRecords elapsed order) = .ok tally) :
    (tally.map (·.2.ticks)).sum = ((tree.visibleChildren CallTree.root).map tree.ticksAt).sum := by
  have all : order.filter (fun id => (tree.definition? id).any fun _ => true) = order := by
    rw [List.filter_eq_self]
    intro id member
    rw [Option.any_true]
    exact linked.isSome_definition? (perm.subset member)
  have totals : Tally.total OwnTotal.ticks (fun _ => true) tally = _ :=
    Tally.total_recordAll OwnTotal.additive_ticks recorded
  rw [Tally.total_nil, zero_add, linked.total_ownRecords, all, (perm.map _).sum_eq] at totals
  rw [← linked.sum_own_below CallTree.root, ← totals]
  simp [Tally.total]

end Linked

namespace Headroom

variable (room : tree.Headroom)
include room

theorem front_ticks (linked : tree.Linked) (perm : order.Perm (tree.visibleChildren id))
    {early : List Ticks} (before : early <+: order.map tree.ticksAt) :
    Ticks.InRange early.sum ∧ Ticks.InRange (tree.ticksAt id - early.sum) := by
  obtain ⟨part, front, rfl⟩ := List.prefix_map_iff.mp before
  have distinct := (perm.nodup_iff.mpr (linked.nodup_visibleChildren id)).sublist front.sublist
  exact room.below id part distinct fun child member => perm.subset (front.subset member)

/-- Siblings can be added up in any order. -/
theorem sum_ticks (linked : tree.Linked) (perm : order.Perm (tree.visibleChildren id)) :
    Ticks.sum (order.map tree.ticksAt) = .ok (order.map tree.ticksAt).sum :=
  Ticks.sum_of_room fun _ before => (room.front_ticks linked perm before).1

/-- And they can be taken off their caller in any order. -/
theorem sub_ticks (linked : tree.Linked) (perm : order.Perm (tree.visibleChildren id)) :
    (order.map tree.ticksAt).foldlM Ticks.sub (tree.ticksAt id) = .ok (tree.ownAt id) := by
  rw [ownAt, ← (perm.map tree.ticksAt).sum_eq]
  exact Ticks.foldlM_sub_of_room fun _ before => (room.front_ticks linked perm before).2

theorem ownTicks_shown (linked : tree.Linked) (elapsed : Ticks) (id : NodeIndex) :
    (tree.shown elapsed id).ownTicks = .ok (tree.shown elapsed id).own := by
  obtain ⟨order, perm, found⟩ := linked.exists_order elapsed id
  have children : (tree.shown elapsed id).children.map (·.stats.ticks) =
      order.map tree.ticksAt := by
    rw [shown, found, List.map_map]
    exact List.map_congr_left fun child _ => ticks_shown tree elapsed child
  rw [ProfileNode.ownTicks, ProfileNode.own, children, room.sum_ticks linked perm, ticks_shown]
  exact Ticks.sub_eq_ok.mpr ⟨rfl, (room.front_ticks linked perm List.prefix_rfl).2⟩

theorem ownTicks_preorders (linked : tree.Linked) (elapsed : Ticks) :
    ∀ node ∈ ProfileNode.preorders (tree.hierarchyBelow elapsed CallTree.root),
      node.ownTicks = .ok node.own := by
  intro node member
  obtain ⟨id, -, rfl⟩ := List.mem_map.mp ((linked.preorders_perm elapsed _).mem_iff.mp member)
  exact room.ownTicks_shown linked elapsed id

/-- Own ticks can be told of every node of a snapshot, the root among them. -/
theorem ownTicks_preorder (linked : tree.Linked) {root : ProfileNode}
    (told : tree.hierarchy reading = .ok root) :
    ∀ node ∈ root.preorder, ∃ own, node.ownTicks = .ok own := by
  have children := children_of_hierarchy told
  have itself : root.ownTicks =
      (tree.shown (reading - tree.since) CallTree.root).ownTicks := by
    rw [ProfileNode.ownTicks, ProfileNode.ownTicks, children, ticks_of_hierarchy told, ticks_shown,
      shown]
  rw [ProfileNode.preorder_eq, List.forall_mem_cons, children]
  exact ⟨⟨_, itself.trans (room.ownTicks_shown linked _ _)⟩,
    fun node member => ⟨_, room.ownTicks_preorders linked _ node member⟩⟩

theorem exists_foldedStacks (linked : tree.Linked) {root : ProfileNode}
    (children : root.children = tree.hierarchyBelow elapsed CallTree.root) :
    ∃ folded, root.foldedStacks = .ok folded := by
  have owns := room.ownTicks_preorders linked elapsed
  have weights : ((ProfileNode.preorders root.children).map (·.own.toNat)).sum < Count.bound := by
    have same := ((linked.preorders_perm elapsed CallTree.root).map (·.own.toNat)).sum_eq
    rw [List.map_map] at same
    simp only [Function.comp_def, linked.own_shown] at same
    have inside := (room.own ((tree.below CallTree.root).filter fun id => 0 ≤ tree.ownAt id)
      ((linked.nodup_below _).filter _) List.filter_sublist.subset).2
    rw [← Ticks.sum_toNat, Ticks.bound] at inside
    rw [children, same, Count.bound]
    omega
  rw [← children] at owns
  obtain ⟨folded, done, -⟩ := ProfileNode.exists_foldedStacks owns weights
  exact ⟨folded, done⟩

/-- The paths can be recorded in any order. -/
theorem exists_recordAll (linked : tree.Linked) (elapsed : Ticks)
    (perm : order.Perm (tree.below CallTree.root)) :
    ∃ tally, Tally.recordAll OwnTotal.add [] (tree.ownRecords elapsed order) = .ok tally := by
  refine Tally.exists_recordAll OwnTotal.checked_both OwnTotal.additive_both (by simp)
    fun early before key => ?_
  -- What has been recorded up to some point is what was recorded for a part of the paths.
  obtain ⟨nodes, front, rfl⟩ := List.sublist_filterMap_iff.mp before.sublist
  obtain ⟨ids, part, rfl⟩ := List.sublist_map_iff.mp front
  have recorded := linked.total_ownRecords elapsed (fun total => (total.calls, total.ticks))
    (· = key) ids
  rw [ownRecords] at recorded
  rw [Tally.total_nil, zero_add, recorded, sum_map_pair]
  have chosen := (List.filter_sublist (p := fun id => (tree.definition? id).any (· = key))).trans part
  constructor
  · refine lt_of_le_of_lt ?_ room.calls
    rw [← (perm.map tree.callsAt).sum_eq]
    exact (chosen.map _).sum_le_sum fun _ _ => Nat.zero_le _
  · exact room.own _ ((perm.nodup_iff.mpr (linked.nodup_below _)).sublist chosen)
      fun id member => perm.subset (chosen.subset member)

/-- Methods can be added up and listed in any order, if the time outside any call fits as well. -/
theorem exists_listed (linked : tree.Linked) (perm : order.Perm (tree.below CallTree.root))
    (recorded : Tally.recordAll OwnTotal.add [] (tree.ownRecords elapsed order) = .ok tally)
    (shuffle : shuffled.Perm tally)
    (outside : Ticks.InRange
      (elapsed - ((tree.visibleChildren CallTree.root).map tree.ticksAt).sum)) :
    ∃ entries, listed elapsed shuffled = .ok entries := by
  have distinct := (shuffle.map Prod.fst).nodup_iff.mpr (Tally.nodup_recordAll (by simp) recorded)
  have summed : Ticks.sum (shuffled.map (·.2.ticks)) = .ok (shuffled.map (·.2.ticks)).sum := by
    refine Ticks.sum_of_room fun early before => ?_
    -- The methods up to some point have the own ticks of a part of the paths.
    obtain ⟨front, part, rfl⟩ := List.prefix_map_iff.mp before
    have chosen : Tally.total OwnTotal.ticks (· ∈ front.map Prod.fst) shuffled = _ :=
      Tally.total_of_sublist distinct part.sublist
    rw [Tally.total_eq_of_perm shuffle, Tally.total_recordAll OwnTotal.additive_ticks recorded,
      Tally.total_nil, zero_add, linked.total_ownRecords] at chosen
    rw [← chosen]
    exact room.own _ (((perm.nodup_iff.mpr (linked.nodup_below _))).filter _)
      (List.Subset.trans List.filter_sublist.subset perm.subset)
  rw [← linked.sum_recordAll perm recorded, ← (shuffle.map _).sum_eq] at outside
  exact ⟨_, Outcome.bind_eq_ok.mpr ⟨_, summed,
    Outcome.bind_eq_ok.mpr ⟨_, Ticks.sub_eq_ok.mpr ⟨rfl, outside⟩, rfl⟩⟩⟩

theorem exists_methodTally (linked : tree.Linked) (elapsed : Ticks) :
    ∃ tally, tree.methodTally = .ok tally ∧ Tally.recordAll OwnTotal.add []
      (tree.ownRecords elapsed (tree.below CallTree.root)) = .ok tally := by
  obtain ⟨tally, recorded⟩ := room.exists_recordAll linked elapsed (.refl _)
  refine ⟨tally, ?_, recorded⟩
  rw [methodTally, ← recorded]
  exact linked.foldlM_recordOwn elapsed (fun id => room.sub_ticks linked (.refl _)) _ []

theorem exists_flatList (linked : tree.Linked) (inside : Ticks.InRange (reading - tree.since))
    (outside : Ticks.InRange (reading - tree.since -
      ((tree.visibleChildren CallTree.root).map tree.ticksAt).sum)) :
    ∃ entries, tree.flatList reading = .ok entries := by
  obtain ⟨tally, tallied, recorded⟩ := room.exists_methodTally linked (reading - tree.since)
  obtain ⟨entries, found⟩ := room.exists_listed linked (.refl _) recorded (.refl _) outside
  exact ⟨entries, (flatList_eq_listed inside tallied).trans found⟩

end Headroom
end CallTree
end CilProfiler

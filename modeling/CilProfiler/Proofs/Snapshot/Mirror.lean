import CilProfiler.Proofs.Snapshot.ByPath
import CilProfiler.Proofs.Snapshot.Hidden
import Mathlib.Data.Set.Function

/-! # The hierarchical snapshot as a mirror

The nodes of a hierarchical snapshot stand for the paths on which every call has completed: one node
for each such path, below the node of its caller, and no others. Siblings are sorted by their ticks.
The sort is stable, so that the slots of the caller's table decide between equal ticks, and with that
the place of every path in the snapshot is fixed.
-/

namespace CilProfiler

/-- Two items of a list without repetitions are in one order only. -/
theorem not_sublist_swap {α : Type} {list : List α} {a b : α} (nodup : list.Nodup)
    (early : [a, b].Sublist list) : ¬[b, a].Sublist list := by
  induction list with
  | nil => cases early
  | cons first rest ih =>
      obtain ⟨fresh, nodup⟩ := List.nodup_cons.mp nodup
      intro late
      cases early with
      | cons _ early =>
          cases late with
          | cons _ late => exact ih nodup early late
          | cons_cons _ late => exact fresh (early.subset (by simp))
      | cons_cons _ early =>
          cases late with
          | cons _ late => exact fresh (late.subset (by simp))
          | cons_cons _ late => exact fresh (late.subset (by simp))

/-- A sort keeps the order of the list between items that it could swap. -/
theorem pairwise_mergeSort_stable {α : Type} {first : α → α → Prop} {le : α → α → Bool}
    (trans : ∀ a b c, le a b → le b c → le a c) (total : ∀ a b, le a b || le b a) {list : List α}
    (nodup : list.Nodup) (ordered : list.Pairwise first) :
    (list.mergeSort le).Pairwise fun a b => le a b ∧ (le b a → first a b) := by
  have sorted := List.pairwise_mergeSort trans total list
  have perm := List.mergeSort_perm list le
  rw [List.pairwise_iff_forall_sublist] at sorted ordered ⊢
  intro a b early
  refine ⟨sorted early, fun equal => ordered ?_⟩
  have apart := not_sublist_swap (perm.nodup_iff.mpr nodup) early
  have member : a ∈ list := perm.mem_iff.mp (early.subset (by simp))
  have member' : b ∈ list := perm.mem_iff.mp (early.subset (by simp))
  obtain ⟨front, back, rfl⟩ := List.append_of_mem member
  rcases List.mem_append.mp member' with before | here
  · have swapped : [b, a].Sublist (front ++ a :: back) :=
      (List.singleton_sublist.mpr before).append (List.singleton_sublist.mpr (by simp))
    exact absurd (List.pair_sublist_mergeSort trans total equal swapped) apart
  · rcases List.mem_cons.mp here with rfl | behind
    · exact absurd early apart
    · exact ((List.singleton_sublist.mpr behind).cons_cons a).trans (List.sublist_append_right _ _)

namespace ProfileNode

/-- Node at a position below a node: which child to go to, from the top down. -/
def at? : ProfileNode → List Nat → Option ProfileNode
  | node, [] => some node
  | node, index :: rest => node.children[index]?.bind (·.at? rest)

variable {node other : ProfileNode}

theorem at?_concat (node : ProfileNode) (position : List Nat) (index : Nat) :
    node.at? (position ++ [index]) = (node.at? position).bind (·.children[index]?) := by
  induction position generalizing node with
  | nil => simp [at?]
  | cons first rest ih =>
      rw [List.cons_append, at?, at?]
      cases node.children[first]? with
      | none => rfl
      | some child => exact ih child

/-- What is below a node does not depend on what the node itself shows. -/
theorem at?_congr (same : node.children = other.children) {position : List Nat}
    (below : position ≠ []) : node.at? position = other.at? position := by
  cases position with
  | nil => exact absurd rfl below
  | cons first rest => rw [at?, at?, same]

mutual

theorem length_preorder : ∀ node : ProfileNode, node.preorder.length = node.size
  | ⟨stats, children⟩ => by
      rw [preorder, size, List.length_cons, length_preorders, Nat.add_comm]

theorem length_preorders : ∀ nodes : List ProfileNode, (preorders nodes).length = sizes nodes
  | [] => rfl
  | node :: rest => by
      rw [preorders, sizes, List.length_append, length_preorder, length_preorders]

end

theorem size_eq (node : ProfileNode) : node.size = 1 + (preorders node.children).length := by
  rw [← length_preorder, preorder_eq, List.length_cons, Nat.add_comm]

end ProfileNode

open PathMachine

namespace CallTree

variable {tree : CallTree} {machine : PathMachine} {handle first second : Handle}
  {path path' callers : CallPath} {elapsed reading : Ticks}

/-- Every call on the path has completed since the last clear. -/
def Visible (tree : CallTree) (path : CallPath) : Prop :=
  ∀ callers, callers <:+ path → callers ≠ [] →
    ∃ id node, tree.PathOf id callers ∧ tree.node? id = some node ∧ 0 < node.calls

theorem visible_nil (tree : CallTree) : tree.Visible [] := by
  intro callers suffix below
  exact absurd (List.suffix_nil.mp suffix) below

/-- Callees of a path in the order in which the snapshot shows them. -/
def shownCallees (tree : CallTree) (machine : PathMachine) (path : CallPath) : List Handle :=
  (tree.visibleCallees machine path).mergeSort fun a b =>
    tree.ticksAt (machine.nodeOf (b :: path)) ≤ tree.ticksAt (machine.nodeOf (a :: path))

/-- Position of a path in the snapshot. -/
def locate (tree : CallTree) (machine : PathMachine) : CallPath → List Nat
  | [] => []
  | handle :: callers =>
      locate tree machine callers ++ [(tree.shownCallees machine callers).idxOf handle]

namespace Recalls

variable (recalls : tree.Recalls machine)
include recalls

theorem exists_completed_iff :
    (∃ id node, tree.PathOf id path ∧ tree.node? id = some node ∧ 0 < node.calls) ↔
      0 < machine.callsOf path := by
  constructor
  · rintro ⟨id, node, leads, found, counted⟩
    obtain ⟨known, rfl⟩ := recalls.nodeOf_of_pathOf leads
    rwa [← recalls.callsAt_nodeOf known, callsAt, counters_of_node? found]
  · intro counted
    have known := recalls.formed.known_of_callsOf counted
    obtain ⟨node, found, -⟩ := recalls.node known
    rw [← recalls.callsAt_nodeOf known, callsAt, counters_of_node? found] at counted
    exact ⟨_, node, recalls.pathOf_nodeOf known, found, counted⟩

theorem visible_cons : tree.Visible (handle :: path) ↔
    0 < machine.callsOf (handle :: path) ∧ tree.Visible path := by
  constructor
  · intro visible
    refine ⟨recalls.exists_completed_iff.mp ?_, fun callers suffix => ?_⟩
    · exact visible _ (List.suffix_refl _) (List.cons_ne_nil _ _)
    · exact visible callers (suffix.trans (List.suffix_cons handle path))
  · rintro ⟨counted, visible⟩ callers suffix below
    rcases List.suffix_cons_iff.mp suffix with rfl | suffix
    · exact recalls.exists_completed_iff.mpr counted
    · exact visible callers suffix below

theorem known_of_visible (visible : tree.Visible path) : path ∈ machine.known := by
  cases path with
  | nil => exact List.mem_cons_self ..
  | cons handle callers =>
      exact recalls.formed.known_of_callsOf (recalls.visible_cons.mp visible).1

theorem children_eq (known : path ∈ machine.known) : (tree.shownAt machine elapsed path).children =
    (tree.shownCallees machine path).map fun handle =>
      tree.shownAt machine elapsed (handle :: path) := by
  rw [recalls.children_shownAt known, sortSiblings_map]
  simp only [shownAt, ticks_shown, shownCallees]

theorem mem_shownCallees (visible : tree.Visible path) :
    handle ∈ tree.shownCallees machine path ↔ tree.Visible (handle :: path) := by
  rw [shownCallees, List.mem_mergeSort, recalls.mem_visibleCallees (recalls.known_of_visible visible),
    recalls.visible_cons]
  exact (and_iff_left visible).symm

theorem nodup_shownCallees (path : CallPath) : (tree.shownCallees machine path).Nodup :=
  (List.mergeSort_perm ..).nodup_iff.mpr (recalls.nodup_visibleCallees path)

theorem pairwise_visibleCallees (path : CallPath) : (tree.visibleCallees machine path).Pairwise
    fun a b => (tree.table (machine.nodeOf path)).slotIndex a <
      (tree.table (machine.nodeOf path)).slotIndex b := by
  refine List.Pairwise.filter _ (List.pairwise_map.mpr ?_)
  exact (recalls.linked.placed_table _).pairwise_entries

/-- Callees are shown by descending ticks, and by their slots where the ticks are equal. -/
theorem pairwise_shownCallees (path : CallPath) : (tree.shownCallees machine path).Pairwise fun a b =>
    tree.ticksAt (machine.nodeOf (b :: path)) < tree.ticksAt (machine.nodeOf (a :: path)) ∨
      tree.ticksAt (machine.nodeOf (a :: path)) = tree.ticksAt (machine.nodeOf (b :: path)) ∧
        (tree.table (machine.nodeOf path)).slotIndex a <
          (tree.table (machine.nodeOf path)).slotIndex b := by
  refine (pairwise_mergeSort_stable (fun a b c => ?_) (fun a b => ?_)
    (recalls.nodup_visibleCallees path) (recalls.pairwise_visibleCallees path)).imp ?_
  · simp only [decide_eq_true_eq]
    exact fun le le' => Int.le_trans le' le
  · simp only [Bool.or_eq_true, decide_eq_true_eq]
    exact Int.le_total _ _
  · rintro a b ⟨le, slots⟩
    simp only [decide_eq_true_eq] at le slots
    rcases Int.lt_or_eq_of_le le with less | equal
    · exact .inl less
    · exact .inr ⟨equal.symm, slots (Int.le_of_eq equal.symm)⟩

theorem at?_locate (visible : tree.Visible path) :
    (tree.shownAt machine elapsed []).at? (tree.locate machine path) =
      some (tree.shownAt machine elapsed path) := by
  induction path with
  | nil => rfl
  | cons handle callers ih =>
      have above := (recalls.visible_cons.mp visible).2
      rw [locate, ProfileNode.at?_concat, ih above, Option.bind_some,
        recalls.children_eq (recalls.known_of_visible above), List.getElem?_map,
        List.getElem?_idxOf ((recalls.mem_shownCallees above).mpr visible), Option.map_some]

/-- Every position in the snapshot is that of a visible path. -/
theorem exists_locate {position : List Nat}
    (inside : ((tree.shownAt machine elapsed []).at? position).isSome) :
    ∃ path, tree.Visible path ∧ tree.locate machine path = position := by
  induction position using List.reverseRecOn with
  | nil => exact ⟨[], tree.visible_nil, rfl⟩
  | append_singleton position index ih =>
      rw [ProfileNode.at?_concat, Option.isSome_bind] at inside
      obtain ⟨path, visible, rfl⟩ := ih (Option.isSome_of_any inside)
      rw [recalls.at?_locate visible, Option.any_some,
        recalls.children_eq (recalls.known_of_visible visible), List.getElem?_map,
        Option.isSome_map] at inside
      obtain ⟨handle, there⟩ := Option.isSome_iff_exists.mp inside
      obtain ⟨within, rfl⟩ := List.getElem?_eq_some_iff.mp there
      have member := List.getElem_mem within
      refine ⟨_, (recalls.mem_shownCallees visible).mp member, ?_⟩
      rw [locate, (recalls.nodup_shownCallees path).idxOf_getElem]

theorem locate_injOn : Set.InjOn (tree.locate machine) {path | tree.Visible path} := by
  intro path visible path' visible' same
  induction path generalizing path' with
  | nil =>
      cases path' with
      | nil => rfl
      | cons handle callers => simp [locate] at same
  | cons handle callers ih =>
      cases path' with
      | nil => simp [locate] at same
      | cons handle' callers' =>
          obtain ⟨above, last⟩ := List.append_inj' same rfl
          have shown := (recalls.visible_cons.mp visible).2
          obtain rfl := ih shown (recalls.visible_cons.mp visible').2 above
          have member := (recalls.mem_shownCallees shown).mpr visible
          rw [(List.idxOf_inj member).mp (List.singleton_injective last)]

theorem locate_bijOn : Set.BijOn (tree.locate machine) {path | tree.Visible path}
    {position | ((tree.shownAt machine elapsed []).at? position).isSome} := by
  refine ⟨fun path visible => ?_, recalls.locate_injOn, fun position inside => ?_⟩
  · rw [Set.mem_ofPred_eq, recalls.at?_locate visible]
    rfl
  · exact recalls.exists_locate inside

theorem calledBy_nodeOf (known : handle :: path ∈ machine.known) :
    path ∈ machine.known ∧ tree.CalledBy (machine.nodeOf (handle :: path)) (machine.nodeOf path) := by
  have leads := recalls.pathOf_nodeOf known
  generalize machine.nodeOf (handle :: path) = id at leads ⊢
  cases leads with
  | call found parent _ above =>
      obtain ⟨known', rfl⟩ := recalls.nodeOf_of_pathOf above
      exact ⟨known', _, found, parent⟩

/-- The snapshots walk over the visible paths. -/
theorem mem_below_iff (known : path ∈ machine.known) :
    machine.nodeOf path ∈ tree.below root ↔ path ≠ [] ∧ tree.Visible path := by
  have linked := recalls.linked
  induction path with
  | nil =>
      rw [machine.nodeOf_nil]
      refine iff_of_false (fun member => ?_) (fun shown => shown.1 rfl)
      exact Nat.lt_irrefl _ (linked.lt_of_leads (linked.leads_of_mem_below member))
  | cons handle callers ih =>
      obtain ⟨known', called⟩ := recalls.calledBy_nodeOf known
      have top : root = machine.nodeOf callers ↔ callers = [] := by
        rw [← machine.nodeOf_nil]
        constructor
        · exact fun same => (Formed.nodeOf_injective (List.mem_cons_self ..) same).symm
        · exact fun same => same ▸ rfl
      rw [linked.mem_below] at ih ⊢
      rw [recalls.visible_cons, Relation.TransGen.head'_iff]
      constructor
      · rintro ⟨caller, ⟨shown, called'⟩, rest⟩
        obtain rfl := called.unique called'
        refine ⟨List.cons_ne_nil _ _, (recalls.isVisible_nodeOf known).mp shown, ?_⟩
        rcases Relation.reflTransGen_iff_eq_or_transGen.mp rest with same | further
        · rw [top.mp same]
          exact tree.visible_nil
        · exact ((ih known').mp further).2
      · rintro ⟨-, counted, visible⟩
        refine ⟨_, ⟨(recalls.isVisible_nodeOf known).mpr counted, called⟩, ?_⟩
        rw [Relation.reflTransGen_iff_eq_or_transGen]
        by_cases first : callers = []
        · exact .inl (top.mpr first)
        · exact .inr ((ih known').mpr ⟨first, visible⟩)

theorem exists_paths : ∃ paths : List CallPath, paths.Nodup ∧
    (∀ path, path ∈ paths ↔ path ≠ [] ∧ tree.Visible path) ∧
      paths.length = (tree.below root).length := by
  let paths := machine.known.filter fun path => machine.nodeOf path ∈ tree.below root
  have members : ∀ path, path ∈ paths ↔ path ∈ machine.known ∧ machine.nodeOf path ∈ tree.below root := by
    intro path
    simp only [paths, List.mem_filter, decide_eq_true_eq]
  have nodup : paths.Nodup := recalls.formed.nodup.filter _
  refine ⟨paths, nodup, fun path => ?_, ?_⟩
  · rw [members]
    constructor
    · rintro ⟨known, member⟩
      exact (recalls.mem_below_iff known).mp member
    · rintro ⟨below, visible⟩
      have known := recalls.known_of_visible visible
      exact ⟨known, (recalls.mem_below_iff known).mpr ⟨below, visible⟩⟩
  · have distinct : (paths.map machine.nodeOf).Nodup :=
      List.Nodup.map_on (fun path member _ _ same =>
        Formed.nodeOf_injective ((members path).mp member).1 same) nodup
    have perm : (paths.map machine.nodeOf).Perm (tree.below root) := by
      refine (List.perm_ext_iff_of_nodup distinct (recalls.linked.nodup_below root)).mpr fun id => ?_
      rw [List.mem_map]
      constructor
      · rintro ⟨path, member, rfl⟩
        exact ((members path).mp member).2
      · intro member
        obtain ⟨node, _, found, -⟩ := recalls.linked.method_of_below member
        obtain ⟨path, known, rfl⟩ := recalls.exists_nodeOf (node?_lt found)
        exact ⟨path, (members path).mpr ⟨known, member⟩, rfl⟩
    rw [← perm.length_eq, List.length_map]

theorem size_snapshot {snapshot : ProfileNode} (shown : tree.hierarchy reading = .ok snapshot) :
    snapshot.size = 1 + (tree.below root).length := by
  rw [snapshot.size_eq, children_of_hierarchy shown,
    (recalls.linked.preorders_perm _ root).length_eq, List.length_map]

end Recalls

/-- The nodes of a snapshot are the visible paths, each in the place that a function gives. -/
structure Mirrors (tree : CallTree) (snapshot : ProfileNode) (locate : CallPath → List Nat) :
    Prop where
  places : Set.BijOn locate {path | tree.Visible path} {position | (snapshot.at? position).isSome}
  root : locate [] = []
  child : ∀ handle callers, tree.Visible (handle :: callers) →
    ∃ index, locate (handle :: callers) = locate callers ++ [index]
  shows : ∀ path id node, path ≠ [] → tree.Visible path → tree.PathOf id path →
    tree.node? id = some node → ∃ shown, snapshot.at? (locate path) = some shown ∧
      shown.stats.method = node.method ∧ shown.stats.calls = node.calls ∧
      shown.stats.ticks = node.ticks
  /-- Siblings are in descending order of ticks, then in the order of their caller's slots. -/
  order : ∀ callers id, tree.PathOf id callers → ∀ first second i j,
    tree.Visible (first :: callers) → tree.Visible (second :: callers) →
    locate (first :: callers) = locate callers ++ [i] →
    locate (second :: callers) = locate callers ++ [j] → i < j →
    ∀ shown shown', snapshot.at? (locate callers ++ [i]) = some shown →
      snapshot.at? (locate callers ++ [j]) = some shown' →
      shown'.stats.ticks < shown.stats.ticks ∨ shown.stats.ticks = shown'.stats.ticks ∧
        (tree.table id).slotIndex first < (tree.table id).slotIndex second

namespace Recalls

variable (recalls : tree.Recalls machine)
include recalls

theorem order_shown (visible : tree.Visible (first :: path)) (visible' : tree.Visible (second :: path))
    (before : (tree.shownCallees machine path).idxOf first <
      (tree.shownCallees machine path).idxOf second) :
    tree.ticksAt (machine.nodeOf (second :: path)) < tree.ticksAt (machine.nodeOf (first :: path)) ∨
      tree.ticksAt (machine.nodeOf (first :: path)) = tree.ticksAt (machine.nodeOf (second :: path)) ∧
        (tree.table (machine.nodeOf path)).slotIndex first <
          (tree.table (machine.nodeOf path)).slotIndex second := by
  have above := (recalls.visible_cons.mp visible).2
  have inside := List.idxOf_lt_length_of_mem ((recalls.mem_shownCallees above).mpr visible)
  have inside' := List.idxOf_lt_length_of_mem ((recalls.mem_shownCallees above).mpr visible')
  have pair := List.pairwise_iff_getElem.mp (recalls.pairwise_shownCallees path) _ _ inside inside'
    before
  rwa [List.getElem_idxOf, List.getElem_idxOf] at pair

theorem mirrors {snapshot : ProfileNode}
    (same : snapshot.children = (tree.shownAt machine elapsed []).children) :
    tree.Mirrors snapshot (tree.locate machine) := by
  have there : ∀ path, path ≠ [] → tree.Visible path →
      snapshot.at? (tree.locate machine path) = some (tree.shownAt machine elapsed path) := by
    intro path below visible
    rw [ProfileNode.at?_congr same, recalls.at?_locate visible]
    cases path with
    | nil => exact absurd rfl below
    | cons handle callers => simp [locate]
  have ends : ∀ {handle callers index}, tree.locate machine (handle :: callers) =
      tree.locate machine callers ++ [index] →
        (tree.shownCallees machine callers).idxOf handle = index := by
    intro handle callers index placed
    exact List.singleton_injective (List.append_cancel_left placed)
  refine ⟨?_, rfl, fun handle callers visible => ⟨_, rfl⟩, ?_, ?_⟩
  · have positions : {position | (snapshot.at? position).isSome} =
        {position | ((tree.shownAt machine elapsed []).at? position).isSome} := by
      ext position
      cases position with
      | nil => exact Iff.rfl
      | cons index rest =>
          rw [Set.mem_ofPred_eq, Set.mem_ofPred_eq,
            ProfileNode.at?_congr same (List.cons_ne_nil index rest)]
    rw [positions]
    exact recalls.locate_bijOn
  · intro path id node below visible leads found
    obtain ⟨known, rfl⟩ := recalls.nodeOf_of_pathOf leads
    refine ⟨_, there path below visible, ?_⟩
    rw [shownAt, stats_shown found]
    exact ⟨rfl, rfl, rfl⟩
  · intro callers id leads first second i j visible visible' placed placed' before shown shown' at_i at_j
    obtain ⟨known, rfl⟩ := recalls.nodeOf_of_pathOf leads
    obtain rfl := ends placed
    obtain rfl := ends placed'
    rw [← placed, there _ (List.cons_ne_nil _ _) visible, Option.some.injEq] at at_i
    rw [← placed', there _ (List.cons_ne_nil _ _) visible', Option.some.injEq] at at_j
    subst at_i at_j
    rw [shownAt, shownAt, ticks_shown, ticks_shown]
    exact recalls.order_shown visible visible' before

end Recalls

/-- After any events a hierarchical snapshot mirrors the visible paths. Its root shows nothing of its
    own, and each other node the method and the counters of its path, below the path of the caller;
    the order of siblings leaves nothing open. It has one node more than there are such paths. -/
theorem Reachable.hierarchy_mirrors (reachable : tree.Reachable)
    (fits : Ticks.InRange (reading - tree.since)) :
    ∃ snapshot locate, ∃ paths : List CallPath, tree.hierarchy reading = .ok snapshot ∧
      (snapshot.stats.method = none ∧ snapshot.stats.calls = 0 ∧ snapshot.stats.ticks = 0) ∧
      tree.Mirrors snapshot locate ∧
      paths.Nodup ∧ (∀ path, path ∈ paths ↔ path ≠ [] ∧ tree.Visible path) ∧
      snapshot.size = 1 + paths.length := by
  obtain ⟨machine, recalls⟩ := reachable.recalls
  obtain ⟨snapshot, shown⟩ := tree.exists_hierarchy fits
  obtain ⟨paths, nodup, members, length⟩ := recalls.exists_paths
  refine ⟨snapshot, tree.locate machine, paths, shown, ?_, ?_, nodup, members, ?_⟩
  · rw [recalls.hierarchy_eq] at shown
    obtain ⟨elapsed, -, told⟩ := Outcome.bind_eq_ok.mp shown
    cases told
    exact ⟨rfl, rfl, rfl⟩
  · exact recalls.mirrors ((children_of_hierarchy shown).trans (hierarchyBelow_root tree machine _))
  · rw [recalls.size_snapshot shown, length]

/-- Two callees with equal ticks, the later of which gets the lower slot, and a completed call below
    one that goes on. -/
def tiedTrace (outer early late unfinished : Handle) : List TraceEvent := [
  .start outer ⟨"App", "Outer", [], []⟩,
  .start early ⟨"App", "Early", [], []⟩,
  .finish early 5,
  .start late ⟨"App", "Late", [], []⟩,
  .finish late 5,
  .finish outer 30,
  .start unfinished ⟨"App", "Open", [], []⟩,
  .start early ⟨"App", "Early", [], []⟩,
  .finish early 2]

theorem tiedTrace_mirrors :
    let tree := (replay CallTree.step (empty 0)
      (tiedTrace { raw := 2 } { raw := 5 } { raw := 4 } { raw := 3 })).2
    (tree.callees ⟨1⟩ = [{ raw := 4 }, { raw := 5 }] ∧ tree.callsAt ⟨4⟩ = 0 ∧ tree.callsAt ⟨5⟩ = 1) ∧
      tree.Reachable ∧ Ticks.InRange (50 - tree.since) ∧
      ∃ snapshot locate, ∃ paths : List CallPath, tree.hierarchy 50 = .ok snapshot ∧
        (snapshot.stats.method = none ∧ snapshot.stats.calls = 0 ∧ snapshot.stats.ticks = 0) ∧
        tree.Mirrors snapshot locate ∧
        paths.Nodup ∧ (∀ path, path ∈ paths ↔ path ≠ [] ∧ tree.Visible path) ∧
        snapshot.size = 1 + paths.length := by
  intro tree
  have reachable : tree.Reachable := ⟨0, tiedTrace _ _ _ _, rfl⟩
  have fits : Ticks.InRange (50 - tree.since) := by decide +kernel
  exact ⟨by decide +kernel, reachable, fits, reachable.hierarchy_mirrors fits⟩

end CallTree
end CilProfiler

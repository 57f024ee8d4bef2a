import CilProfiler.Proofs.Snapshot.Ranking
import CilProfiler.Proofs.Snapshot.Shown

/-! # The two snapshots agree

The flat snapshot of a tree has an entry for every generic definition that the hierarchical one
shows, and what the entry says is what the nodes of the definition add up to: their calls, and
their ticks less those of their children. Nothing is counted twice where a definition calls itself.
-/

namespace CilProfiler

namespace OwnTotal

theorem additive_calls : Tally.Additive add calls := by
  intro first second sum added
  obtain ⟨calls, counted, added⟩ := Outcome.bind_eq_ok.mp added
  obtain ⟨ticks, -, added⟩ := Outcome.bind_eq_ok.mp added
  cases added
  exact (Count.add_eq_ok.mp counted).1

theorem additive_ticks : Tally.Additive add ticks := by
  intro first second sum added
  obtain ⟨calls, -, added⟩ := Outcome.bind_eq_ok.mp added
  obtain ⟨ticks, summed, added⟩ := Outcome.bind_eq_ok.mp added
  cases added
  exact (Ticks.add_eq_ok.mp summed).1

end OwnTotal

namespace ProfileNode

/-- The method of the node is the definition or an instantiation of it. -/
def isOf (definition : MethodName) (node : ProfileNode) : Bool :=
  node.stats.method.map (·.definition) = some definition

theorem mem_keys_ownRecords {nodes : List ProfileNode} {definition : MethodName} :
    definition ∈ (nodes.filterMap ownRecord?).map Prod.fst ↔
      ∃ node ∈ nodes, node.isOf definition := by
  simp only [List.map_filterMap, List.mem_filterMap, isOf, ownRecord?, Option.map_map,
    decide_eq_true_iff]
  rfl

/-- What the nodes of the chosen definitions add up to. -/
theorem total_ownRecords_of_chosen {M : Type} [AddCommMonoid M] (size : OwnTotal → M)
    (nodes : List ProfileNode) (chosen : MethodName → Bool) :
    Tally.total size chosen (nodes.filterMap ownRecord?) =
      ((nodes.filter fun node => (node.stats.method.map (·.definition)).any chosen).map
        fun node => size ⟨node.stats.calls, node.own⟩).sum := by
  induction nodes with
  | nil => rfl
  | cons node rest ih =>
      cases named : node.stats.method with
      | none => simp [ownRecord?, named, ih]
      | some method =>
          rw [List.filterMap_cons, ownRecord?, named, Option.map_some, Tally.total_cons, ih]
          by_cases taken : chosen method.definition <;> simp [named, taken]

theorem total_ownRecords {M : Type} [AddCommMonoid M] (size : OwnTotal → M)
    (nodes : List ProfileNode) (definition : MethodName) :
    Tally.total size (· = definition) (nodes.filterMap ownRecord?) =
      ((nodes.filter (·.isOf definition)).map
        fun node => size ⟨node.stats.calls, node.own⟩).sum := by
  have same : (fun node : ProfileNode =>
      (node.stats.method.map (·.definition)).any (· = definition)) = (·.isOf definition) := by
    funext node
    cases named : node.stats.method <;> simp [isOf, named]
  rw [total_ownRecords_of_chosen, same]

end ProfileNode

namespace CallTree

variable {tree : CallTree} {reading elapsed : Ticks} {tally shuffled : MethodTally}
  {entries : List CallStats}

/-- A tally holds what the nodes of a hierarchical snapshot add up to. -/
structure Tallies (tally : MethodTally) (nodes : List ProfileNode) : Prop where
  nodup : (tally.map Prod.fst).Nodup
  mem_keys : ∀ definition, definition ∈ tally.map Prod.fst ↔ ∃ node ∈ nodes, node.isOf definition
  total : ∀ {M : Type} [AddCommMonoid M] (size : OwnTotal → M) (chosen : MethodName → Bool),
    Tally.Additive OwnTotal.add size →
    Tally.total size chosen tally = Tally.total size chosen (nodes.filterMap ProfileNode.ownRecord?)

theorem Tallies.of_perm {nodes : List ProfileNode} (tallies : Tallies tally nodes)
    (order : shuffled.Perm tally) : Tallies shuffled nodes where
  nodup := (order.map Prod.fst).nodup_iff.mpr tallies.nodup
  mem_keys definition := by rw [(order.map Prod.fst).mem_iff, tallies.mem_keys]
  total size chosen additive := by
    rw [Tally.total_eq_of_perm order, tallies.total size chosen additive]

/-- What a tally holds for a definition is what the nodes of the definition add up to. -/
theorem Tallies.size_of_mem {M : Type} [AddCommMonoid M] {size : OwnTotal → M}
    (additive : Tally.Additive OwnTotal.add size) {nodes : List ProfileNode}
    (tallies : Tallies tally nodes) {definition : MethodName} {total : OwnTotal}
    (held : (definition, total) ∈ tally) :
    size total = ((nodes.filter (·.isOf definition)).map
      fun node => size ⟨node.stats.calls, node.own⟩).sum := by
  have whole := tallies.total size (· = definition) additive
  rwa [Tally.total_of_mem tallies.nodup held, ProfileNode.total_ownRecords] at whole

theorem Linked.tallies (linked : tree.Linked) (elapsed : Ticks)
    (tallied : tree.methodTally = .ok tally) :
    Tallies tally (ProfileNode.preorders (tree.hierarchyBelow elapsed CallTree.root)) := by
  have recorded := linked.recordAll_below elapsed tallied
  have same : (tree.ownRecords elapsed (tree.below CallTree.root)).Perm
      ((ProfileNode.preorders (tree.hierarchyBelow elapsed CallTree.root)).filterMap
        ProfileNode.ownRecord?) :=
    (linked.preorders_perm elapsed CallTree.root).symm.filterMap ProfileNode.ownRecord?
  refine ⟨Tally.nodup_recordAll (by simp) recorded, fun definition => ?_,
    fun size chosen additive => ?_⟩
  · rw [Tally.mem_keys_recordAll recorded, (same.map Prod.fst).mem_iff,
      ProfileNode.mem_keys_ownRecords]
    simp
  · rw [Tally.total_recordAll additive recorded, Tally.total_eq_of_perm same]
    exact zero_add _

/-- Flat list of a tally, which may hold its methods in any order. -/
def listed (elapsed : Ticks) (tally : MethodTally) : Except Overflow (List CallStats) := do
  let recorded ← Ticks.sum (tally.map (·.2.ticks))
  let outside ← Ticks.sub elapsed recorded
  let entries : List CallStats :=
    tally.map (fun (method, total) =>
        { method := some method, calls := total.calls, ticks := total.ticks })
      ++ [{ method := none, calls := outsideCalls, ticks := outside }]
  return (entries.mergeSort fun a b => (CallStats.flatOrder a b).isLE).map fun entry =>
    { entry with percent := share entry.ticks elapsed }

theorem flatList_eq_ok (flat : tree.flatList reading = .ok entries) :
    Ticks.InRange (reading - tree.since) ∧
      ∃ tally, tree.methodTally = .ok tally ∧
        listed (reading - tree.since) tally = .ok entries := by
  obtain ⟨elapsed, measured, flat⟩ := Outcome.bind_eq_ok.mp flat
  obtain ⟨tally, tallied, flat⟩ := Outcome.bind_eq_ok.mp flat
  obtain ⟨rfl, fits⟩ := Ticks.sub_eq_ok.mp measured
  exact ⟨fits, tally, tallied, flat⟩

theorem elapsedAt_eq (fits : Ticks.InRange (reading - tree.since)) :
    tree.elapsedAt reading = .ok (reading - tree.since) :=
  Ticks.sub_eq_ok.mpr ⟨rfl, fits⟩

/-- The flat snapshot is the list of the tally, whether it is given or not. -/
theorem flatList_eq_listed (fits : Ticks.InRange (reading - tree.since))
    (tallied : tree.methodTally = .ok tally) :
    tree.flatList reading = listed (reading - tree.since) tally := by
  rw [flatList, elapsedAt_eq fits, tallied]
  rfl

/-- Entries of a tally before they are ranked, the one for the time outside any call at the end. -/
def unranked (elapsed : Ticks) (tally : MethodTally) : List CallStats :=
  tally.map (fun (method, total) =>
      { method := some method, calls := total.calls, ticks := total.ticks })
    ++ [{
      method := none
      calls := outsideCalls
      ticks := elapsed - (tally.map (·.2.ticks)).sum }]

def withShare (elapsed : Ticks) (entry : CallStats) : CallStats :=
  { entry with percent := share entry.ticks elapsed }

theorem listed_eq_ok (found : listed elapsed tally = .ok entries) :
    entries = (Ranked.sort CallStats.ticks CallStats.method (unranked elapsed tally)).map
      (withShare elapsed) := by
  obtain ⟨recorded, summed, found⟩ := Outcome.bind_eq_ok.mp found
  obtain ⟨outside, taken, found⟩ := Outcome.bind_eq_ok.mp found
  obtain ⟨rfl, -⟩ := Ticks.sum_eq_ok summed
  obtain ⟨rfl, -⟩ := Ticks.sub_eq_ok.mp taken
  cases found
  rfl

theorem listed_perm (found : listed elapsed tally = .ok entries) :
    entries.Perm ((unranked elapsed tally).map (withShare elapsed)) := by
  rw [listed_eq_ok found]
  exact (Ranked.sort_perm ..).map _

theorem nodup_unranked (distinct : (tally.map Prod.fst).Nodup) :
    ((unranked elapsed tally).map CallStats.method).Nodup := by
  have methods : (unranked elapsed tally).map CallStats.method =
      (tally.map Prod.fst).map some ++ [none] := by
    simp [unranked]
  rw [methods, ← List.concat_eq_append]
  refine (distinct.map (fun _ _ same => Option.some.inj same)).concat ?_
  simp

theorem listed_pairwise (distinct : (tally.map Prod.fst).Nodup)
    (found : listed elapsed tally = .ok entries) :
    entries.Pairwise fun a b =>
      b.ticks < a.ticks ∨ a.ticks = b.ticks ∧ compare a.method b.method = .lt := by
  rw [listed_eq_ok found, List.pairwise_map]
  refine (Ranked.pairwise_sort CallStats.ticks (nodup_unranked distinct)).imp fun {a b} before => ?_
  rw [ranked, Ordering.then_eq_lt, Int.compare_eq_lt, Std.compare_eq_iff_eq] at before
  rcases before with less | ⟨same, method⟩
  · exact .inl less
  · exact .inr ⟨same.symm, method⟩

/-- The list does not show in which order the tally holds its methods. -/
theorem listed_eq_of_perm {other : List CallStats} (distinct : (tally.map Prod.fst).Nodup) (same : shuffled.Perm tally)
    (found : listed elapsed tally = .ok entries) (found' : listed elapsed shuffled = .ok other) :
    other = entries := by
  have total := (same.map (·.2.ticks)).sum_eq
  have perm : (unranked elapsed shuffled).Perm (unranked elapsed tally) := by
    rw [unranked, unranked, total]
    exact (same.map _).append_right _
  rw [listed_eq_ok found, listed_eq_ok found',
    Ranked.sort_eq_of_perm CallStats.ticks perm (nodup_unranked distinct)]

theorem filterMap_method_unranked :
    ((unranked elapsed tally).map (withShare elapsed)).filterMap (·.method) =
      tally.map Prod.fst := by
  simp [unranked, withShare, List.filterMap_map, Function.comp_def]

theorem filter_none_unranked :
    ((unranked elapsed tally).map (withShare elapsed)).filter (·.method.isNone) =
      [{
        method := none
        calls := outsideCalls
        ticks := elapsed - (tally.map (·.2.ticks)).sum
        percent := share (elapsed - (tally.map (·.2.ticks)).sum) elapsed }] := by
  simp [unranked, withShare, List.filter_map, Function.comp_def]

theorem mem_tally_of_mem_unranked {entry : CallStats} {definition : MethodName}
    (member : entry ∈ (unranked elapsed tally).map (withShare elapsed))
    (named : entry.method = some definition) :
    (definition, ⟨entry.calls, entry.ticks⟩) ∈ tally := by
  obtain ⟨raw, there, rfl⟩ := List.mem_map.mp member
  rcases List.mem_append.mp there with tallied | outside
  · obtain ⟨⟨method, total⟩, held, rfl⟩ := List.mem_map.mp tallied
    cases named
    exact held
  · cases List.mem_singleton.mp outside
    cases named

theorem children_of_hierarchy {root : ProfileNode} (shown : tree.hierarchy reading = .ok root) :
    root.children = tree.hierarchyBelow (reading - tree.since) CallTree.root := by
  obtain ⟨elapsed, measured, shown⟩ := Outcome.bind_eq_ok.mp shown
  obtain ⟨rfl, -⟩ := Ticks.sub_eq_ok.mp measured
  cases shown
  rfl

theorem ticks_of_hierarchy {root : ProfileNode} (shown : tree.hierarchy reading = .ok root) :
    root.stats.ticks = tree.ticksAt CallTree.root := by
  obtain ⟨elapsed, -, shown⟩ := Outcome.bind_eq_ok.mp shown
  cases shown
  simp only [ticksAt, counters]
  cases tree.node? CallTree.root <;> rfl

theorem exists_hierarchy (fits : Ticks.InRange (reading - tree.since)) :
    ∃ root, tree.hierarchy reading = .ok root :=
  ⟨_, by rw [hierarchy, elapsedAt_eq fits]; rfl⟩

/-- The flat snapshot is the list of the tally, which a map may give in any order. The list of any
    such order has one entry without a method, and one for every definition that the nodes below
    the root of the hierarchical snapshot have. Its calls and ticks are the calls and the own ticks
    of the nodes of the definition, added up. Entries are listed by descending ticks and then by
    method, with no ties, so that no other order of the tally gives another list. -/
theorem flatList_agrees (reachable : tree.Reachable)
    (fits : Ticks.InRange (reading - tree.since)) (tallied : tree.methodTally = .ok tally)
    (order : shuffled.Perm tally)
    (found : listed (reading - tree.since) shuffled = .ok entries) :
    tree.flatList reading = listed (reading - tree.since) tally ∧
    ∃ root, tree.hierarchy reading = .ok root ∧
      let nodes := ProfileNode.preorders root.children
      (∀ node ∈ nodes, ∀ own, node.ownTicks = .ok own → own = node.own) ∧
      (entries.filter (·.method.isNone)).length = 1 ∧
      (entries.filterMap (·.method)).Nodup ∧
      (∀ definition, definition ∈ entries.filterMap (·.method) ↔
        ∃ node ∈ nodes, node.stats.method.map (·.definition) = some definition) ∧
      (∀ entry ∈ entries, ∀ definition, entry.method = some definition →
        entry.calls = ((nodes.filter (·.isOf definition)).map (·.stats.calls)).sum ∧
        entry.ticks = ((nodes.filter (·.isOf definition)).map (·.own)).sum) ∧
      entries.Pairwise (fun a b =>
        b.ticks < a.ticks ∨ a.ticks = b.ticks ∧ compare a.method b.method = .lt) ∧
      ∀ another other, another.Perm tally →
        listed (reading - tree.since) another = .ok other → other = entries := by
  obtain ⟨root, shown⟩ := tree.exists_hierarchy fits
  have children := children_of_hierarchy shown
  have tallies := (reachable.linked.tallies (reading - tree.since) tallied).of_perm order
  rw [← children] at tallies
  have perm := listed_perm found
  have methods : (entries.filterMap (·.method)).Perm (shuffled.map Prod.fst) :=
    filterMap_method_unranked ▸ perm.filterMap _
  refine ⟨flatList_eq_listed fits tallied, root, shown,
    fun node _ own => ProfileNode.own_of_ownTicks, ?_, methods.nodup_iff.mpr tallies.nodup,
    fun definition => ?_, fun entry member definition named => ?_,
    listed_pairwise tallies.nodup found, fun another other perm' found' => ?_⟩
  · rw [(perm.filter _).length_eq, filter_none_unranked]
    rfl
  · rw [methods.mem_iff, tallies.mem_keys]
    simp [ProfileNode.isOf]
  · have held := mem_tally_of_mem_unranked (perm.mem_iff.mp member) named
    exact ⟨tallies.size_of_mem OwnTotal.additive_calls held,
      tallies.size_of_mem OwnTotal.additive_ticks held⟩
  · exact listed_eq_of_perm tallies.nodup (perm'.trans order.symm) found found'

/-- A generic method that calls itself through another instantiation, each with a handle of its
    own, and a call that is not finished. -/
def instantiationTrace (run inner stop wait : Handle) : List TraceEvent :=
  let generic : MethodName := ⟨"App", "Run", ["T"], []⟩
  [ .start run (generic.instantiation ["A"]),
    .start inner (generic.instantiation ["B"]),
    .start run (generic.instantiation ["A"]),
    .finish run 30,
    .finish inner 20,
    .finish run 50,
    .start stop ⟨"App", "Stop", [], []⟩,
    .finish stop 7,
    .start wait ⟨"App", "Wait", [], []⟩ ]

theorem instantiationTrace_flatList :
    let trace := instantiationTrace { raw := 4 } { raw := 6 } { raw := 8 } { raw := 5 }
    let tree := (replay CallTree.step (empty 0) trace).2
    let generic : MethodName := ⟨"App", "Run", ["T"], []⟩
    let stop : MethodName := ⟨"App", "Stop", [], []⟩
    tree.methodTally = .ok [(stop, ⟨1, 7⟩), (generic, ⟨3, 50⟩)] ∧
      ∃ entries root, listed 100 [(generic, ⟨3, 50⟩), (stop, ⟨1, 7⟩)] = .ok entries ∧
        tree.flatList 100 = .ok entries ∧ tree.hierarchy 100 = .ok root ∧
        (entries.filter (·.method.isNone)).length = 1 ∧
        ∀ entry ∈ entries, entry.method = some generic →
          entry.ticks = (((ProfileNode.preorders root.children).filter
            (·.isOf generic)).map (·.own)).sum := by
  intro trace tree generic stop
  have tallied : tree.methodTally = .ok [(stop, ⟨1, 7⟩), (generic, ⟨3, 50⟩)] := by decide +kernel
  have since : tree.since = 0 := by decide +kernel
  have fits : Ticks.InRange (100 - tree.since) := since ▸ by decide
  obtain ⟨entries, found⟩ :
      ∃ entries, listed (100 - tree.since) [(generic, ⟨3, 50⟩), (stop, ⟨1, 7⟩)] = .ok entries :=
    Outcome.exists_of_isOk (by decide +kernel)
  obtain ⟨listing, given⟩ : ∃ listing, tree.flatList 100 = .ok listing :=
    Outcome.exists_of_isOk (by decide +kernel)
  obtain ⟨flat, root, shown, -, outside, -, -, sums, -, only⟩ :=
    flatList_agrees ⟨0, trace, rfl⟩ fits tallied (.swap ..) found
  have same : listing = entries := only _ listing (.refl _) (flat ▸ given)
  refine ⟨tallied, entries, root, ?_, same ▸ given, shown, outside,
    fun entry member named => (sums entry member generic named).2⟩
  rwa [since] at found

end CallTree
end CilProfiler

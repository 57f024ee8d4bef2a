import CilProfiler.Proofs.Snapshot.ByPath
import CilProfiler.Proofs.Snapshot.Headroom
import CilProfiler.Proofs.Trace.Balanced
import Mathlib.Tactic.Linarith

/-! # Snapshots of balanced traces

Many calls of a trace share a path. If none of them ends before the calls that it makes, then no
path has taken less than its callees have together: each visit to a callee belongs to a visit to
the caller. So nothing has negative own ticks, and the time outside any call is what the outermost
calls leave of the elapsed time.
-/

namespace CilProfiler

namespace TracedCalls

variable {calls : TracedCalls} {callers path : CallPath}

/-- Visits lead further away from the callers. -/
theorem length_lt_of_visit (calls : TracedCalls) (callers : CallPath) :
    ∀ visit ∈ calls.visits callers, callers.length < visit.1.length := by
  induction calls generalizing callers with
  | done =>
      intro visit member
      cases member
  | call handle method elapsed nested later ihNested ihLater =>
      simp only [visits, List.forall_mem_cons, List.forall_mem_append]
      refine ⟨Nat.lt_succ_self _, fun visit member => ?_, ihLater callers⟩
      exact (Nat.lt_succ_self _).trans (ihNested (handle :: callers) visit member)

/-- What is called from the callers directly are the outermost calls. -/
theorem total_outermost (calls : TracedCalls) (callers : CallPath) :
    Tally.total id (·.tail? = some callers) (calls.visits callers) = calls.elapsed := by
  induction calls generalizing callers with
  | done => rfl
  | call handle method elapsed nested later ihNested ihLater =>
      have deeper :
          Tally.total id (·.tail? = some callers) (nested.visits (handle :: callers)) = 0 := by
        have none : (nested.visits (handle :: callers)).filter (·.1.tail? = some callers) = [] := by
          rw [List.filter_eq_nil_iff]
          rintro ⟨_ | ⟨_, rest⟩, _⟩ member direct
          · cases of_decide_eq_true direct
          · cases of_decide_eq_true direct
            exact Nat.lt_irrefl _ (nested.length_lt_of_visit (handle :: callers) _ member)
        rw [Tally.total, none]
        rfl
      simp [visits, Tally.total_cons, Tally.total_append, deeper, ihLater, TracedCalls.elapsed]

/-- A path has taken no less time than what is called from it. -/
theorem total_callees_le (timed : calls.WellTimed) (callers path : CallPath) :
    Tally.total id (·.tail? = some path) (calls.visits callers) ≤
      Tally.total id (· = path) (calls.visits callers) +
        if path = callers then calls.elapsed else 0 := by
  induction calls generalizing callers with
  | done => simp [visits, Tally.total, TracedCalls.elapsed]
  | call handle method elapsed nested later ihNested ihLater =>
      obtain ⟨-, within, timed, timed'⟩ := timed
      have inner := ihNested timed (handle :: callers)
      have outer := ihLater timed' callers
      simp only [visits, Tally.total_cons, Tally.total_append, TracedCalls.elapsed, List.tail?_cons,
        Option.some.injEq, decide_eq_true_eq, id, eq_comm (a := handle :: callers),
        eq_comm (a := callers)]
      by_cases here : path = callers
      · have other : path ≠ handle :: callers := by
          rintro rfl
          exact List.cons_ne_self handle callers here
        simp only [if_pos here, if_neg other] at inner outer ⊢
        linarith
      · by_cases itself : path = handle :: callers
        · simp only [if_neg here, if_pos itself] at inner outer ⊢
          linarith
        · simp only [if_neg here, if_neg itself] at inner outer ⊢
          linarith

theorem nonneg_of_visit (timed : calls.WellTimed) (callers : CallPath) :
    ∀ visit ∈ calls.visits callers, 0 ≤ visit.2 := by
  induction calls generalizing callers with
  | done =>
      intro visit member
      cases member
  | call handle method elapsed nested later ihNested ihLater =>
      obtain ⟨positive, -, timed, timed'⟩ := timed
      simp only [visits, List.forall_mem_cons, List.forall_mem_append]
      exact ⟨positive, ihNested timed (handle :: callers), ihLater timed' callers⟩

end TracedCalls

namespace PathMachine

variable {machine : PathMachine} {calls : TracedCalls} {path : CallPath}

/-- No path has taken less time than its callees, and all of them no more than is given. -/
structure Balanced (machine : PathMachine) (whole : Ticks) : Prop where
  nonneg : ∀ path, 0 ≤ machine.ticksOf path
  callees : ∀ path, ∀ handles : List Handle, handles.Nodup →
    (handles.map fun handle => machine.ticksOf (handle :: path)).sum ≤
      if path = [] then whole else machine.ticksOf path

/-- Ticks of a path in a state that was reached by visits only. -/
theorem Visits.ticksOf_eq {visits : List (CallPath × Ticks)} (visited : Visits {} machine visits)
    (path : CallPath) : machine.ticksOf path = Tally.total id (· = path) visits :=
  (visited.ticks path).trans (Int.zero_add _)

theorem Visits.callsOf_eq {visits : List (CallPath × Ticks)} (visited : Visits {} machine visits)
    (path : CallPath) : machine.callsOf path = Tally.total (fun _ => 1) (· = path) visits := by
  rw [visited.calls path]
  simp [callsOf, timesOf, Tally.total]

/-- No call is counted twice. -/
theorem Visits.sum_callsOf_le {visits : List (CallPath × Ticks)} {paths : List CallPath}
    (visited : Visits {} machine visits) (distinct : paths.Nodup) :
    (paths.map machine.callsOf).sum ≤ visits.length := by
  rw [funext visited.callsOf_eq, Tally.sum_total _ distinct]
  simpa [Tally.total] using List.length_filter_le ..

/-- Calls that end in time leave balanced counts. -/
theorem Visits.balanced (visited : Visits {} machine (calls.visits [])) (timed : calls.WellTimed) :
    machine.Balanced calls.elapsed where
  nonneg path := by
    rw [visited.ticksOf_eq, Tally.total]
    refine List.sum_nonneg fun ticks member => ?_
    obtain ⟨visit, there, rfl⟩ := List.mem_map.mp member
    exact TracedCalls.nonneg_of_visit timed [] visit (List.mem_filter.mp there).1
  callees path handles distinct := by
    simp only [visited.ticksOf_eq]
    have keys : (handles.map (· :: path)).Nodup :=
      distinct.map fun _ _ same => (List.cons.inj same).1
    have sums := Tally.sum_total id keys (calls.visits [])
    have bound : Tally.total id (·.tail? = some path) (calls.visits []) ≤
        if path = [] then calls.elapsed else Tally.total id (· = path) (calls.visits []) := by
      split
      · rename_i top
        rw [top, calls.total_outermost]
      · rename_i below
        simpa [below] using TracedCalls.total_callees_le timed [] path
    rw [List.map_map] at sums
    refine (sums.trans_le (Tally.total_mono (TracedCalls.nonneg_of_visit timed [])
      fun key chosen => ?_)).trans bound
    simp only [decide_eq_true_eq, List.mem_map] at chosen
    obtain ⟨handle, -, rfl⟩ := chosen
    exact decide_eq_true rfl

/-- The outermost calls take all the time, if none of them is left out. -/
theorem Visits.sum_outermost (visited : Visits {} machine (calls.visits [])) {handles : List Handle}
    (distinct : handles.Nodup) (all : ∀ handle, 0 < machine.callsOf [handle] → handle ∈ handles) :
    (handles.map fun handle => machine.ticksOf [handle]).sum = calls.elapsed := by
  have keys : (handles.map ([·] : Handle → CallPath)).Nodup :=
    distinct.map fun _ _ same => (List.cons.inj same).1
  have sums := Tally.sum_total id keys (calls.visits [])
  rw [List.map_map] at sums
  simp only [visited.ticksOf_eq]
  refine sums.trans (Eq.trans ?_ (calls.total_outermost []))
  rw [Tally.total, Tally.total]
  refine congrArg (fun visits => (List.map _ visits).sum) (List.filter_congr fun visit member => ?_)
  rw [decide_eq_decide, List.mem_map]
  constructor
  · rintro ⟨handle, -, same⟩
    rw [← same]
    rfl
  · intro direct
    obtain ⟨handle, same⟩ : ∃ handle, visit.1 = [handle] := by
      cases path : visit.1 with
      | nil => simp [path] at direct
      | cons handle rest => simp_all
    have visited' : timesOf [handle] (calls.visits []) ≠ [] :=
      timesOf_ne_nil.mpr (List.mem_map.mpr ⟨visit, member, same⟩)
    refine ⟨handle, all handle ?_, same.symm⟩
    rw [visited.calls]
    exact Nat.lt_of_lt_of_le (List.length_pos_of_ne_nil visited') (Nat.le_add_left ..)

/-- No call takes longer than all of them. -/
theorem Balanced.ticksOf_le {whole : Ticks} (balanced : machine.Balanced whole)
    (formed : machine.Formed) (path : CallPath) : machine.ticksOf path ≤ whole := by
  induction path with
  | nil =>
      rw [ticksOf, formed.records_nil]
      simpa using balanced.callees [] [] List.nodup_nil
  | cons handle path ih =>
      have alone := balanced.callees path [handle] (List.nodup_singleton handle)
      rw [List.map_singleton, List.sum_singleton] at alone
      refine alone.trans ?_
      split
      · exact le_rfl
      · exact ih

end PathMachine

open PathMachine

namespace CallTree

variable {tree : CallTree} {machine : PathMachine} {whole : Ticks} {id : NodeIndex}
  {path : CallPath} {handles : List Handle}

namespace Recalls

variable (recalls : tree.Recalls machine)
include recalls

theorem sum_callees_le (balanced : machine.Balanced whole) (known : path ∈ machine.known)
    (distinct : handles.Nodup) (called : ∀ handle ∈ handles, handle :: path ∈ machine.known) :
    (handles.map fun handle => tree.ticksAt (machine.nodeOf (handle :: path))).sum ≤
      if machine.nodeOf path = root then whole else tree.ticksAt (machine.nodeOf path) := by
  have same : machine.nodeOf path = root ↔ path = [] := by
    rw [← machine.nodeOf_nil]
    exact ⟨Formed.nodeOf_injective known, fun top => by rw [top]⟩
  have each := List.map_congr_left fun handle member =>
    recalls.ticksAt_nodeOf (called handle member)
  rw [each, recalls.ticksAt_nodeOf known]
  simpa only [same] using balanced.callees path handles distinct

/-- A path is at least as long as all that is called from it. -/
theorem sum_entries_le (balanced : machine.Balanced whole) (inside : id.index < tree.nodes.size) :
    ((tree.table id).entries.map fun entry => tree.ticksAt entry.2).sum ≤
      if id = root then whole else tree.ticksAt id := by
  obtain ⟨path, known, rfl⟩ := recalls.exists_nodeOf inside
  rw [recalls.entries_nodeOf known, List.map_map]
  exact recalls.sum_callees_le balanced known (recalls.nodup_callees _) fun handle member =>
    (recalls.mem_callees known).mp member

theorem sum_visibleChildren_le (balanced : machine.Balanced whole)
    (inside : id.index < tree.nodes.size) :
    ((tree.visibleChildren id).map tree.ticksAt).sum ≤
      if id = root then whole else tree.ticksAt id := by
  obtain ⟨path, known, rfl⟩ := recalls.exists_nodeOf inside
  rw [recalls.visibleChildren_nodeOf known, List.map_map]
  exact recalls.sum_callees_le balanced known (recalls.nodup_visibleCallees path)
    fun handle member => recalls.formed.known_of_callsOf
      ((recalls.mem_visibleCallees known).mp member)

theorem ticksAt_le (balanced : machine.Balanced whole) (inside : id.index < tree.nodes.size) :
    tree.ticksAt id ≤ whole := by
  obtain ⟨path, known, rfl⟩ := recalls.exists_nodeOf inside
  rw [recalls.ticksAt_nodeOf known]
  exact balanced.ticksOf_le recalls.formed path

/-- Nothing that is called below a node takes longer than all calls. -/
theorem sum_visibleChildren_le_whole (balanced : machine.Balanced whole)
    (inside : id.index < tree.nodes.size) :
    ((tree.visibleChildren id).map tree.ticksAt).sum ≤ whole := by
  refine (recalls.sum_visibleChildren_le balanced inside).trans ?_
  split
  · exact le_rfl
  · exact recalls.ticksAt_le balanced inside

theorem ownAt_nonneg (balanced : machine.Balanced whole) (shown : id ∈ tree.below root) :
    0 ≤ tree.ownAt id := by
  obtain ⟨node, -, found, -⟩ := recalls.linked.method_of_below shown
  have below : id ≠ root := by
    rintro rfl
    exact Nat.lt_irrefl _ (recalls.linked.lt_of_leads (recalls.linked.leads_of_mem_below shown))
  have children := recalls.sum_visibleChildren_le balanced (node?_lt found)
  rw [if_neg below] at children
  exact sub_nonneg.mpr children

/-- Own ticks of different paths take no longer than all calls. -/
theorem sum_ownAt_bounds {ids : List NodeIndex} (balanced : machine.Balanced whole)
    (distinct : ids.Nodup) (shown : ids ⊆ tree.below root) :
    0 ≤ (ids.map tree.ownAt).sum ∧ (ids.map tree.ownAt).sum ≤ whole := by
  have nonneg : ∀ id ∈ tree.below root, 0 ≤ tree.ownAt id :=
    fun id there => recalls.ownAt_nonneg balanced there
  constructor
  · refine List.sum_nonneg fun ticks member => ?_
    obtain ⟨id, there, rfl⟩ := List.mem_map.mp member
    exact nonneg id (shown there)
  · obtain ⟨node, found, -⟩ := recalls.linked.root
    have all := sum_map_le_of_subset nonneg distinct shown
    rw [recalls.linked.sum_own_below] at all
    exact all.trans (recalls.sum_visibleChildren_le_whole balanced (node?_lt found))

/-- The shown paths are known ones. -/
theorem sum_callsAt_below_le :
    ((tree.below root).map tree.callsAt).sum ≤ (machine.known.map machine.callsOf).sum := by
  have all : (machine.known.map machine.nodeOf).map tree.callsAt =
      machine.known.map machine.callsOf := by
    rw [List.map_map]
    exact List.map_congr_left fun path known => recalls.callsAt_nodeOf known
  rw [← all]
  refine sum_map_le_of_subset (fun _ _ => Nat.zero_le _) (recalls.linked.nodup_below root) ?_
  intro id shown
  obtain ⟨node, -, found, -⟩ := recalls.linked.method_of_below shown
  obtain ⟨path, known, rfl⟩ := recalls.exists_nodeOf (node?_lt found)
  exact List.mem_map_of_mem known

/-- There is headroom if the outermost calls fit, and the number of all calls does. -/
theorem headroom (balanced : machine.Balanced whole) (small : whole < Ticks.bound)
    (few : (machine.known.map machine.callsOf).sum < Count.bound) : tree.Headroom where
  calls := recalls.sum_callsAt_below_le.trans_lt few
  own ids distinct shown := by
    have bounds := recalls.sum_ownAt_bounds balanced distinct shown
    exact ⟨by linarith, by linarith⟩
  below id part distinct children := by
    have nonneg := recalls.ticksAt_nonneg balanced.nonneg
    by_cases inside : id.index < tree.nodes.size
    · have itself := recalls.ticksAt_le balanced inside
      have below := sum_map_le_of_subset (fun id _ => nonneg id) distinct children
      have all := recalls.sum_visibleChildren_le_whole balanced inside
      have least := sum_ticksAt_nonneg nonneg part
      have positive := nonneg id
      exact ⟨⟨by linarith, by linarith⟩, by linarith, by linarith⟩
    · rw [visibleChildren_of_outside inside] at children
      rw [List.subset_nil.mp children, ticksAt, counters_of_outside inside, List.map_nil,
        List.sum_nil]
      decide

theorem sum_outermost {calls : TracedCalls} (visited : Visits {} machine (calls.visits [])) :
    ((tree.visibleChildren root).map tree.ticksAt).sum = calls.elapsed := by
  have known : [] ∈ machine.known := List.mem_cons_self ..
  rw [← machine.nodeOf_nil, recalls.visibleChildren_nodeOf known, List.map_map,
    ← visited.sum_outermost (recalls.nodup_visibleCallees []) fun handle counted =>
      (recalls.mem_visibleCallees known).mpr counted]
  exact congrArg List.sum (List.map_congr_left fun handle member =>
    recalls.ticksAt_nodeOf (recalls.formed.known_of_callsOf
      ((recalls.mem_visibleCallees known).mp member)))

end Recalls

namespace Linked

variable {entries : List CallStats} {reading : Ticks}

/-- A method is listed with negative ticks only if one of its paths has negative own ticks. -/
theorem nonneg_of_flatList (linked : tree.Linked)
    (owns : ∀ id ∈ tree.below CallTree.root, 0 ≤ tree.ownAt id)
    (flat : tree.flatList reading = .ok entries) :
    ∀ entry ∈ entries, entry.method.isSome → 0 ≤ entry.ticks := by
  intro entry member named
  obtain ⟨-, tally, tallied, found⟩ := flatList_eq_ok flat
  obtain ⟨definition, named⟩ := Option.isSome_iff_exists.mp named
  have held := mem_tally_of_mem_unranked ((listed_perm found).mem_iff.mp member) named
  have tallies := linked.tallies (reading - tree.since) tallied
  have ticks := tallies.size_of_mem OwnTotal.additive_ticks held
  refine le_of_le_of_eq (List.sum_nonneg fun own there => ?_) ticks.symm
  obtain ⟨node, chosen, rfl⟩ := List.mem_map.mp there
  obtain ⟨id, shown, rfl⟩ := List.mem_map.mp
    ((linked.preorders_perm _ _).mem_iff.mp (List.mem_filter.mp chosen).1)
  exact (owns id shown).trans_eq (linked.own_shown _ id).symm

/-- The entry without a method has what the outermost calls leave. -/
theorem outside_flatList (linked : tree.Linked) (flat : tree.flatList reading = .ok entries) :
    ∃ outside, entries.filter (·.method.isNone) = [outside] ∧ outside.ticks =
      reading - tree.since - ((tree.visibleChildren CallTree.root).map tree.ticksAt).sum := by
  obtain ⟨-, tally, tallied, found⟩ := flatList_eq_ok flat
  have recorded := linked.recordAll_below (reading - tree.since) tallied
  have alone := (listed_perm found).filter (·.method.isNone)
  rw [filter_none_unranked, linked.sum_recordAll (.refl _) recorded] at alone
  exact ⟨_, List.perm_singleton.mp alone, rfl⟩

end Linked

/-- Calls that are reported one inside another lead any tree back to the active call, unless a
    counter overflows on the way. None of their finishes is refused. Each of them is counted for its
    path, which begins with the path of the active call, and nothing else is counted. If no call
    ends before the calls that it makes, and the tree was new, then no node but the root has fewer
    ticks than its children together, no method is listed with negative ticks, and the time outside
    any call is what the outermost calls leave of the elapsed time. -/
theorem replay_balanced (reachable : tree.Reachable) (calls : TracedCalls)
    (roomy : ∀ answer ∈ (replay CallTree.step tree calls.events).1,
      ∀ cause, answer ≠ .refused (.overflow cause)) :
    let run := replay CallTree.step tree calls.events
    let next := run.2
    (∀ answer ∈ run.1, answer.refusal? = none) ∧
    next.cursor = tree.cursor ∧
    (∃ callers, tree.PathOf tree.cursor callers ∧
      (∀ id path, tree.PathOf id path → next.PathOf id path) ∧
      (∀ path, (∃ id, next.PathOf id path) ↔
        (∃ id, tree.PathOf id path) ∨ path ∈ (calls.visits callers).map Prod.fst) ∧
      ∀ id path, next.PathOf id path →
        next.callsAt id = tree.callsAt id + (timesOf path (calls.visits callers)).length ∧
        next.ticksAt id = tree.ticksAt id + (timesOf path (calls.visits callers)).sum) ∧
    ∀ start, tree = empty start → calls.WellTimed →
      (∀ id node, next.node? id = some node → id ≠ root →
        (node.children.entries.map fun entry => next.ticksAt entry.2).sum ≤ node.ticks) ∧
      (∀ reading entries, next.flatList reading = .ok entries →
        (∀ entry ∈ entries, entry.method.isSome → 0 ≤ entry.ticks) ∧
        ∃ outside, entries.filter (·.method.isNone) = [outside] ∧
          outside.ticks = reading - start - calls.elapsed) ∧
      (calls.elapsed < Ticks.bound → (calls.visits []).length < Count.bound →
        ∀ reading, Ticks.InRange (reading - start) →
          Ticks.InRange (reading - start - calls.elapsed) →
          ∃ entries, next.flatList reading = .ok entries) := by
  intro run next
  obtain ⟨machine, recalls⟩ := reachable.recalls
  obtain ⟨accepted, machine', recalls', grown, visited⟩ := recalls.replay_calls calls roomy
  have active := recalls.formed.active
  refine ⟨accepted, ?_, ⟨machine.active, recalls.pathOf_iff.mpr ⟨active, recalls.represents.cursor⟩,
    fun id path leads => ?_, fun path => ?_, fun id path leads => ?_⟩, ?_⟩
  · rw [recalls'.represents.cursor, visited.active, Formed.nodeOf_of_prefix grown active,
      recalls.represents.cursor]
  · obtain ⟨known, rfl⟩ := recalls.pathOf_iff.mp leads
    rw [← Formed.nodeOf_of_prefix grown known]
    exact recalls'.pathOf_nodeOf (grown.subset known)
  · rw [recalls.exists_pathOf_iff, recalls'.exists_pathOf_iff, visited.known]
  · obtain ⟨known, rfl⟩ := recalls'.pathOf_iff.mp leads
    rw [recalls'.callsAt_nodeOf known, recalls'.ticksAt_nodeOf known, callsAt, ticksAt,
      recalls.counters_of_prefix grown, visited.calls, visited.ticks]
    exact ⟨rfl, rfl⟩
  · rintro start rfl timed
    obtain ⟨-, machine', recalls, -, visited⟩ := (recalls_empty start).replay_calls calls roomy
    have balanced := visited.balanced timed
    have since : next.since = start := since_replay_calls (empty start) calls
    have outer := recalls.sum_outermost visited
    refine ⟨fun id node found below => ?_, fun reading entries flat => ⟨?_, ?_⟩,
      fun small few reading inside outside => ?_⟩
    · have children := recalls.sum_entries_le balanced (node?_lt found)
      rwa [if_neg below, table, found, ticksAt, counters_of_node? found] at children
    · exact recalls.linked.nonneg_of_flatList (fun id => recalls.ownAt_nonneg balanced) flat
    · rw [← since, ← outer]
      exact recalls.linked.outside_flatList flat
    · have all := (visited.sum_callsOf_le recalls.formed.nodup).trans_lt few
      rw [← since] at inside outside
      rw [← outer] at outside
      exact (recalls.headroom balanced small all).exists_flatList recalls.linked inside outside

/-- A method that makes two calls with the same handle, of which one calls the method again, and
    another call of it. -/
def sharedCalls (outer inner : Handle) : TracedCalls :=
  let again := TracedCalls.call outer ⟨"App", "Outer", [], []⟩ 5 .done .done
  .call outer ⟨"App", "Outer", [], []⟩ 50
    (.call inner ⟨"App", "Inner", [], []⟩ 20 again
      (.call inner ⟨"App", "Inner", [], []⟩ 10 .done .done))
    (.call outer ⟨"App", "Outer", [], []⟩ 7 .done .done)

theorem sharedCalls_balanced :
    let calls := sharedCalls { raw := 4 } { raw := 6 }
    let run := replay CallTree.step (empty 3) calls.events
    let next := run.2
    calls.WellTimed ∧ (∀ answer ∈ run.1, ∀ cause, answer ≠ .refused (.overflow cause)) ∧
      next.cursor = root ∧ next.nodes.size = 4 ∧
      (∃ id, next.PathOf id [{ raw := 6 }, { raw := 4 }] ∧
        next.callsAt id = (empty 3).callsAt id + 2 ∧
        next.ticksAt id = (empty 3).ticksAt id + 30) ∧
      ∃ entries, next.flatList 103 = .ok entries ∧
        (∀ entry ∈ entries, entry.method.isSome → 0 ≤ entry.ticks) ∧
        (entries.filter (·.method.isNone)).map (·.ticks) = [43] := by
  intro calls run next
  have accepted : ∀ answer ∈ run.1, answer.refusal? = none := by decide +kernel
  have roomy : ∀ answer ∈ run.1, ∀ cause, answer ≠ .refused (.overflow cause) := by
    rintro _ member cause rfl
    cases accepted _ member
  have reachable : (empty 3).Reachable := ⟨3, [], rfl⟩
  obtain ⟨-, back, ⟨callers, top, -, paths, counts⟩, timed⟩ :=
    replay_balanced reachable calls roomy
  obtain ⟨-, flat, exists'⟩ := timed 3 rfl (by decide)
  obtain ⟨entries, found⟩ := exists' (by decide) (by decide) 103 (by decide) (by decide)
  obtain ⟨nonneg, outside, alone, ticks⟩ := flat 103 entries found
  cases reachable.linked.path_unique top .root
  obtain ⟨id, leads⟩ := (paths [{ raw := 6 }, { raw := 4 }]).mpr (.inr (by decide))
  refine ⟨by decide, roomy, back, by decide +kernel, ⟨id, leads, counts id _ leads⟩, entries, found,
    nonneg, ?_⟩
  rw [alone, List.map_singleton, ticks]
  rfl

end CallTree
end CilProfiler

import CilProfiler.Proofs.Snapshot.ByPath
import CilProfiler.Proofs.Snapshot.Reordered
import CilProfiler.Proofs.Trace.Renewal

/-! # Snapshots after a clear

The paths that a cleared tree has kept have no completed calls, so that no snapshot shows them. But
their handles are still in the child tables, which may be wider than those of a new tree and have
their slots in another order. This order shows where siblings have equal ticks, and in nothing else
that is told: only a sum of own ticks that does not fit may be met on one way and not on the other.
-/

namespace CilProfiler

/-- The machines count the same calls, under the same methods. -/
structure PathMachine.Agrees (machine other : PathMachine) : Prop where
  calls : ∀ path, other.callsOf path = machine.callsOf path
  ticks : ∀ path, other.ticksOf path = machine.ticksOf path
  method : ∀ path, 0 < machine.callsOf path →
    (other.records path).map (·.method) = (machine.records path).map (·.method)

open PathMachine

/-- After a clear the same is counted as from the beginning, if no path that was known before is
    first started with another method. -/
theorem PathMachine.Resumes.agrees {machine old fresh : PathMachine}
    (resumes : machine.Resumes old fresh) (silent : old.Silent)
    (named : ∀ path older record, old.records path = some older → fresh.records path = some record →
      record.method = older.method) : fresh.Agrees machine where
  calls path := resumes.callsOf silent path
  ticks path := resumes.ticksOf silent path
  method path counted := by
    cases held : fresh.records path with
    | none => simp [PathMachine.callsOf, held] at counted
    | some record =>
        rw [resumes.of_some held]
        cases older : old.records path with
        | none => rfl
        | some older' => simp [PathRecord.under, named path older' record older held]

/-- Methods of paths that were not started need no comparison. -/
theorem PathMachine.Formed.methods_eq {fresh : PathMachine} (formed : fresh.Formed)
    (old : PathMachine)
    (same : ∀ path ∈ fresh.started, ∀ older ∈ old.records path, ∀ record ∈ fresh.records path,
      record.method = older.method) (path : CallPath) (older record : PathRecord)
    (held : old.records path = some older) (held' : fresh.records path = some record) :
    record.method = older.method := by
  have started := (formed.record path).mp (Option.isSome_iff_exists.mpr ⟨record, held'⟩)
  exact same path started older held record held'

namespace CallTree

variable {tree other : CallTree} {machine machine' : PathMachine} {path : CallPath}
  {reading elapsed : Ticks}

namespace Recalls

variable (recalls : tree.Recalls machine) (recalls' : other.Recalls machine')
  (agrees : machine.Agrees machine')
include recalls recalls' agrees

theorem visibleCallees_perm (known : path ∈ machine.known) (known' : path ∈ machine'.known) :
    (other.visibleCallees machine' path).Perm (tree.visibleCallees machine path) := by
  rw [List.perm_ext_iff_of_nodup (recalls'.nodup_visibleCallees path)
    (recalls.nodup_visibleCallees path)]
  intro handle
  rw [recalls.mem_visibleCallees known, recalls'.mem_visibleCallees known', agrees.calls]

/-- Paths are shown with the same numbers, and siblings in the same order but for ties. -/
theorem reordered_shownAt (elapsed : Ticks) (known : path ∈ machine.known)
    (known' : path ∈ machine'.known) (stats : machine'.statsOf elapsed path =
      machine.statsOf elapsed path) :
    (tree.shownAt machine elapsed path).Reordered (other.shownAt machine' elapsed path) := by
  revert known' stats
  refine recalls.path_induction known fun path known ih known' stats => ?_
  have whole : tree.shownAt machine elapsed path = ⟨_, _⟩ :=
    congrArg₂ ProfileNode.mk (recalls.stats_shownAt known) (recalls.children_shownAt known)
  have whole' : other.shownAt machine' elapsed path = ⟨_, _⟩ :=
    congrArg₂ ProfileNode.mk (recalls'.stats_shownAt known') (recalls'.children_shownAt known')
  rw [whole, whole', stats]
  refine ProfileNode.reordered_sortSiblings
    (recalls.visibleCallees_perm recalls' agrees known known') (fun handle member => ?_) _
  have counted := (recalls.mem_visibleCallees known).mp member
  refine ih handle counted (recalls'.formed.known_of_callsOf (agrees.calls _ ▸ counted)) ?_
  simp only [statsOf, agrees.calls, agrees.ticks, agrees.method _ counted]

theorem reordered_root (elapsed : Ticks) :
    (tree.shownAt machine elapsed []).Reordered (other.shownAt machine' elapsed []) := by
  refine recalls.reordered_shownAt recalls' agrees elapsed (List.mem_cons_self ..)
    (List.mem_cons_self ..) ?_
  simp only [statsOf, agrees.calls, agrees.ticks, recalls.formed.records_nil,
    recalls'.formed.records_nil]

theorem methodTally_perm {tally tally' : MethodTally} (tallied : tree.methodTally = .ok tally)
    (tallied' : other.methodTally = .ok tally') : tally'.Perm tally := by
  have outlines := (recalls.reordered_root recalls' agrees 0).preorders_perm
  rw [← hierarchyBelow_root, ← hierarchyBelow_root] at outlines
  exact (recalls.linked.tallies 0 tallied).perm (recalls'.linked.tallies 0 tallied') outlines

/-- Flat lists are the same in whatever order the tallies hold their methods. -/
theorem listed_eq {tally tally' shuffled shuffled' : MethodTally} {entries entries' : List CallStats}
    (tallied : tree.methodTally = .ok tally) (tallied' : other.methodTally = .ok tally')
    (first : shuffled.Perm tally) (second : shuffled'.Perm tally')
    (found : listed elapsed shuffled = .ok entries)
    (found' : listed elapsed shuffled' = .ok entries') : entries' = entries := by
  have same : tally'.Perm tally := recalls.methodTally_perm recalls' agrees tallied tallied'
  have distinct := ((recalls.linked.tallies elapsed tallied).of_perm first).nodup
  exact listed_eq_of_perm distinct ((second.trans same).trans first.symm) found found'

variable (since : other.since = tree.since)
include since

theorem hierarchy_reordered (reading : Ticks) :
    Option.Rel ProfileNode.Reordered (tree.hierarchy reading).toOption
      (other.hierarchy reading).toOption := by
  rw [recalls.hierarchy_eq, recalls'.hierarchy_eq, elapsedAt, elapsedAt, since]
  cases Ticks.sub reading tree.since with
  | error cause => exact .none
  | ok elapsed =>
      have reordered := recalls.reordered_root recalls' agrees elapsed
      exact .some (reordered.withStats _)

end Recalls

/-- Stacks are folded alike from snapshots that are the same but for ties. -/
theorem foldedStacks_of_rel {shown shown' : Except Overflow ProfileNode}
    (reordered : Option.Rel ProfileNode.Reordered shown.toOption shown'.toOption) :
    (shown' >>= ProfileNode.foldedStacks).toOption = (shown >>= ProfileNode.foldedStacks).toOption := by
  cases shown with
  | error cause =>
      cases shown' with
      | error cause' => rfl
      | ok root' => cases reordered
  | ok root =>
      cases shown' with
      | error cause' => cases reordered
      | ok root' =>
          cases reordered with
          | some alike => exact alike.foldedStacks_eq

/-- A clear of an idle tree keeps its nodes, their links and tables and the cursor, and zeroes what
    they have counted. From then on the tree behaves like a new one whose elapsed time began at the
    clear, as long as no path that it has kept is first started with another method: it refuses the
    same events for the same reasons, and the hierarchical snapshots are the same up to the order of
    siblings with equal ticks, so that the folded stacks are the same. So are the flat snapshots, in
    whatever order a tally holds its methods, if none of the sums that they are made of overflows. -/
theorem clear_replay_renews (start cleared : Ticks) (earlier later : List TraceEvent) :
    let before := replay CallTree.step (empty start) earlier
    let run := replay CallTree.step (before.2.clear cleared) later
    let fresh := replay CallTree.step (empty cleared) later
    before.2.isIdle →
    (∀ path old new, (history earlier before.1).records path = some old →
      (history later fresh.1).records path = some new → new.method = old.method) →
    ((before.2.clear cleared).cursor = before.2.cursor ∧
      (before.2.clear cleared).since = cleared ∧
      ∀ id, (before.2.clear cleared).node? id =
        (before.2.node? id).map fun node => { node with calls := 0, ticks := 0 }) ∧
    run.1.map TraceAnswer.refusal? = fresh.1.map TraceAnswer.refusal? ∧
    (∀ reading,
      Option.Rel ProfileNode.Reordered (fresh.2.hierarchy reading).toOption
        (run.2.hierarchy reading).toOption ∧
      (run.2.hierarchy reading >>= ProfileNode.foldedStacks).toOption =
        (fresh.2.hierarchy reading >>= ProfileNode.foldedStacks).toOption ∧
      ∀ entries entries', run.2.flatList reading = .ok entries →
        fresh.2.flatList reading = .ok entries' → entries = entries') ∧
    ∀ tally tally', run.2.methodTally = .ok tally → fresh.2.methodTally = .ok tally' →
      ∀ shuffled shuffled', shuffled.Perm tally → shuffled'.Perm tally' →
        ∀ elapsed entries entries', listed elapsed shuffled = .ok entries →
          listed elapsed shuffled' = .ok entries' → entries = entries' := by
  intro before run fresh idle named
  let old := (history earlier before.1).clear
  have silent : old.Silent := silent_clear _
  have remembered := recalls_history start earlier
  have recalls : (before.2.clear cleared).Recalls old := (remembered.step (.clear cleared) rfl).2
  have resumed : old.Resumes old {} :=
    resumes_initial ((remembered.represents.isIdle_iff remembered.formed).mp idle)
  obtain ⟨answers, resumes⟩ :=
    recalls.replay_resumes (recalls_empty cleared) resumed silent later
  have last := recalls.replay later
  have last' : fresh.2.Recalls (history later fresh.1) := recalls_history cleared later
  have agrees : (history later fresh.1).Agrees _ :=
    resumes.agrees silent fun path older record held held' => by
      obtain ⟨first, there, rfl⟩ := Option.map_eq_some_iff.mp held
      exact named path first record there held'
  have begun : (before.2.clear cleared).since = (empty cleared).since := rfl
  have since : run.2.since = fresh.2.since := since_replay begun later
  refine ⟨⟨rfl, rfl, fun id => Array.getElem?_map ..⟩, answers, fun reading => ?_, ?_⟩
  · have reordered := last'.hierarchy_reordered last agrees since reading
    refine ⟨reordered, foldedStacks_of_rel reordered, fun entries entries' flat flat' => ?_⟩
    obtain ⟨-, tally, tallied, found⟩ := flatList_eq_ok flat
    obtain ⟨-, tally', tallied', found'⟩ := flatList_eq_ok flat'
    rw [since] at found
    exact last'.listed_eq last agrees tallied' tallied (.refl _) (.refl _) found' found
  · intro tally tally' tallied tallied' shuffled shuffled' first second elapsed entries entries'
      found found'
    exact last'.listed_eq last agrees tallied' tallied second first found' found

/-- A call that is made only before the clear, and one that is made again. -/
def openingTrace (load first : Handle) : List TraceEvent :=
  let generic : MethodName := ⟨"App", "Run", ["T"], []⟩
  [ .start load ⟨"App", "Load", [], []⟩,
    .finish load 8,
    .start first (generic.instantiation ["A"]),
    .finish first 3 ]

/-- Three instances of a method, each with a handle of its own. -/
def instancesTrace (first second third : Handle) (ticks back : Ticks) : List TraceEvent :=
  let generic : MethodName := ⟨"App", "Run", ["T"], []⟩
  [ .start first (generic.instantiation ["A"]),
    .finish first ticks,
    .start second (generic.instantiation ["B"]),
    .finish third 1,
    .finish second ticks,
    .start third (generic.instantiation ["C"]),
    .finish third back ]

theorem instancesTrace_renews :
    let earlier := openingTrace { raw := 4 } { raw := 1 }
    let before := replay CallTree.step (empty 0) earlier
    let later := instancesTrace { raw := 1 } { raw := 2 } { raw := 3 } 5 5
    let run := replay CallTree.step (before.2.clear 10) later
    let fresh := replay CallTree.step (empty 10) later
    before.2.isIdle ∧
      run.2.callees root = [{ raw := 4 }, { raw := 1 }, { raw := 2 }, { raw := 3 }] ∧
      fresh.2.callees root = [{ raw := 3 }, { raw := 1 }, { raw := 2 }] ∧
      run.1.map TraceAnswer.refusal? = fresh.1.map TraceAnswer.refusal? ∧
      ∃ entries, run.2.flatList 40 = .ok entries ∧ fresh.2.flatList 40 = .ok entries := by
  intro earlier before later run fresh
  have idle : before.2.isIdle := by decide +kernel
  have named := (recalls_history 10 later).formed.methods_eq (history earlier before.1)
    (by decide +kernel)
  obtain ⟨-, answers, same, -⟩ := clear_replay_renews 0 10 earlier later idle named
  obtain ⟨entries, flat⟩ : ∃ entries, run.2.flatList 40 = .ok entries :=
    Outcome.exists_of_isOk (by decide +kernel)
  obtain ⟨entries', flat'⟩ : ∃ entries, fresh.2.flatList 40 = .ok entries :=
    Outcome.exists_of_isOk (by decide +kernel)
  have equal := (same 40).2.2 entries entries' flat flat'
  exact ⟨idle, by decide +kernel, by decide +kernel, answers, entries, flat, equal ▸ flat'⟩

/-- In the slots of the cleared tree the own ticks of the instances overflow on the way to a sum
    that fits, and in those of the new tree they do not. -/
theorem clear_flatList_overflows :
    let earlier := openingTrace { raw := 4 } { raw := 1 }
    let before := replay CallTree.step (empty 0) earlier
    let later := instancesTrace { raw := 1 } { raw := 2 } { raw := 3 }
      (Ticks.bound - 1) (1 - Ticks.bound)
    let run := replay CallTree.step (before.2.clear 10) later
    let fresh := replay CallTree.step (empty 10) later
    before.2.isIdle ∧
      (∀ path old new, (history earlier before.1).records path = some old →
        (history later fresh.1).records path = some new → new.method = old.method) ∧
      (∃ entries, fresh.2.flatList 10 = .ok entries) ∧
      ¬∃ entries, run.2.flatList 10 = .ok entries := by
  intro earlier before later run fresh
  have named := (recalls_history 10 later).formed.methods_eq (history earlier before.1)
    (by decide +kernel)
  have failed : (run.2.flatList 10).isOk = false := by decide +kernel
  refine ⟨by decide +kernel, named, Outcome.exists_of_isOk (by decide +kernel), ?_⟩
  rintro ⟨entries, flat⟩
  rw [flat] at failed
  cases failed

end CallTree
end CilProfiler

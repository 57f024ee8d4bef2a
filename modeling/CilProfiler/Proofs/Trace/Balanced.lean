import CilProfiler.Proofs.Trace.History

/-! # Balanced traces

The calls of a thread are nested: whatever a call makes is finished before the call is. Reported in
that order, calls lead back to where they began, and each of them is counted for its own path, the
callers at the beginning included.
-/

namespace CilProfiler

/-- Calls that are made one after another, each with the calls that it makes itself. -/
inductive TracedCalls where
  | done
  | call (handle : Handle) (method : MethodName) (elapsed : Ticks) (nested later : TracedCalls)

namespace TracedCalls

/-- What is reported while the calls are made. -/
def events : TracedCalls → List TraceEvent
  | .done => []
  | .call handle method elapsed nested later =>
      .start handle method :: (nested.events ++ .finish handle elapsed :: later.events)

/-- Path and elapsed time of each call, if the calls are made from the given callers. -/
def visits (callers : CallPath) : TracedCalls → List (CallPath × Ticks)
  | .done => []
  | .call handle _ elapsed nested later =>
      (handle :: callers, elapsed) :: (nested.visits (handle :: callers) ++ later.visits callers)

/-- Elapsed time of the calls, the calls that they make not counted again. -/
def elapsed : TracedCalls → Ticks
  | .done => 0
  | .call _ _ elapsed _ later => elapsed + later.elapsed

/-- No call ends before the calls that it makes, and none lasts less than no time. -/
def WellTimed : TracedCalls → Prop
  | .done => True
  | .call _ _ elapsed nested later =>
      0 ≤ elapsed ∧ nested.elapsed ≤ elapsed ∧ nested.WellTimed ∧ later.WellTimed

instance decidableWellTimed : (calls : TracedCalls) → Decidable calls.WellTimed
  | .done => inferInstanceAs (Decidable True)
  | .call _ _ elapsed nested later =>
      have := decidableWellTimed nested
      have := decidableWellTimed later
      inferInstanceAs (Decidable (0 ≤ elapsed ∧ nested.elapsed ≤ elapsed ∧ _ ∧ _))

end TracedCalls

/-- Elapsed times of the visits to a path. -/
def timesOf (path : CallPath) (visits : List (CallPath × Ticks)) : List Ticks :=
  (visits.filter (·.1 = path)).map Prod.snd

theorem timesOf_append (path : CallPath) (visits later : List (CallPath × Ticks)) :
    timesOf path (visits ++ later) = timesOf path visits ++ timesOf path later := by
  simp [timesOf]

theorem timesOf_cons (path : CallPath) (visit : CallPath × Ticks)
    (visits : List (CallPath × Ticks)) :
    timesOf path (visit :: visits) = timesOf path [visit] ++ timesOf path visits :=
  timesOf_append path [visit] visits

theorem timesOf_ne_nil {path : CallPath} {visits : List (CallPath × Ticks)} :
    timesOf path visits ≠ [] ↔ path ∈ visits.map Prod.fst := by
  simp [timesOf, List.filter_eq_nil_iff]

theorem replay_append {σ : Type} (step : σ → TraceEvent → TraceAnswer × σ) (state : σ)
    (events later : List TraceEvent) :
    replay step state (events ++ later) =
      ((replay step state events).1 ++ (replay step (replay step state events).2 later).1,
        (replay step (replay step state events).2 later).2) := by
  induction events generalizing state with
  | nil => rfl
  | cons event rest ih => simp only [List.cons_append, replay, ih]

namespace PathMachine

variable {machine next last : PathMachine} {handle : Handle} {method : MethodName}
  {elapsed : Ticks} {path : CallPath} {visits later : List (CallPath × Ticks)}

theorem callsOf_start (machine : PathMachine) (handle : Handle) (method : MethodName)
    (path : CallPath) : (machine.start handle method).callsOf path = machine.callsOf path := by
  rcases machine.records_start_cases handle method path with same | ⟨absent, new⟩
  · rw [callsOf, same, callsOf]
  · rw [callsOf, new, callsOf, absent]
    rfl

theorem ticksOf_start (machine : PathMachine) (handle : Handle) (method : MethodName)
    (path : CallPath) : (machine.start handle method).ticksOf path = machine.ticksOf path := by
  rcases machine.records_start_cases handle method path with same | ⟨absent, new⟩
  · rw [ticksOf, same, ticksOf]
  · rw [ticksOf, new, ticksOf, absent]
    rfl

theorem active_start (machine : PathMachine) (handle : Handle) (method : MethodName) :
    (machine.start handle method).active = handle :: machine.active := by
  simp only [start]
  split <;> rfl

theorem Formed.mem_known_start (formed : machine.Formed) :
    path ∈ (machine.start handle method).known ↔
      path ∈ machine.known ∨ path = handle :: machine.active := by
  by_cases seen : handle :: machine.active ∈ machine.started
  · rw [start_of_known seen formed]
    refine (or_iff_left_of_imp ?_).symm
    rintro rfl
    exact List.mem_cons_of_mem _ seen
  · rw [known_start_of_new seen formed, List.mem_append, List.mem_singleton]

/-- A finish counts one call more for the active path, and its elapsed time. -/
theorem Formed.counts_finish (formed : machine.Formed) {callers : CallPath}
    (active : machine.active = handle :: callers) (elapsed : Ticks) (path : CallPath) :
    (machine.finish elapsed).callsOf path =
        machine.callsOf path + (timesOf path [(machine.active, elapsed)]).length ∧
      (machine.finish elapsed).ticksOf path =
        machine.ticksOf path + (timesOf path [(machine.active, elapsed)]).sum := by
  by_cases here : path = machine.active
  · obtain ⟨record, held⟩ := Option.isSome_iff_exists.mp
      ((formed.record _).mpr (formed.active_started active))
    simp [here, timesOf, callsOf, ticksOf, records_finish_active, held, PathRecord.credit]
  · simp [timesOf, Ne.symm here, callsOf, ticksOf, records_finish_of_ne here]

/-- Between two states paths were visited, and nothing else has changed. -/
structure Visits (machine next : PathMachine) (visits : List (CallPath × Ticks)) : Prop where
  active : next.active = machine.active
  known : ∀ path, path ∈ next.known ↔ path ∈ machine.known ∨ path ∈ visits.map Prod.fst
  calls : ∀ path, next.callsOf path = machine.callsOf path + (timesOf path visits).length
  ticks : ∀ path, next.ticksOf path = machine.ticksOf path + (timesOf path visits).sum

namespace Visits

theorem refl (machine : PathMachine) : machine.Visits machine [] where
  active := rfl
  known path := by simp
  calls path := rfl
  ticks path := (Int.add_zero _).symm

theorem append (first : machine.Visits next visits) (second : next.Visits last later) :
    machine.Visits last (visits ++ later) where
  active := second.active.trans first.active
  known path := by rw [second.known, first.known, List.map_append, List.mem_append, or_assoc]
  calls path := by
    rw [second.calls, first.calls, timesOf_append, List.length_append, Nat.add_assoc]
  ticks path := by rw [second.ticks, first.ticks, timesOf_append, List.sum_append, Int.add_assoc]

/-- A call visits its path, and all that is visited until it is finished. -/
theorem call (formed : machine.Formed) (formed' : next.Formed)
    (inner : (machine.start handle method).Visits next visits) (elapsed : Ticks) :
    machine.Visits (next.finish elapsed) ((handle :: machine.active, elapsed) :: visits) := by
  have active : next.active = handle :: machine.active := inner.active.trans (active_start ..)
  have counts := formed'.counts_finish active elapsed
  rw [active] at counts
  refine ⟨?_, fun path => ?_, fun path => ?_, fun path => ?_⟩
  · rw [finish, active, List.tail_cons]
  · have same : path ∈ (next.finish elapsed).known ↔ path ∈ next.known := Iff.rfl
    rw [same, inner.known, formed.mem_known_start, List.map_cons, List.mem_cons, or_assoc]
  · rw [(counts path).1, inner.calls, callsOf_start, timesOf_cons path _ visits,
      List.length_append, add_assoc, add_comm (timesOf path visits).length]
  · rw [(counts path).2, inner.ticks, ticksOf_start, timesOf_cons path _ visits,
      List.sum_append, add_assoc, add_comm (timesOf path visits).sum]

end Visits

/-- Balanced calls lead back to the active path, and are counted for their paths. -/
theorem Formed.visits_replay (formed : machine.Formed) (calls : TracedCalls) :
    let run := CilProfiler.replay PathMachine.step machine calls.events
    (∀ answer ∈ run.1, answer.refusal? = none) ∧
      machine.Visits run.2 (calls.visits machine.active) := by
  induction calls generalizing machine with
  | done => exact ⟨by simp [TracedCalls.events, CilProfiler.replay], .refl machine⟩
  | call handle method elapsed nested later ihNested ihLater =>
      obtain ⟨accepted, inner⟩ := ihNested (formed.start handle method)
      have formed' := (formed.start handle method).replay nested.events
      rw [active_start] at inner
      have top := congrArg List.head? (inner.active.trans (active_start machine handle method))
      rw [List.head?_cons] at top
      have visited := Visits.call formed formed' inner elapsed
      obtain ⟨accepted', outer⟩ := ihLater (formed'.finish elapsed)
      rw [visited.active] at outer
      simp only [TracedCalls.events, CilProfiler.replay, replay_append, PathMachine.step,
        if_pos top]
      refine ⟨?_, visited.append outer⟩
      simp only [List.forall_mem_cons, List.forall_mem_append]
      exact ⟨rfl, accepted, rfl, accepted'⟩

end PathMachine

open PathMachine

namespace CallTree

variable {tree : CallTree} {machine next : PathMachine} {path : CallPath}

theorem since_replay_calls (tree : CallTree) (calls : TracedCalls) :
    (replay CallTree.step tree calls.events).2.since = tree.since := by
  induction calls generalizing tree with
  | done => rfl
  | call handle method elapsed nested later ihNested ihLater =>
      simp only [TracedCalls.events, replay, replay_append, ihNested, ihLater, since_step]

namespace Recalls

variable (recalls : tree.Recalls machine)
include recalls

/-- Behind balanced calls, if no counter overflows, the tree recalls their visits. -/
theorem replay_calls (calls : TracedCalls)
    (roomy : ∀ answer ∈ (CilProfiler.replay CallTree.step tree calls.events).1,
      ∀ cause, answer ≠ .refused (.overflow cause)) :
    let run := CilProfiler.replay CallTree.step tree calls.events
    (∀ answer ∈ run.1, answer.refusal? = none) ∧
      ∃ next, run.2.Recalls next ∧ machine.known <+: next.known ∧
        machine.Visits next (calls.visits machine.active) := by
  obtain ⟨answers, last⟩ := recalls.replay_of_roomy calls.events roomy
  obtain ⟨accepted, visited⟩ := recalls.formed.visits_replay calls
  exact ⟨answers ▸ accepted, _, last, (recalls.formed.entered_replay calls.events).1, visited⟩

/-- A tree has counted nothing yet for paths that are known later only. -/
theorem counters_of_prefix (grown : machine.known <+: next.known) (path : CallPath) :
    tree.counters (next.nodeOf path) = (machine.callsOf path, machine.ticksOf path) := by
  by_cases before : path ∈ machine.known
  · rw [Formed.nodeOf_of_prefix grown before, recalls.counters_nodeOf before]
  · have outside : ¬(next.nodeOf path).index < tree.nodes.size := by
      intro inside
      obtain ⟨other, there, same⟩ := recalls.exists_nodeOf inside
      rw [← Formed.nodeOf_of_prefix grown there] at same
      cases Formed.nodeOf_injective (grown.subset there) same
      exact before there
    have absent : machine.records path = none := by
      cases held : machine.records path with
      | none => rfl
      | some record => exact absurd (recalls.formed.mem_known.mpr (.inr (by rw [held]; rfl))) before
    rw [counters_of_outside outside, callsOf, ticksOf, absent]
    rfl

end Recalls
end CallTree
end CilProfiler

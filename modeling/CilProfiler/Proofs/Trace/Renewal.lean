import CilProfiler.Proofs.Trace.History

/-! # Life after a clear

A clear leaves the paths of a call tree where they are, with nothing counted for them. The tree
then goes on like a new one that has not met these paths yet: it knows more of them, but it never
counts more, and it refuses the same events for the same reasons. The one thing that it has not
forgotten is the method that a path was first started with.
-/

namespace CilProfiler

namespace PathRecord

/-- The counters of a record under the method of an older one, if there is one. -/
def under (record : PathRecord) (older : Option PathRecord) : PathRecord :=
  { record with method := (older.map (·.method)).getD record.method }

end PathRecord

namespace PathMachine

variable {machine old fresh : PathMachine} {handle : Handle} {method : MethodName}
  {elapsed : Ticks} {path : CallPath} {record : PathRecord}

/-- Nothing has been counted since the last clear. -/
def Silent (machine : PathMachine) : Prop :=
  ∀ path, ∀ record ∈ machine.records path, record.clear = record

theorem silent_clear (machine : PathMachine) : machine.clear.Silent := by
  intro path record held
  obtain ⟨_, -, rfl⟩ := Option.map_eq_some_iff.mp held
  rfl

/-- The machine knows what the fresh one knows, and the paths of the old one. -/
structure Resumes (machine old fresh : PathMachine) : Prop where
  active : machine.active = fresh.active
  records : ∀ path, machine.records path =
    (fresh.records path).elim (old.records path) fun record => some (record.under (old.records path))

theorem resumes_initial (idle : old.active = []) : old.Resumes old {} where
  active := idle
  records _ := rfl

namespace Resumes

theorem of_some (resumes : machine.Resumes old fresh) (held : fresh.records path = some record) :
    machine.records path = some (record.under (old.records path)) := by
  rw [resumes.records, held, Option.elim_some]

theorem of_none (resumes : machine.Resumes old fresh) (absent : fresh.records path = none) :
    machine.records path = old.records path := by
  rw [resumes.records, absent, Option.elim_none]

/-- Counters are told alike: an old record that has not been started again has counted nothing. -/
theorem elim_eq {α : Type} (resumes : machine.Resumes old fresh) (silent : old.Silent)
    {read : PathRecord → α} {nothing : α} (counted : ∀ record older, read (.under record older) =
      read record) (cleared : ∀ record, read (.clear record) = nothing) (path : CallPath) :
    (machine.records path).elim nothing read = (fresh.records path).elim nothing read := by
  cases held : fresh.records path with
  | some record => exact resumes.of_some held ▸ counted record _
  | none =>
      rw [resumes.of_none held]
      cases older : old.records path with
      | none => rfl
      | some record => exact silent path record older ▸ cleared record

theorem callsOf (resumes : machine.Resumes old fresh) (silent : old.Silent) (path : CallPath) :
    machine.callsOf path = fresh.callsOf path :=
  resumes.elim_eq silent (fun _ _ => rfl) (fun _ => rfl) path

theorem ticksOf (resumes : machine.Resumes old fresh) (silent : old.Silent) (path : CallPath) :
    machine.ticksOf path = fresh.ticksOf path :=
  resumes.elim_eq silent (fun _ _ => rfl) (fun _ => rfl) path

/-- A path that is new to the fresh machine may have an old record, which is an empty one. -/
theorem start (resumes : machine.Resumes old fresh) (silent : old.Silent) (handle : Handle)
    (method : MethodName) :
    (machine.start handle method).Resumes old (fresh.start handle method) := by
  have same := resumes.active
  cases held : fresh.records (handle :: fresh.active) with
  | some record =>
      have held' := resumes.of_some held
      simp only [PathMachine.start, same, held, held']
      exact ⟨rfl, resumes.records⟩
  | none =>
      have held' := resumes.of_none held
      cases older : old.records (handle :: fresh.active) with
      | some record =>
          rw [older] at held'
          simp only [PathMachine.start, same, held, held']
          refine ⟨rfl, fun path => ?_⟩
          by_cases here : path = handle :: fresh.active
          · subst here
            simp only [Function.update_self, Option.elim_some, held', older]
            exact congrArg some (silent _ record older).symm
          · simp only [Function.update_of_ne here]
            exact resumes.records path
      | none =>
          rw [older] at held'
          simp only [PathMachine.start, same, held, held']
          refine ⟨rfl, fun path => ?_⟩
          by_cases here : path = handle :: fresh.active
          · subst here
            simp only [Function.update_self, Option.elim_some, older]
            rfl
          · simp only [Function.update_of_ne here]
            exact resumes.records path

theorem finish (resumes : machine.Resumes old fresh) (formed : fresh.Formed)
    (top : fresh.active.head? = some handle) (elapsed : Ticks) :
    (machine.finish elapsed).Resumes old (fresh.finish elapsed) := by
  obtain ⟨callers, active⟩ := List.head?_eq_some_iff.mp top
  obtain ⟨record, held⟩ := Option.isSome_iff_exists.mp
    ((formed.record _).mpr (formed.active_started active))
  have held' := resumes.of_some held
  refine ⟨congrArg List.tail resumes.active, fun path => ?_⟩
  by_cases here : path = fresh.active
  · rw [here, records_finish_active, held, ← resumes.active, records_finish_active,
      resumes.active, held']
    rfl
  · rw [records_finish_of_ne here, records_finish_of_ne (resumes.active ▸ here)]
    exact resumes.records path

theorem clear (resumes : machine.Resumes old fresh) (silent : old.Silent) :
    machine.clear.Resumes old fresh.clear := by
  refine ⟨resumes.active, fun path => ?_⟩
  simp only [PathMachine.clear]
  cases held : fresh.records path with
  | some record =>
      rw [resumes.of_some held]
      rfl
  | none =>
      rw [resumes.of_none held]
      cases older : old.records path with
      | none => rfl
      | some record => exact congrArg some (silent path record older)

theorem step (resumes : machine.Resumes old fresh) (silent : old.Silent) (formed : fresh.Formed)
    (event : TraceEvent) : (machine.step event).2.Resumes old (fresh.step event).2 := by
  cases event with
  | start handle method => exact resumes.start silent handle method
  | finish handle elapsed =>
      by_cases top : fresh.active.head? = some handle
      · simp only [PathMachine.step, resumes.active, if_pos top]
        exact resumes.finish formed top elapsed
      · simp only [PathMachine.step, resumes.active, if_neg top]
        exact resumes
  | clear reading => exact resumes.clear silent

end Resumes
end PathMachine

open PathMachine

/-- Reason for which a node refuses a finish. -/
def CallNode.refusal? (node : CallNode) (handle : Handle) (elapsed : Ticks) : Option FinishError :=
  match node.credit handle elapsed with
  | .ok _ => none
  | .error reason => some reason

/-- A refusal shows the handle and the counters of the node, and nothing else of it. -/
theorem CallNode.refusal?_congr {node other : CallNode} (named : other.handle = node.handle)
    (calls : other.calls = node.calls) (ticks : other.ticks = node.ticks) (handle : Handle)
    (elapsed : Ticks) : other.refusal? handle elapsed = node.refusal? handle elapsed := by
  simp only [refusal?, credit, named, calls, ticks]
  by_cases active : node.handle = some handle
  · rw [if_pos active, if_pos active]
    cases Count.add node.calls 1 <;> cases Ticks.add node.ticks elapsed <;> rfl
  · rw [if_neg active, if_neg active]

namespace CallTree

variable {tree other : CallTree} {machine old fresh : PathMachine} {node : CallNode}

theorem refusal?_finish (found : tree.node? tree.cursor = some node) (handle : Handle)
    (elapsed : Ticks) :
    (tree.step (.finish handle elapsed)).1.refusal? = node.refusal? handle elapsed := by
  simp only [CallTree.step, leave, found, CallNode.refusal?]
  cases node.credit handle elapsed <;> rfl

namespace Recalls

/-- An event is refused by both trees or by none, and for the same reason. -/
theorem refusal?_eq (recalls : tree.Recalls machine) (recalls' : other.Recalls fresh)
    (resumes : machine.Resumes old fresh) (silent : old.Silent) (event : TraceEvent) :
    (tree.step event).1.refusal? = (other.step event).1.refusal? := by
  cases event with
  | start handle method => rfl
  | clear reading => rfl
  | finish handle elapsed =>
      obtain ⟨node, found, shows⟩ := recalls.represents.active_node recalls.formed
      obtain ⟨node', found', shows'⟩ := recalls'.represents.active_node recalls'.formed
      rw [refusal?_finish found, refusal?_finish found']
      refine CallNode.refusal?_congr ?_ ?_ ?_ handle elapsed
      · rw [shows.handle, shows'.handle, resumes.active]
      · rw [shows.calls, shows'.calls, resumes.active]
        exact resumes.callsOf silent fresh.active
      · rw [shows.ticks, shows'.ticks, resumes.active]
        exact resumes.ticksOf silent fresh.active

/-- Two trees of which one resumes the other go on alike. -/
theorem replay_resumes (recalls : tree.Recalls machine) (recalls' : other.Recalls fresh)
    (resumes : machine.Resumes old fresh) (silent : old.Silent) (events : List TraceEvent) :
    let run := CilProfiler.replay CallTree.step tree events
    let run' := CilProfiler.replay CallTree.step other events
    run.1.map TraceAnswer.refusal? = run'.1.map TraceAnswer.refusal? ∧
      PathMachine.Resumes (CilProfiler.replay PathMachine.step machine (recorded events run.1)).2 old
        (CilProfiler.replay PathMachine.step fresh (recorded events run'.1)).2 := by
  induction events generalizing tree other machine fresh with
  | nil => exact ⟨rfl, resumes⟩
  | cons event rest ih =>
      have same := recalls.refusal?_eq recalls' resumes silent event
      simp only [CilProfiler.replay, recorded, List.map_cons, same]
      by_cases kept : (other.step event).1.refusal? = none
      · rw [if_pos kept, if_pos kept]
        obtain ⟨answers, later⟩ := ih (recalls.step event (same.trans kept)).2
          (recalls'.step event kept).2 (resumes.step silent recalls'.formed event)
        exact ⟨congrArg _ answers, later⟩
      · rw [if_neg kept, if_neg kept, tree.step_refused event (same ▸ kept),
          other.step_refused event kept]
        obtain ⟨answers, later⟩ := ih recalls recalls' resumes
        exact ⟨congrArg _ answers, later⟩

end Recalls
end CallTree
end CilProfiler

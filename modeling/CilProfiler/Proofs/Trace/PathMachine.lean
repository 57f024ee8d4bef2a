import CilProfiler.Trace.CallTree
import Mathlib.Logic.Function.Basic
import Mathlib.Data.List.Nodup

/-! # The path machine

What a call tree records, without an arena and without tables: a stack of active handles and a map
from handle paths to what is known of them. The machine also keeps the order in which paths were
first started, which numbers the nodes of the tree.
-/

namespace CilProfiler

/-- What is reported about a thread. -/
inductive TraceEvent where
  | start (handle : Handle) (method : MethodName)
  | finish (handle : Handle) (elapsed : Ticks)
  | clear (reading : Ticks)

/-- What is answered to an event. -/
inductive TraceAnswer where
  | entered (id : NodeIndex)
  | left (id : NodeIndex)
  | refused (reason : FinishError)
  | cleared
  deriving DecidableEq

namespace TraceAnswer

/-- Node that a start has entered. -/
def entered? : TraceAnswer → Option NodeIndex
  | .entered id => some id
  | _ => none

end TraceAnswer

/-- Answers to a list of events, and the state behind the last one. -/
def replay {σ : Type} (step : σ → TraceEvent → TraceAnswer × σ) (state : σ) :
    List TraceEvent → List TraceAnswer × σ
  | [] => ([], state)
  | event :: rest =>
      let (answer, next) := step state event
      let (answers, last) := replay step next rest
      (answer :: answers, last)

/-- An event at a call tree. A finish that is not recorded leaves the tree as it is. -/
def CallTree.step (tree : CallTree) : TraceEvent → TraceAnswer × CallTree
  | .start handle method =>
      let next := tree.enter handle method
      (.entered next.cursor, next)
  | .finish handle elapsed =>
      match tree.leave handle elapsed with
      | .ok next => (.left next.cursor, next)
      | .error reason => (.refused reason, tree)
  | .clear reading => (.cleared, tree.clear reading)

/-- Handles of a call and of its callers, innermost first. -/
abbrev CallPath := List Handle

/-- What is known of a path. -/
structure PathRecord where
  method : MethodName
  calls : Nat := 0
  ticks : Int := 0
  deriving DecidableEq

namespace PathRecord

def credit (record : PathRecord) (elapsed : Ticks) : PathRecord :=
  { record with calls := record.calls + 1, ticks := record.ticks + elapsed }

def clear (record : PathRecord) : PathRecord :=
  { record with calls := 0, ticks := 0 }

/-- The counters of a node can hold the record. -/
def Fits (record : PathRecord) : Prop :=
  record.calls < Count.bound ∧ Ticks.InRange record.ticks

instance (record : PathRecord) : Decidable record.Fits :=
  inferInstanceAs (Decidable (_ ∧ _))

end PathRecord

structure PathMachine where
  active : CallPath := []
  records : CallPath → Option PathRecord := fun _ => none
  /-- Paths in the order of their first start. -/
  started : List CallPath := []

namespace PathMachine

/-- Paths that have a node, in the order of their nodes. -/
def known (machine : PathMachine) : List CallPath :=
  [] :: machine.started

/-- Number of the node of a path. -/
def nodeOf (machine : PathMachine) (path : CallPath) : NodeIndex :=
  ⟨machine.known.idxOf path⟩

def nodeOf? (machine : PathMachine) (path : CallPath) : Option NodeIndex :=
  if path ∈ machine.known then some (machine.nodeOf path) else none

/-- The method of a path is the one that it is first started with. -/
def start (machine : PathMachine) (handle : Handle) (method : MethodName) : PathMachine :=
  let path := handle :: machine.active
  match machine.records path with
  | some _ => { machine with active := path }
  | none => {
      active := path
      records := Function.update machine.records path (some { method })
      started := machine.started ++ [path] }

def finish (machine : PathMachine) (elapsed : Ticks) : PathMachine where
  active := machine.active.tail
  records := Function.update machine.records machine.active
    ((machine.records machine.active).map (·.credit elapsed))
  started := machine.started

def clear (machine : PathMachine) : PathMachine :=
  { machine with records := fun path => (machine.records path).map (·.clear) }

def step (machine : PathMachine) : TraceEvent → TraceAnswer × PathMachine
  | .start handle method =>
      let next := machine.start handle method
      (.entered (next.nodeOf next.active), next)
  | .finish handle elapsed =>
      if machine.active.head? = some handle then
        let next := machine.finish elapsed
        (.left (next.nodeOf next.active), next)
      else (.refused (.nestingMismatch machine.active.head? handle), machine)
  | .clear _ => (.cleared, machine.clear)

/-- No counter is out of range. -/
def Fits (machine : PathMachine) : Prop :=
  ∀ path ∈ machine.started, ∀ record ∈ machine.records path, record.Fits

instance (machine : PathMachine) : Decidable machine.Fits :=
  inferInstanceAs (Decidable (∀ path ∈ machine.started, _))

/-- Paths of the start events of a trace, with repetitions. -/
def starts (machine : PathMachine) : List TraceEvent → List CallPath
  | [] => []
  | event :: rest =>
      let next := (machine.step event).2
      match event with
      | .start _ _ => next.active :: next.starts rest
      | _ => next.starts rest

/-- Exactly the started paths have records, and the callers of a path were started before. -/
structure Formed (machine : PathMachine) : Prop where
  nodup : machine.known.Nodup
  record : ∀ path, (machine.records path).isSome ↔ path ∈ machine.started
  callers : ∀ handle callers, handle :: callers ∈ machine.started → callers ∈ machine.known
  active : machine.active ∈ machine.known

theorem formed_initial : Formed {} where
  nodup := List.nodup_singleton _
  record path := by simp
  callers handle callers member := by cases member
  active := List.mem_singleton.mpr rfl

variable {machine : PathMachine} {path : CallPath} {handle : Handle} {method : MethodName}
  {elapsed : Ticks} {i : Nat}

theorem start_of_known (known : handle :: machine.active ∈ machine.started) (formed : machine.Formed) :
    machine.start handle method = { machine with active := handle :: machine.active } := by
  obtain ⟨record, found⟩ := Option.isSome_iff_exists.mp ((formed.record _).mpr known)
  simp [start, found]

theorem start_of_new (new : handle :: machine.active ∉ machine.started) (formed : machine.Formed) :
    machine.start handle method = {
      active := handle :: machine.active
      records := Function.update machine.records (handle :: machine.active) (some { method })
      started := machine.started ++ [handle :: machine.active] } := by
  have absent : machine.records (handle :: machine.active) = none := by
    rw [← Option.not_isSome_iff_eq_none, formed.record]
    exact new
  simp [start, absent]

theorem known_start_of_new (new : handle :: machine.active ∉ machine.started)
    (formed : machine.Formed) :
    (machine.start handle method).known = machine.known ++ [handle :: machine.active] := by
  rw [start_of_new new formed]
  rfl

/-- A start changes nothing but the record of a new path. -/
theorem records_start_cases (machine : PathMachine) (handle : Handle) (method : MethodName)
    (path : CallPath) :
    (machine.start handle method).records path = machine.records path ∨
      machine.records path = none ∧
        (machine.start handle method).records path = some { method } := by
  cases held : machine.records (handle :: machine.active) with
  | some record => simp [start, held]
  | none =>
      by_cases here : path = handle :: machine.active
      · simp [start, here, held]
      · simp [start, here, held]

theorem records_finish_active (machine : PathMachine) (elapsed : Ticks) :
    (machine.finish elapsed).records machine.active =
      (machine.records machine.active).map (·.credit elapsed) :=
  Function.update_self ..

theorem records_finish_of_ne (other : path ≠ machine.active) (elapsed : Ticks) :
    (machine.finish elapsed).records path = machine.records path :=
  Function.update_of_ne other ..

namespace Formed

theorem start (formed : machine.Formed) (handle : Handle) (method : MethodName) :
    (machine.start handle method).Formed := by
  by_cases seen : handle :: machine.active ∈ machine.started
  · rw [start_of_known seen formed]
    exact ⟨formed.nodup, formed.record, formed.callers, List.mem_cons_of_mem _ seen⟩
  · rw [start_of_new seen formed]
    refine ⟨?_, fun path => ?_, fun other callers member => ?_, ?_⟩
    · have nodup : (machine.known ++ [handle :: machine.active]).Nodup := by
        rw [List.nodup_append]
        refine ⟨formed.nodup, List.nodup_singleton _, ?_⟩
        rintro path member other last rfl
        rw [List.mem_singleton.mp last] at member
        rcases List.mem_cons.mp member with empty | started
        · cases empty
        · exact seen started
      exact nodup
    · by_cases same : path = handle :: machine.active
      · simp [same]
      · simp [same, formed.record]
    · rcases List.mem_append.mp member with old | new
      · exact List.mem_append_left [_] (formed.callers other callers old)
      · cases List.mem_singleton.mp new
        exact List.mem_append_left [_] formed.active
    · exact List.mem_append_right machine.known (List.mem_singleton.mpr rfl)

theorem finish (formed : machine.Formed) (elapsed : Ticks) : (machine.finish elapsed).Formed := by
  refine ⟨formed.nodup, fun path => ?_, formed.callers, ?_⟩
  · refine Iff.trans ?_ (formed.record path)
    by_cases same : path = machine.active
    · rw [same, records_finish_active, Option.isSome_map]
    · rw [records_finish_of_ne same]
  · have member := formed.active
    rw [PathMachine.finish]
    cases active : machine.active with
    | nil => exact List.mem_cons_self ..
    | cons handle callers =>
        rw [active] at member
        rcases List.mem_cons.mp member with empty | started
        · cases empty
        · exact formed.callers handle callers started

theorem clear (formed : machine.Formed) : machine.clear.Formed where
  nodup := formed.nodup
  record path := by simp [PathMachine.clear, formed.record]
  callers := formed.callers
  active := formed.active

theorem step (formed : machine.Formed) (event : TraceEvent) : (machine.step event).2.Formed := by
  cases event with
  | start handle method => exact formed.start handle method
  | finish handle elapsed =>
      simp only [PathMachine.step]
      split
      · exact formed.finish elapsed
      · exact formed
  | clear reading => exact formed.clear

theorem nodeOf_eq (formed : machine.Formed) (there : machine.known[i]? = some path) :
    machine.nodeOf path = ⟨i⟩ := by
  obtain ⟨inside, rfl⟩ := List.getElem?_eq_some_iff.mp there
  rw [nodeOf, formed.nodup.idxOf_getElem]

theorem getElem?_nodeOf (known : path ∈ machine.known) :
    machine.known[(machine.nodeOf path).index]? = some path :=
  List.getElem?_idxOf known

theorem nodeOf_lt (known : path ∈ machine.known) :
    (machine.nodeOf path).index < machine.known.length :=
  List.idxOf_lt_length_of_mem known

theorem nodeOf_injective {other : CallPath} (known : path ∈ machine.known)
    (same : machine.nodeOf path = machine.nodeOf other) : path = other := by
  have index : machine.known.idxOf path = machine.known.idxOf other := congrArg NodeIndex.index same
  exact (List.idxOf_inj known).mp index

/-- A path that is started has a number from then on. If it is new its number is the first that
    was free, and all other paths keep theirs. -/
theorem nodeOf?_start (formed : machine.Formed) (path : CallPath) :
    (machine.start handle method).nodeOf? path =
      if path = handle :: machine.active then
        some ((machine.nodeOf? (handle :: machine.active)).getD ⟨machine.known.length⟩)
      else machine.nodeOf? path := by
  by_cases seen : handle :: machine.active ∈ machine.started
  · have member : handle :: machine.active ∈ machine.known := List.mem_cons_of_mem _ seen
    rw [start_of_known seen formed]
    split
    · rename_i same
      rw [same]
      simp only [nodeOf?, if_pos member]
      exact if_pos member
    · rfl
  · have unknown : handle :: machine.active ∉ machine.known := by simpa [known] using seen
    simp only [nodeOf?, nodeOf, known_start_of_new seen formed]
    by_cases same : path = handle :: machine.active
    · simp [same, unknown, List.idxOf_append_of_notMem unknown]
    · by_cases member : path ∈ machine.known
      · simp [same, member, List.idxOf_append_of_mem member]
      · simp [same, member]

theorem records_start (formed : machine.Formed) (member : path ∈ machine.known) :
    (machine.start handle method).records path = machine.records path := by
  by_cases seen : handle :: machine.active ∈ machine.started
  · rw [start_of_known seen formed]
  · rw [start_of_new seen formed]
    refine Function.update_of_ne ?_ ..
    rintro rfl
    exact seen (List.mem_of_ne_of_mem (List.cons_ne_nil _ _) member)

theorem nodeOf_start (formed : machine.Formed) (member : path ∈ machine.known) :
    (machine.start handle method).nodeOf path = machine.nodeOf path := by
  by_cases seen : handle :: machine.active ∈ machine.started
  · rw [start_of_known seen formed]
    rfl
  · rw [start_of_new seen formed]
    exact congrArg NodeIndex.mk (List.idxOf_append_of_mem member)

theorem tail?_known (formed : machine.Formed) (member : path ∈ machine.known) {callers : CallPath}
    (tail : path.tail? = some callers) : callers ∈ machine.known := by
  cases path with
  | nil => cases tail
  | cons handle rest =>
      cases tail
      exact formed.callers handle callers (List.mem_of_ne_of_mem (List.cons_ne_nil _ _) member)

theorem active_started (formed : machine.Formed) {callers : CallPath}
    (active : machine.active = handle :: callers) : machine.active ∈ machine.started := by
  have member := formed.active
  rw [active] at member ⊢
  exact List.mem_of_ne_of_mem (List.cons_ne_nil _ _) member

/-- A run starts each new path once, in the order of the first start. -/
theorem started_replay (formed : machine.Formed) (events : List TraceEvent) :
    (replay PathMachine.step machine events).2.started =
      machine.started ++ ((machine.starts events).removeAll machine.started).eraseDups := by
  induction events generalizing machine with
  | nil => simp [replay, starts]
  | cons event rest ih =>
      have later := ih (formed.step event)
      cases event with
      | start handle method =>
          simp only [replay, starts, PathMachine.step] at later ⊢
          rw [later]
          by_cases seen : handle :: machine.active ∈ machine.started
          · rw [start_of_known seen formed]
            simp [List.removeAll, seen]
          · rw [start_of_new seen formed]
            simp only [List.append_assoc, List.singleton_append, List.removeAll, List.filter_cons,
              List.elem_eq_mem, seen, decide_false, Bool.not_false, if_true, List.eraseDups_cons,
              List.filter_filter]
            congr 3
            refine List.filter_congr fun path _ => ?_
            simp [Bool.and_comm, beq_eq_decide]
      | finish handle elapsed =>
          by_cases top : machine.active.head? = some handle
          · simp only [replay, starts, PathMachine.step, if_pos top] at later ⊢
            exact later
          · simp only [replay, starts, PathMachine.step, if_neg top] at later ⊢
            exact later
      | clear reading => exact later

theorem known_prefix_start (formed : machine.Formed) (handle : Handle) (method : MethodName) :
    machine.known <+: (machine.start handle method).known := by
  by_cases seen : handle :: machine.active ∈ machine.started
  · rw [start_of_known seen formed]
    exact List.prefix_rfl
  · rw [known_start_of_new seen formed]
    exact List.prefix_append ..

theorem nodeOf_of_prefix {next : PathMachine} (grown : machine.known <+: next.known)
    (member : path ∈ machine.known) : next.nodeOf path = machine.nodeOf path := by
  obtain ⟨new, same⟩ := grown
  rw [nodeOf, nodeOf, ← same, List.idxOf_append_of_mem member]

/-- The numbers that starts are answered with stay the numbers of their paths. -/
theorem entered_replay (formed : machine.Formed) (events : List TraceEvent) :
    machine.known <+: (replay PathMachine.step machine events).2.known ∧
      (replay PathMachine.step machine events).1.filterMap TraceAnswer.entered? =
        (machine.starts events).map (replay PathMachine.step machine events).2.nodeOf := by
  induction events generalizing machine with
  | nil => exact ⟨List.prefix_rfl, rfl⟩
  | cons event rest ih =>
      obtain ⟨grown, entered⟩ := ih (formed.step event)
      cases event with
      | start handle method =>
          simp only [replay, starts, PathMachine.step] at grown entered ⊢
          refine ⟨(formed.known_prefix_start handle method).trans grown, ?_⟩
          have number := nodeOf_of_prefix grown (formed.start handle method).active
          simp only [List.filterMap_cons, TraceAnswer.entered?, List.map_cons, number, entered]
      | finish handle elapsed =>
          by_cases top : machine.active.head? = some handle
          · simp only [replay, starts, PathMachine.step, if_pos top] at grown entered ⊢
            exact ⟨grown, entered⟩
          · simp only [replay, starts, PathMachine.step, if_neg top] at grown entered ⊢
            exact ⟨grown, entered⟩
      | clear reading => exact ⟨grown, entered⟩

theorem replay (formed : machine.Formed) (events : List TraceEvent) :
    (CilProfiler.replay PathMachine.step machine events).2.Formed := by
  induction events generalizing machine with
  | nil => exact formed
  | cons event rest ih => exact ih (formed.step event)

end Formed
end PathMachine
end CilProfiler

import CilProfiler.Proofs.Snapshot.ByPath
import CilProfiler.Proofs.Snapshot.Headroom
import Mathlib.Algebra.Order.BigOperators.Group.Finset
import Mathlib.Algebra.Order.Monoid.Prod
import Mathlib.Tactic.Linarith

/-! # Runs that cannot overflow

If no call lasts less than no time, and all calls since the last clear together fit, then nothing
that is computed of them overflows. The own ticks of different paths may be negative, but those of
any of them lie within what all nodes have counted, above and below: what a path has taken is taken
off one caller only.
-/

namespace CilProfiler

/-- Elapsed times that were credited since the last clear, after one event more. -/
def TraceEvent.credited (times : List Ticks) : TraceEvent → TraceAnswer → List Ticks
  | .finish _ elapsed, .left _ => times ++ [elapsed]
  | .clear _, _ => []
  | _, _ => times

/-- Elapsed times that were credited since the last clear. -/
def creditedTimes (times : List Ticks) : List TraceEvent → List TraceAnswer → List Ticks
  | event :: events, answer :: answers =>
      creditedTimes (event.credited times answer) events answers
  | _, _ => times

/-- None of the times is negative, and their number and their sum fit. -/
structure Moderate (times : List Ticks) : Prop where
  nonneg : ∀ elapsed ∈ times, 0 ≤ elapsed
  sum : times.sum < Ticks.bound
  length : times.length < Count.bound

instance (times : List Ticks) : Decidable (Moderate times) :=
  decidable_of_iff ((∀ elapsed ∈ times, 0 ≤ elapsed) ∧ times.sum < Ticks.bound ∧
      times.length < Count.bound)
    ⟨fun ⟨nonneg, sum, length⟩ => ⟨nonneg, sum, length⟩,
      fun ⟨nonneg, sum, length⟩ => ⟨nonneg, sum, length⟩⟩

namespace PathMachine

variable {machine : PathMachine} {times : List Ticks} {events : List TraceEvent}

/-- No path has counted more than what was credited. -/
structure Within (machine : PathMachine) (times : List Ticks) : Prop where
  sum : 0 ≤ times.sum
  record : ∀ path, ∀ record ∈ machine.records path,
    record.calls ≤ times.length ∧ 0 ≤ record.ticks ∧ record.ticks ≤ times.sum

theorem within_initial : Within {} [] where
  sum := Int.le_refl 0
  record path record held := by cases held

theorem Within.fits (within : machine.Within times) (moderate : Moderate times) :
    machine.Fits := by
  intro path _ record held
  obtain ⟨calls, positive, ticks⟩ := within.record path record held
  refine ⟨calls.trans_lt moderate.length, ?_, ticks.trans_lt moderate.sum⟩
  exact le_trans (by decide) positive

theorem Within.ticksOf_nonneg (within : machine.Within times) (path : CallPath) :
    0 ≤ machine.ticksOf path := by
  rw [ticksOf]
  cases held : machine.records path with
  | none => exact Int.le_refl 0
  | some record => exact (within.record path record held).2.1

theorem Within.start (within : machine.Within times) (handle : Handle) (method : MethodName) :
    (machine.start handle method).Within times := by
  refine ⟨within.sum, fun path record held => ?_⟩
  rcases machine.records_start_cases handle method path with same | ⟨-, new⟩
  · rw [same] at held
    exact within.record path record held
  · cases new.symm.trans held
    exact ⟨Nat.zero_le _, Int.le_refl 0, within.sum⟩

theorem Within.finish (within : machine.Within times) {elapsed : Int} (positive : 0 ≤ elapsed) :
    (machine.finish elapsed).Within (times ++ [elapsed]) := by
  have sum := within.sum
  have longer : (times ++ [elapsed]).sum = times.sum + elapsed := by simp
  refine ⟨longer ▸ Int.add_nonneg sum positive, fun path record held => ?_⟩
  rw [List.length_append, List.length_singleton, longer]
  by_cases here : path = machine.active
  · rw [here, records_finish_active] at held
    obtain ⟨before, there, rfl⟩ := Option.map_eq_some_iff.mp held
    have bounds := within.record machine.active before there
    simp only [PathRecord.credit]
    omega
  · rw [records_finish_of_ne here] at held
    have bounds := within.record path record held
    omega

theorem within_clear (machine : PathMachine) : machine.clear.Within [] := by
  refine ⟨Int.le_refl 0, fun path record held => ?_⟩
  obtain ⟨_, -, rfl⟩ := Option.map_eq_some_iff.mp held
  exact ⟨Nat.le_refl _, Int.le_refl _, Int.le_refl _⟩

theorem Within.step (within : machine.Within times) (event : TraceEvent)
    (nonneg : ∀ elapsed ∈ event.credited times (machine.step event).1, 0 ≤ elapsed) :
    (machine.step event).2.Within (event.credited times (machine.step event).1) := by
  cases event with
  | start handle method => exact within.start handle method
  | finish handle elapsed =>
      by_cases top : machine.active.head? = some handle
      · simp only [PathMachine.step, if_pos top, TraceEvent.credited] at nonneg ⊢
        exact within.finish (nonneg elapsed (by simp))
      · simp only [PathMachine.step, if_neg top, TraceEvent.credited]
        exact within
  | clear reading => exact machine.within_clear

theorem Within.replay (within : machine.Within times)
    (moderate : ∀ trace, trace <+: events →
      Moderate (creditedTimes times trace (CilProfiler.replay PathMachine.step machine trace).1)) :
    ∀ trace, trace <+: events → (CilProfiler.replay PathMachine.step machine trace).2.Within
      (creditedTimes times trace (CilProfiler.replay PathMachine.step machine trace).1) := by
  induction events generalizing machine times with
  | nil =>
      intro trace before
      cases List.prefix_nil.mp before
      exact within
  | cons event rest ih =>
      rintro (_ | ⟨first, trace⟩) before
      · exact within
      · obtain ⟨rfl, front⟩ := List.cons_prefix_cons.mp before
        have next := within.step first
          (moderate [first] (List.cons_prefix_cons.mpr ⟨rfl, List.nil_prefix⟩)).nonneg
        refine ih next (fun trace front => ?_) trace front
        exact moderate (first :: trace) (List.cons_prefix_cons.mpr ⟨rfl, front⟩)

theorem replay_ne_overflow (machine : PathMachine) (events : List TraceEvent) :
    ∀ answer ∈ (CilProfiler.replay PathMachine.step machine events).1, ∀ cause,
      answer ≠ .refused (.overflow cause) := by
  induction events generalizing machine with
  | nil => simp [CilProfiler.replay]
  | cons event rest ih =>
      simp only [CilProfiler.replay, List.forall_mem_cons]
      refine ⟨fun cause => ?_, ih _⟩
      cases event with
      | start handle method => simp [PathMachine.step]
      | finish handle elapsed =>
          simp only [PathMachine.step]
          split <;> simp
      | clear reading => simp [PathMachine.step]

end PathMachine

open PathMachine

namespace CallTree

variable {tree : CallTree} {times : List Ticks} {ids : List NodeIndex}

/-- The nodes have counted what was credited. -/
theorem Linked.counted_step (linked : tree.Linked) (event : TraceEvent)
    (same : tree.counted = (times.length, times.sum)) :
    let after := event.credited times (tree.step event).1
    (tree.step event).2.counted = (after.length, after.sum) := by
  cases event with
  | start handle method => exact (linked.counted_enter handle method).trans same
  | finish handle elapsed =>
      simp only [CallTree.step]
      cases left : tree.leave handle elapsed with
      | error reason => exact same
      | ok next => simp [counted_leave linked left, same, TraceEvent.credited]
  | clear reading => exact counted_clear tree reading

theorem Linked.counted_replay (linked : tree.Linked) (events : List TraceEvent)
    (same : tree.counted = (times.length, times.sum)) :
    let run := CilProfiler.replay CallTree.step tree events
    let after := creditedTimes times events run.1
    run.2.counted = (after.length, after.sum) := by
  induction events generalizing tree times with
  | nil => exact same
  | cons event rest ih => exact ih (linked.step event) (linked.counted_step event same)

/-- Of different nodes no more was counted than of all. -/
theorem sum_counters_le (nonneg : ∀ id, 0 ≤ tree.ticksAt id) (distinct : ids.Nodup) :
    (ids.map tree.callsAt).sum ≤ tree.counted.1 ∧ (ids.map tree.ticksAt).sum ≤ tree.counted.2 := by
  have le : (ids.map tree.counters).sum ≤ tree.counted := by
    rw [← List.sum_toFinset tree.counters distinct]
    calc ∑ id ∈ ids.toFinset, tree.counters id
        ≤ ∑ id ∈ ids.toFinset ∪ tree.arena, tree.counters id :=
          Finset.sum_le_sum_of_subset_of_nonneg Finset.subset_union_left
            fun id _ _ => ⟨Nat.zero_le _, nonneg id⟩
      _ = tree.counted :=
          (Finset.sum_subset Finset.subset_union_right
            fun id _ outside => counters_of_notMem_arena outside).symm
  rwa [show tree.counters = fun id => (tree.callsAt id, tree.ticksAt id) from rfl, sum_map_pair]
    at le

namespace Linked

/-- A node is the child of one node only. -/
theorem nodup_flatMap_visibleChildren (linked : tree.Linked) (distinct : ids.Nodup) :
    (ids.flatMap tree.visibleChildren).Nodup := by
  rw [List.nodup_flatMap]
  refine ⟨fun id _ => linked.nodup_visibleChildren id, distinct.imp ?_⟩
  intro id other different child first second
  exact different ((linked.mem_visibleChildren.mp first).2.unique
    (linked.mem_visibleChildren.mp second).2)

theorem sum_ownAt (tree : CallTree) (ids : List NodeIndex) :
    (ids.map tree.ownAt).sum =
      (ids.map tree.ticksAt).sum - ((ids.flatMap tree.visibleChildren).map tree.ticksAt).sum := by
  induction ids with
  | nil => rfl
  | cons id rest ih =>
      rw [List.map_cons, List.sum_cons, ih, ownAt, List.map_cons, List.sum_cons, List.flatMap_cons,
        List.map_append, List.sum_append]
      exact sub_add_sub_comm ..

/-- Own ticks of different nodes lie within what all nodes have counted. -/
theorem sum_ownAt_bounds (linked : tree.Linked) (nonneg : ∀ id, 0 ≤ tree.ticksAt id)
    (distinct : ids.Nodup) :
    -tree.counted.2 ≤ (ids.map tree.ownAt).sum ∧ (ids.map tree.ownAt).sum ≤ tree.counted.2 := by
  have above := (sum_counters_le nonneg distinct).2
  have below := (sum_counters_le nonneg (linked.nodup_flatMap_visibleChildren distinct)).2
  have first := sum_ticksAt_nonneg nonneg ids
  have second := sum_ticksAt_nonneg nonneg (ids.flatMap tree.visibleChildren)
  rw [sum_ownAt]
  constructor <;> linarith

/-- There is headroom if all that was counted fits, and nothing of it is negative. -/
theorem headroom (linked : tree.Linked) (nonneg : ∀ id, 0 ≤ tree.ticksAt id)
    (calls : tree.counted.1 < Count.bound) (ticks : tree.counted.2 < Ticks.bound) :
    tree.Headroom where
  calls := (sum_counters_le nonneg (linked.nodup_below CallTree.root)).1.trans_lt calls
  own ids distinct _ := by
    have bounds := linked.sum_ownAt_bounds nonneg distinct
    exact ⟨by linarith, by linarith⟩
  below id part distinct _ := by
    have below := (sum_counters_le nonneg distinct).2
    have above := (sum_counters_le nonneg (List.nodup_singleton id)).2
    have positive := nonneg id
    rw [List.map_singleton, List.sum_singleton] at above
    have first := sum_ticksAt_nonneg nonneg part
    exact ⟨⟨by linarith, by linarith⟩, by linarith, by linarith⟩

end Linked

/-- In every run in which the finishes of active calls are credited with times that are not
    negative, and those since the last clear are at all times no more and make up no more than a
    counter holds, nothing overflows: no finish is refused for want of room, the children of a node
    can be added up and taken off it in any order, and at any time that lies no further behind the
    last clear than ticks reach, the snapshots and folded stacks are given, the own ticks of each
    shown node among them, whatever order methods are recorded and listed in. -/
theorem replay_computes (start : Ticks) (events : List TraceEvent)
    (moderate : ∀ trace, trace <+: events →
      Moderate (creditedTimes [] trace (replay PathMachine.step {} trace).1)) :
    let run := replay CallTree.step (empty start) events
    let tree := run.2
    (∀ answer ∈ run.1, ∀ cause, answer ≠ .refused (.overflow cause)) ∧
    (∀ id, ∀ order : List NodeIndex, order.Perm (tree.visibleChildren id) →
      (∃ below, Ticks.sum (order.map tree.ticksAt) = .ok below) ∧
      ∃ own, (order.map tree.ticksAt).foldlM Ticks.sub (tree.ticksAt id) = .ok own) ∧
    ∀ reading, 0 ≤ reading - tree.since → reading - tree.since < Ticks.bound →
      (∃ top, tree.hierarchy reading = .ok top ∧
        (∀ node ∈ top.preorder, ∃ own, node.ownTicks = .ok own) ∧
        ∃ folded, top.foldedStacks = .ok folded) ∧
      (∃ entries, tree.flatList reading = .ok entries) ∧
      ∀ order, order.Perm (tree.below root) →
        ∃ tally,
          Tally.recordAll OwnTotal.add [] (tree.ownRecords (reading - tree.since) order) =
            .ok tally ∧
          ∀ shuffled, shuffled.Perm tally →
            ∃ entries, listed (reading - tree.since) shuffled = .ok entries := by
  intro run tree
  have within := within_initial.replay moderate
  obtain ⟨answers, -⟩ := (represents_empty start).replay formed_initial events fun trace before =>
    (within trace before).fits (moderate trace before)
  have roomy : ∀ answer ∈ run.1, ∀ cause, answer ≠ .refused (.overflow cause) :=
    answers ▸ replay_ne_overflow {} events
  have recalls := ((recalls_empty start).replay_of_roomy events roomy).2
  have linked : tree.Linked := recalls.linked
  have nonneg : ∀ id, 0 ≤ tree.ticksAt id :=
    recalls.ticksAt_nonneg (within events List.prefix_rfl).ticksOf_nonneg
  have silent : (empty start).counted = (([] : List Ticks).length, ([] : List Ticks).sum) := rfl
  have counted : tree.counted = _ := (linked_empty start).counted_replay events silent
  have whole := moderate events List.prefix_rfl
  rw [← answers] at whole
  have room : tree.Headroom := linked.headroom nonneg (counted ▸ whole.length) (counted ▸ whole.sum)
  refine ⟨roomy, fun id order perm =>
    ⟨⟨_, room.sum_ticks linked perm⟩, _, room.sub_ticks linked perm⟩, fun reading after before => ?_⟩
  have inside : Ticks.InRange (reading - tree.since) := ⟨le_trans (by decide) after, before⟩
  have outside : Ticks.InRange (reading - tree.since -
      ((tree.visibleChildren root).map tree.ticksAt).sum) := by
    have outer := (sum_counters_le nonneg (linked.nodup_visibleChildren root)).2
    have positive := sum_ticksAt_nonneg nonneg (tree.visibleChildren root)
    have small : tree.counted.2 < Ticks.bound := counted ▸ whole.sum
    exact ⟨by linarith, by linarith⟩
  obtain ⟨top, told⟩ := tree.exists_hierarchy inside
  refine ⟨⟨top, told, room.ownTicks_preorder linked told,
    room.exists_foldedStacks linked (children_of_hierarchy told)⟩,
    room.exists_flatList linked inside outside, fun order perm => ?_⟩
  obtain ⟨tally, recorded⟩ := room.exists_recordAll linked (reading - tree.since) perm
  exact ⟨tally, recorded, fun shuffled shuffle =>
    room.exists_listed linked perm recorded shuffle outside⟩

/-- A callee that outlasts its caller, before and behind a clear. -/
def outlastingTrace (outer inner : Handle) (elapsed : Ticks) : List TraceEvent := [
  .start outer ⟨"App", "Outer", [], []⟩,
  .start inner ⟨"App", "Inner", [], []⟩,
  .finish inner elapsed,
  .finish inner 1,
  .clear 0,
  .start inner ⟨"App", "Inner", [], []⟩,
  .finish inner elapsed,
  .finish outer 0]

theorem outlastingTrace_computes :
    let events := outlastingTrace { raw := 4 } { raw := 6 } (Ticks.bound - 1)
    let tree := (replay CallTree.step (empty 0) events).2
    (∀ trace, trace <+: events →
      Moderate (creditedTimes [] trace (replay PathMachine.step {} trace).1)) ∧
    tree.ownAt ⟨1⟩ = 1 - Ticks.bound ∧
    (∃ top, tree.hierarchy (Ticks.bound - 1) = .ok top ∧ ∃ folded, top.foldedStacks = .ok folded) ∧
    ∃ entries, tree.flatList (Ticks.bound - 1) = .ok entries := by
  intro events tree
  have inits : ∀ trace ∈ events.inits,
      Moderate (creditedTimes [] trace (replay PathMachine.step {} trace).1) := by
    decide +kernel
  have moderate : ∀ trace, trace <+: events →
      Moderate (creditedTimes [] trace (replay PathMachine.step {} trace).1) :=
    fun trace before => inits trace ((List.mem_inits trace events).mpr before)
  have since : tree.since = 0 := by decide +kernel
  obtain ⟨-, -, given⟩ := replay_computes 0 events moderate
  obtain ⟨⟨top, told, -, folded⟩, flat, -⟩ := given (Ticks.bound - 1)
    (by rw [since]; decide) (by rw [since]; decide)
  exact ⟨moderate, by decide +kernel, ⟨top, told, folded⟩, flat⟩

end CallTree
end CilProfiler

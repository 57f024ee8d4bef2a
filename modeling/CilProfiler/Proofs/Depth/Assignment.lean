import CilProfiler.Proofs.Code.Edits
import CilProfiler.Proofs.Depth.Moves
import CilProfiler.Proofs.Depth.Recurrence

/-! # Consistent depth assignments

A body whose paths agree on every depth has one entry depth for each position, whatever way
control comes there. The walk sees each instruction once and in code order, with backward
branches still ahead of it. It finds these depths all the same: whichever of the carried depth,
the seeds and the reset behind a terminator decides at a position, it decides for the depth that
all paths agree on. So the computed maximum is exact for such bodies.
-/

namespace CilProfiler

/-- How instructions are taken: which of them pass control to the one behind, and what they do to
    the depth. -/
structure DepthRules where
  falls : Opcode → Bool
  moves : Resolver → Instruction → Int → Int → Prop

/-- The rules that the walk follows: terminators pass nothing on, and every call returns. -/
def DepthRules.walk : DepthRules where
  falls op := !op.flow.stopsFlow
  moves resolver item := item.Moves resolver

/-- Values an opcode takes from the stack, where it says so itself. -/
def Opcode.popCount (op : Opcode) : Nat :=
  match op.info.pops.effect with
  | .count values => values
  | .all | .variable => 0

/-- Depths in front of and behind every position of a body. -/
structure DepthAssignment where
  entry : Nat → Int
  after : Nat → Int

/-- Neither an exception nor a branch up to a position enters the instruction. -/
def MethodBody.UnenteredUpTo (body : MethodBody) (position : Nat) (id : InstrId) : Prop :=
  id ∉ body.exceptionStarts ∧
    body.code.ForallLinked fun i _ item => i ≤ position → id ∉ item.targets

instance (body : MethodBody) (position : Nat) (id : InstrId) :
    Decidable (body.UnenteredUpTo position id) :=
  inferInstanceAs (Decidable (_ ∧ _))

/-- The depths of an assignment fit together along every way that control can take. -/
structure DepthAssignment.Consistent (assigned : DepthAssignment) (rules : DepthRules)
    (body : MethodBody) (resolver : Resolver) : Prop where
  start : body.code.ForallLinked fun i id _ =>
    i = 0 → id ∉ body.exceptionStarts → assigned.entry i = 0
  exception : body.code.ForallLinked fun i id _ =>
    id ∈ body.exceptionStarts → assigned.entry i = 1
  /-- No instruction pops more than there is. -/
  available : body.code.ForallLinked fun i _ item => item.code.popCount ≤ assigned.entry i
  moves : body.code.ForallLinked fun i _ item =>
    rules.moves resolver item (assigned.entry i) (assigned.after i)
  range : body.code.ForallLinked fun i _ _ => 0 ≤ assigned.after i ∧ assigned.after i ≤ 0x7FFFFFFF
  falls : body.code.ForallLinked fun i _ item =>
    rules.falls item.code → i + 1 < body.code.length → assigned.entry (i + 1) = assigned.after i
  /-- Branches lead to linked targets, before or behind them, with the depth they leave. -/
  branch : body.code.ForallLinked fun i _ item => body.code.ForallLinked fun j target _ =>
    target ∈ item.targets → assigned.entry j = assigned.after i
  /-- Where control comes from nowhere before, the stack is empty. -/
  reset : body.code.ForallLinked fun i _ item => body.code.ForallLinked fun j next _ =>
    j = i + 1 → rules.falls item.code = false → body.UnenteredUpTo i next → assigned.entry j = 0

set_option synthInstance.maxSize 512 in
instance (assigned : DepthAssignment) (rules : DepthRules) (body : MethodBody) (resolver : Resolver)
    [∀ item before after, Decidable (rules.moves resolver item before after)] :
    Decidable (assigned.Consistent rules body resolver) :=
  decidable_of_iff (_ ∧ _ ∧ _ ∧ _ ∧ _ ∧ _ ∧ _ ∧ _)
    ⟨fun ⟨start, exception, available, moves, range, falls, branch, reset⟩ =>
      ⟨start, exception, available, moves, range, falls, branch, reset⟩,
      fun ⟨start, exception, available, moves, range, falls, branch, reset⟩ =>
      ⟨start, exception, available, moves, range, falls, branch, reset⟩⟩

instance (resolver : Resolver) (item : Instruction) (before after : Int) :
    Decidable (DepthRules.walk.moves resolver item before after) :=
  inferInstanceAs (Decidable (item.Moves resolver before after))

/-- A number is the greatest depth of the first `length` positions, or zero if there are none. -/
structure DepthAssignment.IsPeak (assigned : DepthAssignment) (length peak : Nat) : Prop where
  entry_le : ∀ i < length, assigned.entry i ≤ peak
  after_le : ∀ i < length, assigned.after i ≤ peak
  reached : (length = 0 ∧ peak = 0) ∨ ∃ i < length, assigned.entry i = peak ∨ assigned.after i = peak

/-- An instruction to which nothing is handed is entered by no branch before it, or only by ones
    that leave the stack empty. -/
theorem MethodBody.Walked.unentered_or_empty {body : MethodBody} {resolver : Resolver}
    {visits : List DepthVisit} (walked : body.Walked resolver visits) (ordered : body.code.Ordered)
    {id : InstrId} (unseeded : body.seedValues visits id = []) {i : Nat} (inside : i < visits.length) :
    body.UnenteredUpTo i id ∨
      ∃ (k : Nat) (visit : DepthVisit), visits[k]? = some visit ∧
        body.code.Linked k visit.id visit.item ∧ id ∈ visit.item.targets ∧ visit.after = 0 := by
  have unhanded : ∀ depth, depth ∉ body.seedValues visits id := by simp [unseeded]
  by_cases targeted : ∃ k source item, k ≤ i ∧ body.code.Linked k source item ∧ id ∈ item.targets
  · obtain ⟨k, source, item, le, linked, target⟩ := targeted
    have before : k < visits.length := by omega
    have found : visits[k]? = some visits[k] := List.getElem?_eq_getElem before
    have items := (walked.linked k _ found).symm.trans (ordered.items_getElem?.mpr linked)
    cases items
    refine .inr ⟨k, _, found, linked, target, ?_⟩
    by_contra nonzero
    exact unhanded _ (mem_seedValues.mpr
      (.inr ⟨_, List.mem_of_getElem? found, nonzero, target, rfl⟩))
  · refine .inl ⟨fun starts => unhanded _ (mem_seedValues.mpr (.inl ⟨starts, rfl⟩)), ?_⟩
    exact fun k source item linked le target => targeted ⟨k, source, item, le, linked, target⟩

theorem MethodBody.Walked.seedValues_of_unentered {body : MethodBody} {resolver : Resolver}
    {visits : List DepthVisit} (walked : body.Walked resolver visits) (ordered : body.code.Ordered)
    {id : InstrId} {i : Nat} (unentered : body.UnenteredUpTo i id) (upTo : visits.length ≤ i + 1) :
    body.seedValues visits id = [] := by
  refine List.eq_nil_iff_forall_not_mem.mpr fun depth handed => ?_
  rcases mem_seedValues.mp handed with ⟨starts, _⟩ | ⟨visit, member, _, target, _⟩
  · exact unentered.1 starts
  · obtain ⟨k, found⟩ := List.getElem?_of_mem member
    obtain ⟨inside, _⟩ := List.getElem?_eq_some_iff.mp found
    have linked := ordered.items_getElem?.mp (walked.linked k visit found)
    exact unentered.2 k _ _ linked (by omega) target

namespace DepthAssignment.Consistent

variable {assigned : DepthAssignment} {body : MethodBody} {resolver : Resolver}
  {visits : List DepthVisit}

/-- What the recurrence carries to a position to which nothing is handed is its assigned depth. -/
theorem carried_eq (consistent : assigned.Consistent .walk body resolver)
    (ordered : body.code.Ordered) (walked : body.Walked resolver visits)
    (agree : ∀ (j : Nat) visit, visits[j]? = some visit → visit.after = assigned.after j)
    {id : InstrId} {item : Instruction} (linked : body.code.Linked visits.length id item)
    (unseeded : body.seedValues visits id = []) :
    DepthVisit.carried visits = assigned.entry visits.length := by
  cases before : visits.length with
  | zero =>
      rw [before] at linked
      rw [List.eq_nil_of_length_eq_zero before]
      refine (consistent.start 0 id item linked rfl fun starts => ?_).symm
      simp [MethodBody.seedValues, starts] at unseeded
  | succ i =>
      rw [before] at linked
      have inside : i < visits.length := by omega
      have there : visits[i]? = some visits[i] := List.getElem?_eq_getElem inside
      have previous := ordered.items_getElem?.mp (walked.linked i _ there)
      rw [DepthVisit.carried_eq before there]
      cases stops : visits[i].item.code.flow.stopsFlow with
      | false =>
          rw [if_neg (by simp), agree i _ there]
          exact (consistent.falls i _ _ previous (by simp [DepthRules.walk, stops])
            (List.getElem?_eq_some_iff.mp linked.1).1).symm
      | true =>
          rw [if_pos rfl]
          rcases walked.unentered_or_empty ordered unseeded inside with
            unentered | ⟨k, visit, found, source, target, empty⟩
          · exact (consistent.reset i _ _ previous (i + 1) id item linked rfl
              (by simp [DepthRules.walk, stops]) unentered).symm
          · rw [consistent.branch k _ _ source (i + 1) id item linked target, ← agree k _ found]
            exact empty.symm

/-- Whatever decides the entry depth of the recurrence, it is the assigned one. -/
theorem entryDepth_eq (consistent : assigned.Consistent .walk body resolver)
    (ordered : body.code.Ordered) (walked : body.Walked resolver visits)
    (agree : ∀ (j : Nat) visit, visits[j]? = some visit → visit.after = assigned.after j)
    {id : InstrId} {item : Instruction} (linked : body.code.Linked visits.length id item) :
    body.entryDepth visits id = assigned.entry visits.length := by
  by_cases unseeded : body.seedValues visits id = []
  · rw [MethodBody.entryDepth_of_nil unseeded]
    exact consistent.carried_eq ordered walked agree linked unseeded
  · have handed := (MethodBody.entryDepth_greatest unseeded).1
    rcases MethodBody.mem_seedValues.mp handed with ⟨starts, same⟩ | ⟨visit, member, _, target, same⟩
    · rw [same, consistent.exception _ id item linked starts]
      rfl
    · obtain ⟨k, there⟩ := List.getElem?_of_mem member
      rw [← same, agree k visit there]
      exact (consistent.branch k _ _ (ordered.items_getElem?.mp (walked.linked k visit there))
        _ id item linked target).symm

/-- The walk finds the assigned depths, at every instruction it visits. -/
theorem visit_eq (consistent : assigned.Consistent .walk body resolver)
    (ordered : body.code.Ordered) (walked : body.Walked resolver visits) (i : Nat) :
    ∀ visit, visits[i]? = some visit →
      visit.entry = assigned.entry i ∧ visit.after = assigned.after i := by
  induction i using Nat.strongRecOn with
  | ind i ih =>
      intro visit there
      obtain ⟨inside, _⟩ := List.getElem?_eq_some_iff.mp there
      have length : (visits.take i).length = i := by rw [List.length_take]; omega
      have linked := ordered.items_getElem?.mp (walked.linked i visit there)
      have agree : ∀ (j : Nat) earlier, (visits.take i)[j]? = some earlier →
          earlier.after = assigned.after j := by
        intro j earlier found
        obtain ⟨before, _⟩ := List.getElem?_eq_some_iff.mp found
        rw [length] at before
        rw [List.getElem?_take_of_lt before] at found
        exact (ih j before earlier found).2
      have entered := consistent.entryDepth_eq ordered (walked.take i) agree (by rwa [length])
      rw [length, ← walked.entry i visit there] at entered
      have range := consistent.range i _ _ linked
      have moved := (consistent.moves i _ _ linked).depthAfter range.1 (by omega)
      rw [← entered, walked.after i visit there] at moved
      exact ⟨entered, Except.ok.inj moved⟩

/-- The walk reaches the end of the code. -/
theorem visits_all (consistent : assigned.Consistent .walk body resolver)
    (ordered : body.code.Ordered) :
    (body.analyzeDepth resolver).visits.length = body.code.items.length := by
  have analyzed := body.analyzed resolver
  refine Nat.le_antisymm analyzed.walked.length_le (Nat.le_of_not_lt fun short => ?_)
  have found := List.getElem?_eq_getElem short
  have linked := ordered.items_getElem?.mp found
  obtain ⟨reason, failed, _⟩ := analyzed.stops _ _ found
  rw [consistent.entryDepth_eq ordered analyzed.walked
    (fun j visit there => (consistent.visit_eq ordered analyzed.walked j visit there).2) linked]
    at failed
  have range := consistent.range _ _ _ linked
  rw [(consistent.moves _ _ _ linked).depthAfter range.1 (by omega)] at failed
  cases failed

end DepthAssignment.Consistent

/-- A list of visits that agrees with an assignment has the assignment's peak. -/
theorem DepthVisit.isPeak_peak {assigned : DepthAssignment} {visits : List DepthVisit}
    (agree : ∀ (i : Nat) visit, visits[i]? = some visit →
      visit.entry = assigned.entry i ∧ visit.after = assigned.after i)
    (positive : ∀ i < visits.length, 0 ≤ assigned.after i) :
    assigned.IsPeak visits.length (DepthVisit.peak visits).toNat := by
  obtain ⟨⟨nonneg, bounds⟩, reached⟩ := DepthVisit.peak_spec visits
  have same : ((DepthVisit.peak visits).toNat : Int) = DepthVisit.peak visits :=
    Int.toNat_of_nonneg nonneg
  have at_ : ∀ i, (inside : i < visits.length) → visits[i].entry = assigned.entry i ∧
      visits[i].after = assigned.after i :=
    fun i inside => agree i _ (List.getElem?_eq_getElem inside)
  refine ⟨fun i inside => ?_, fun i inside => ?_, ?_⟩
  · rw [same, ← (at_ i inside).1]
    exact (bounds _ (List.getElem_mem inside)).1
  · rw [same, ← (at_ i inside).2]
    exact (bounds _ (List.getElem_mem inside)).2
  · rcases reached with zero | ⟨visit, member, top⟩
    · by_cases empty : visits.length = 0
      · exact .inl ⟨empty, by rw [zero]; rfl⟩
      · have inside : 0 < visits.length := Nat.pos_of_ne_zero empty
        refine .inr ⟨0, inside, .inr (Int.le_antisymm ?_ ?_)⟩
        · rw [same, ← (at_ 0 inside).2]
          exact (bounds _ (List.getElem_mem inside)).2
        · rw [same, zero]
          exact positive 0 inside
    · obtain ⟨i, there⟩ := List.getElem?_of_mem member
      obtain ⟨inside, _⟩ := List.getElem?_eq_some_iff.mp there
      obtain ⟨entered, left⟩ := agree i visit there
      rw [entered, left] at top
      exact .inr ⟨i, inside, by rwa [same]⟩

/-- On a body whose depths fit together the computed maximum is exact: the computation succeeds,
    whatever was computed before, and gives the greatest depth in front of or behind a linked
    instruction. -/
theorem DepthCalculator.compute_isPeak (calculator : DepthCalculator)
    (reachable : calculator.body.code.Reachable) {assigned : DepthAssignment}
    (consistent : assigned.Consistent .walk calculator.body calculator.resolver) :
    ∃ maxStack, calculator.compute.1 = .ok maxStack ∧
      assigned.IsPeak calculator.body.code.length maxStack := by
  have ordered := reachable.ordered
  have analyzed := calculator.body.analyzed calculator.resolver
  have all := consistent.visits_all ordered
  have agree := consistent.visit_eq ordered analyzed.walked
  refine ⟨_, analyzed.completes all, ?_⟩
  rw [← ordered.length_items, ← all]
  refine DepthVisit.isPeak_peak agree fun i inside => ?_
  have there := List.getElem?_eq_getElem inside
  exact (consistent.range i _ _ (ordered.items_getElem?.mp (analyzed.walked.linked i _ there))).1

/-- A loop that calls, a throw, a handler and a common exit. -/
def loopHistory : List Edit := [
  .create .ret .none,
  .push .ldcI40 .none,
  .push .brfalse (.target ⟨0⟩),
  .push .ldcI41 .none,
  .push .call (.token ⟨0x06000001⟩),
  .push .brtrue (.target ⟨1⟩),
  .push .ldcI42 .none,
  .push .ldnull .none,
  .push .throwObject .none,
  .push .pop .none,
  .push .br (.target ⟨0⟩),
  .append ⟨0⟩]

def loopCalculator : DepthCalculator where
  body := {
    code := InstructionList.empty.edits loopHistory
    clauses := [{ kind := .catching, tryStart := ⟨1⟩, handlerStart := ⟨9⟩ }] }
  resolver := {
    method := fun _ => .ok { paramCount := 1, hasReturn := true }
    signature := fun token => .error (.unknownToken token) }

def loopDepths : DepthAssignment where
  entry i := [0, 1, 0, 1, 1, 0, 1, 2, 1, 0, 0].getD i 0
  after i := [1, 0, 1, 1, 0, 1, 2, 1, 0, 0, 0].getD i 0

theorem loopCalculator_compute_isPeak :
    loopCalculator.body.code.Reachable ∧
      loopDepths.Consistent .walk loopCalculator.body loopCalculator.resolver ∧
      ∃ maxStack, loopCalculator.compute.1 = .ok maxStack ∧
        loopDepths.IsPeak loopCalculator.body.code.length maxStack :=
  have reachable : loopCalculator.body.code.Reachable := ⟨loopHistory, by decide +kernel⟩
  have consistent : loopDepths.Consistent .walk loopCalculator.body loopCalculator.resolver := by
    decide +kernel
  ⟨reachable, consistent, loopCalculator.compute_isPeak reachable consistent⟩

end CilProfiler

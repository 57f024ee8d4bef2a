import CilProfiler.Proofs.Code.Contents
import CilProfiler.Proofs.Depth.Assignment

/-! # The machine's depths against the walk's

The machine takes two instructions differently from the walk. A breakpoint is over when the
debugger lets the program go on, and its stack is what it was; the walk carries nothing past it.
A jump to another method wants an empty stack and does not come back; the walk takes it for a call,
whose parameters it pops, and goes on behind it.

Neither loses a depth by itself. The computed maximum covers the depths of the machine unless a
breakpoint with values on the stack is the only way to the instruction behind it, or the walk comes
out of a jump below an empty stack. These are exactly the bodies in which the walk enters some
instruction lower than the machine does.
-/

namespace CilProfiler

/-- The rules that the machine follows. -/
def DepthRules.machine : DepthRules where
  falls op := op == .breakpoint || (!op.flow.stopsFlow && op != .jmp)
  moves resolver item before after :=
    if item.code = .jmp then before = 0 ∧ after = 0 else item.Moves resolver before after

instance (resolver : Resolver) (item : Instruction) (before after : Int) :
    Decidable (DepthRules.machine.moves resolver item before after) :=
  inferInstanceAs (Decidable
    (if item.code = .jmp then before = 0 ∧ after = 0 else item.Moves resolver before after))

/-- The walk comes to no instruction lower than the machine by way of a breakpoint or a jump. -/
structure DepthAssignment.Kept (assigned : DepthAssignment) (body : MethodBody)
    (visits : List DepthVisit) : Prop where
  /-- A breakpoint that is the only way to the instruction behind it has an empty stack. -/
  breaks : body.code.ForallLinked fun i _ item => body.code.ForallLinked fun j next _ =>
    j = i + 1 → item.code = .breakpoint → body.UnenteredUpTo i next → assigned.entry i = 0
  /-- Behind a jump to another method the walk is not below an empty stack. -/
  jumps : body.code.ForallLinked fun i _ item =>
    item.code = .jmp → ∀ visit ∈ visits[i + 1]?, 0 ≤ visit.entry

instance (assigned : DepthAssignment) (body : MethodBody) (visits : List DepthVisit) :
    Decidable (assigned.Kept body visits) :=
  decidable_of_iff (_ ∧ _) ⟨fun ⟨breaks, jumps⟩ => ⟨breaks, jumps⟩, fun ⟨breaks, jumps⟩ => ⟨breaks, jumps⟩⟩

/-- Jumps to another method have a token and so no targets. -/
theorem InstructionList.Reachable.targets_of_jmp {list : InstructionList}
    (reachable : list.Reachable) {i : Nat} {id : InstrId} {item : Instruction}
    (linked : list.Linked i id item) (jump : item.code = .jmp) : item.targets = [] := by
  have checked := reachable.checked linked.2
  rw [jump] at checked
  rw [Instruction.targets]
  cases operand : item.operand with
  | target | switch => rw [operand] at checked; cases checked
  | none | int8 | uint8 | uint16 | int32 | int64 | float32 | float64 | string | token => rfl

namespace DepthAssignment.Consistent

variable {assigned : DepthAssignment} {body : MethodBody} {resolver : Resolver}
  {visits : List DepthVisit}

theorem entry_nonneg (consistent : assigned.Consistent .machine body resolver) {i : Nat}
    {id : InstrId} {item : Instruction} (linked : body.code.Linked i id item) :
    0 ≤ assigned.entry i := by
  have available := consistent.available i id item linked
  exact Int.le_trans (Int.natCast_nonneg _) available

theorem moves_of_ne_jmp (consistent : assigned.Consistent .machine body resolver) {i : Nat}
    {id : InstrId} {item : Instruction} (linked : body.code.Linked i id item)
    (plain : item.code ≠ .jmp) : item.Moves resolver (assigned.entry i) (assigned.after i) := by
  have moves := consistent.moves i id item linked
  simpa only [DepthRules.machine, if_neg plain] using moves

/-- A breakpoint leaves the stack as it is. -/
theorem after_of_breakpoint (consistent : assigned.Consistent .machine body resolver) {i : Nat}
    {id : InstrId} {item : Instruction} (linked : body.code.Linked i id item)
    (breaks : item.code = .breakpoint) : assigned.after i = assigned.entry i := by
  have moves := consistent.moves_of_ne_jmp linked (by simp [breaks])
  rw [Instruction.moves_iff, Instruction.destination?, breaks] at moves
  have same : assigned.entry i - 0 + 0 = assigned.after i := Option.some.inj moves
  omega

/-- A position that the machine does not fall into has an empty stack, unless something enters it
    from before. -/
theorem entry_of_behind (consistent : assigned.Consistent .machine body resolver) {i : Nat}
    {id next : InstrId} {item follower : Instruction} (linked : body.code.Linked i id item)
    (behind : body.code.Linked (i + 1) next follower) (stops : item.code.flow.stopsFlow ∨ item.code = .jmp)
    (kept : item.code = .breakpoint → assigned.entry i = 0) (unentered : body.UnenteredUpTo i next) :
    assigned.entry (i + 1) = 0 := by
  by_cases breaks : item.code = .breakpoint
  · have fallen := consistent.falls i id item linked (by simp [DepthRules.machine, breaks])
      (List.getElem?_eq_some_iff.mp behind.1).1
    rw [fallen, consistent.after_of_breakpoint linked breaks, kept breaks]
  · refine consistent.reset i id item linked (i + 1) next follower behind rfl ?_ unentered
    rcases stops with stops | jump
    · simp [DepthRules.machine, stops, breaks]
    · simp [DepthRules.machine, jump]

/-- What the walk carries to a position to which nothing is handed is no less than the machine's
    depth there. -/
theorem entry_le_carried (consistent : assigned.Consistent .machine body resolver)
    (reachable : body.code.Reachable) (walked : body.Walked resolver visits)
    (kept : assigned.Kept body visits) {count : Nat}
    (below : ∀ j < count, ∀ visit, visits[j]? = some visit → visit.item.code ≠ .jmp →
      assigned.after j ≤ visit.after) {visit : DepthVisit} (there : visits[count]? = some visit)
    (unseeded : body.seedValues (visits.take count) visit.id = []) :
    assigned.entry count ≤ visit.entry := by
  have ordered := reachable.ordered
  have linked := ordered.items_getElem?.mp (walked.linked count visit there)
  obtain ⟨inside, _⟩ := List.getElem?_eq_some_iff.mp there
  have carried := walked.entry count visit there
  rw [MethodBody.entryDepth_of_nil unseeded] at carried
  cases count with
  | zero =>
      have plain : visit.id ∉ body.exceptionStarts := fun starts => by
        simp [MethodBody.seedValues, starts] at unseeded
      rw [consistent.start 0 _ _ linked rfl plain, carried]
      exact Int.le_refl 0
  | succ i =>
      have found : visits[i]? = some visits[i] := List.getElem?_eq_getElem (by omega)
      have previous := ordered.items_getElem?.mp (walked.linked i _ found)
      have length : (visits.take (i + 1)).length = i + 1 := by rw [List.length_take]; omega
      rw [DepthVisit.carried_eq length
        ((List.getElem?_take_of_lt (Nat.lt_succ_self i)).trans found)] at carried
      by_cases stops : visits[i].item.code.flow.stopsFlow ∨ visits[i].item.code = .jmp
      · -- The walk carries nothing here, and no depth below zero behind a jump.
        have nonneg : 0 ≤ visit.entry := by
          rcases stops with stops | jump
          · simp [carried, stops]
          · exact kept.jumps i _ _ previous jump visit there
        refine Int.le_trans ?_ nonneg
        rcases (walked.take (i + 1)).unentered_or_empty ordered unseeded (i := i) (by omega) with
          unentered | ⟨k, source, earlier, branching, target, empty⟩
        · exact Int.le_of_eq (consistent.entry_of_behind previous linked stops
            (fun breaks => kept.breaks i _ _ previous (i + 1) _ _ linked rfl breaks unentered) unentered)
        · obtain ⟨before, _⟩ := List.getElem?_eq_some_iff.mp earlier
          rw [length] at before
          rw [List.getElem?_take_of_lt before] at earlier
          rw [consistent.branch k _ _ branching (i + 1) _ _ linked target, ← empty]
          exact below k before source earlier fun jump => by
            simp [reachable.targets_of_jmp branching jump] at target
      · obtain ⟨passes, plain⟩ := not_or.mp stops
        rw [carried, if_neg passes, consistent.falls i _ _ previous
          (by simp [DepthRules.machine, passes, plain]) (List.getElem?_eq_some_iff.mp linked.1).1]
        exact below i (Nat.lt_succ_self i) _ found plain

/-- Where nothing is lost, the walk enters no instruction lower than the machine does, and leaves
    none lower but a jump. -/
theorem visit_le (consistent : assigned.Consistent .machine body resolver)
    (reachable : body.code.Reachable) (walked : body.Walked resolver visits)
    (kept : assigned.Kept body visits) (i : Nat) :
    ∀ visit, visits[i]? = some visit → assigned.entry i ≤ visit.entry ∧
      (visit.item.code ≠ .jmp → assigned.after i ≤ visit.after) := by
  induction i using Nat.strongRecOn with
  | ind i ih =>
      intro visit there
      have ordered := reachable.ordered
      have linked := ordered.items_getElem?.mp (walked.linked i visit there)
      have below : ∀ j < i, ∀ visit, visits[j]? = some visit → visit.item.code ≠ .jmp →
          assigned.after j ≤ visit.after :=
        fun j before visit found => (ih j before visit found).2
      have entered : assigned.entry i ≤ visit.entry := by
        by_cases unseeded : body.seedValues (visits.take i) visit.id = []
        · exact consistent.entry_le_carried reachable walked kept below there unseeded
        · obtain ⟨handed, greatest⟩ := MethodBody.entryDepth_greatest unseeded
          rw [← walked.entry i visit there] at handed greatest
          by_cases starts : visit.id ∈ body.exceptionStarts
          · rw [consistent.exception i _ _ linked starts]
            exact greatest _ (MethodBody.mem_seedValues.mpr (.inl ⟨starts, rfl⟩))
          · rcases MethodBody.mem_seedValues.mp handed with ⟨starts', _⟩ |
              ⟨source, member, _, target, same⟩
            · exact absurd starts' starts
            · obtain ⟨k, found⟩ := List.getElem?_of_mem member
              obtain ⟨before, _⟩ := List.getElem?_eq_some_iff.mp found
              rw [List.length_take] at before
              have before : k < i := by omega
              rw [List.getElem?_take_of_lt before] at found
              have branching := ordered.items_getElem?.mp (walked.linked k source found)
              rw [consistent.branch k _ _ branching i _ _ linked target, ← same]
              exact below k before source found fun jump => by
                simp [reachable.targets_of_jmp branching jump] at target
      refine ⟨entered, fun plain => ?_⟩
      exact (consistent.moves_of_ne_jmp linked plain).mono
        (Instruction.moves_of_depthAfter (walked.after i visit there)) entered

/-- A walk that enters no instruction lower than the machine does has lost nothing. -/
theorem kept_of_le (consistent : assigned.Consistent .machine body resolver)
    (ordered : body.code.Ordered) (walked : body.Walked resolver visits)
    (all : visits.length = body.code.items.length)
    (entered : ∀ (i : Nat) visit, visits[i]? = some visit → assigned.entry i ≤ visit.entry) :
    assigned.Kept body visits where
  breaks := by
    rintro i id item linked _ next follower behind rfl breaks unentered
    have items := ordered.items_getElem?.mpr behind
    obtain ⟨inside, _⟩ := List.getElem?_eq_some_iff.mp items
    rw [← all] at inside
    have there : visits[i + 1]? = some visits[i + 1] := List.getElem?_eq_getElem inside
    have found : visits[i]? = some visits[i] := List.getElem?_eq_getElem (by omega)
    have here := (walked.linked i _ found).symm.trans (ordered.items_getElem?.mpr linked)
    have next_eq := (walked.linked (i + 1) _ there).symm.trans items
    simp only [Option.some.injEq, Prod.mk.injEq] at here next_eq
    have length : (visits.take (i + 1)).length = i + 1 := by rw [List.length_take]; omega
    have unseeded := (walked.take (i + 1)).seedValues_of_unentered ordered unentered
      (Nat.le_of_eq length)
    have empty : visits[i + 1].entry = 0 := by
      rw [walked.entry (i + 1) _ there, next_eq.1, MethodBody.entryDepth_of_nil unseeded,
        DepthVisit.carried_eq length ((List.getElem?_take_of_lt (Nat.lt_succ_self i)).trans found),
        here.2, breaks]
      rfl
    have fallen := consistent.falls i id item linked (by simp [DepthRules.machine, breaks])
      (List.getElem?_eq_some_iff.mp behind.1).1
    rw [consistent.after_of_breakpoint linked breaks] at fallen
    have le := entered (i + 1) _ there
    rw [fallen, empty] at le
    exact Int.le_antisymm le (consistent.entry_nonneg linked)
  jumps := by
    intro i id item linked jump visit there
    have behind := ordered.items_getElem?.mp (walked.linked (i + 1) visit there)
    exact Int.le_trans (consistent.entry_nonneg behind) (entered (i + 1) visit there)

end DepthAssignment.Consistent

/-- On a body whose depths fit together for the machine, the walk is nowhere below the machine if
    and only if no breakpoint and no jump loses a depth. Then the computed maximum is enough at
    every linked instruction. -/
theorem DepthCalculator.compute_covers (calculator : DepthCalculator)
    (reachable : calculator.body.code.Reachable) {assigned : DepthAssignment}
    (consistent : assigned.Consistent .machine calculator.body calculator.resolver) {maxStack : Nat}
    (computed : calculator.compute.1 = .ok maxStack) :
    let visits := (calculator.body.analyzeDepth calculator.resolver).visits
    ((∀ (i : Nat) visit, visits[i]? = some visit → assigned.entry i ≤ visit.entry) ↔
        assigned.Kept calculator.body visits) ∧
      (assigned.Kept calculator.body visits → ∀ i < calculator.body.code.length,
        assigned.entry i ≤ maxStack ∧ assigned.after i ≤ maxStack) := by
  intro visits
  have ordered := reachable.ordered
  have analyzed := calculator.body.analyzed calculator.resolver
  have all : visits.length = calculator.body.code.items.length := by
    refine Nat.le_antisymm analyzed.walked.length_le (Nat.le_of_not_lt fun short => ?_)
    obtain ⟨reason, _, failed⟩ := analyzed.stops _ _ (List.getElem?_eq_getElem short)
    cases failed.symm.trans computed
  have peak : (maxStack : Int) = DepthVisit.peak visits := by
    have total : .ok (DepthVisit.peak visits).toNat = calculator.compute.1 :=
      (analyzed.completes all).symm
    rw [← Except.ok.inj (total.trans computed)]
    exact Int.toNat_of_nonneg (DepthVisit.peak_spec visits).1.1
  refine ⟨⟨consistent.kept_of_le ordered analyzed.walked all, fun kept i visit there =>
    (consistent.visit_le reachable analyzed.walked kept i visit there).1⟩, fun kept i inside => ?_⟩
  obtain ⟨⟨nonneg, bounds⟩, _⟩ := DepthVisit.peak_spec visits
  rw [← ordered.length_items, ← all] at inside
  have there : visits[i]? = some visits[i] := List.getElem?_eq_getElem inside
  have linked := ordered.items_getElem?.mp (analyzed.walked.linked i _ there)
  obtain ⟨entered, left⟩ := consistent.visit_le reachable analyzed.walked kept i _ there
  obtain ⟨entry_le, after_le⟩ := bounds _ (List.getElem_mem inside)
  rw [peak]
  refine ⟨Int.le_trans entered entry_le, ?_⟩
  by_cases jump : visits[i].item.code = .jmp
  · have moves := consistent.moves i _ _ linked
    simp only [DepthRules.machine, if_pos jump] at moves
    rw [moves.2]
    exact nonneg
  · exact Int.le_trans (left jump) after_le

/-- Two breakpoints and a jump, behind which nothing is lost: the first breakpoint has a value on
    the stack, and a branch leads to the instruction behind it. -/
def breakingHistory : List Edit := [
  .create .pop .none,
  .push .ldcI40 .none,
  .push .ldcI41 .none,
  .push .brtrue (.target ⟨0⟩),
  .push .breakpoint .none,
  .append ⟨0⟩,
  .push .breakpoint .none,
  .push .jmp (.token ⟨0x06000001⟩),
  .push .ret .none]

def breakingCalculator : DepthCalculator where
  body := { code := InstructionList.empty.edits breakingHistory }
  resolver := {
    method := fun _ => .ok {}
    signature := fun token => .error (.unknownToken token) }

def breakingDepths : DepthAssignment where
  entry i := [0, 1, 2, 1, 1, 0, 0, 0].getD i 0
  after i := [1, 2, 1, 1, 0, 0, 0, 0].getD i 0

theorem breakingCalculator_compute_covers :
    breakingCalculator.body.code.Reachable ∧
      breakingDepths.Consistent .machine breakingCalculator.body breakingCalculator.resolver ∧
      breakingCalculator.compute.1 = .ok 2 ∧
      breakingDepths.Kept breakingCalculator.body
        (breakingCalculator.body.analyzeDepth breakingCalculator.resolver).visits ∧
      ∀ i < breakingCalculator.body.code.length,
        breakingDepths.entry i ≤ 2 ∧ breakingDepths.after i ≤ 2 :=
  have reachable : breakingCalculator.body.code.Reachable := ⟨breakingHistory, by decide +kernel⟩
  have consistent : breakingDepths.Consistent .machine breakingCalculator.body
      breakingCalculator.resolver := by decide +kernel
  have computed : breakingCalculator.compute.1 = .ok 2 := rfl
  have kept : breakingDepths.Kept breakingCalculator.body
      (breakingCalculator.body.analyzeDepth breakingCalculator.resolver).visits := by decide +kernel
  ⟨reachable, consistent, computed, kept,
    (breakingCalculator.compute_covers reachable consistent computed).2 kept⟩

/-- A breakpoint with a value on the stack, and nothing else that leads behind it. -/
def brokenCalculator : DepthCalculator where
  body := { code := InstructionList.empty.edits [
    .push .ldcI40 .none,
    .push .breakpoint .none,
    .push .ldcI40 .none,
    .push .pop .none,
    .push .pop .none,
    .push .ret .none] }
  resolver := breakingCalculator.resolver

def brokenDepths : DepthAssignment where
  entry i := [0, 1, 1, 2, 1, 0].getD i 0
  after i := [1, 1, 2, 1, 0, 0].getD i 0

/-- A jump to a method with a parameter, and a branch with an empty stack around it. -/
def jumpingCalculator : DepthCalculator where
  body := { code := InstructionList.empty.edits [
    .create .ldcI40 .none,
    .push .br (.target ⟨0⟩),
    .push .jmp (.token ⟨0x06000001⟩),
    .append ⟨0⟩,
    .push .pop .none,
    .push .ret .none] }
  resolver := {
    method := fun _ => .ok { paramCount := 1 }
    signature := fun token => .error (.unknownToken token) }

def jumpingDepths : DepthAssignment where
  entry i := [0, 0, 0, 1, 0].getD i 0
  after i := [0, 0, 1, 0, 0].getD i 0

/-- Computed maxima below the depth that the machine needs. -/
theorem compute_below_machine :
    (brokenCalculator.body.code.Reachable ∧
      brokenDepths.Consistent .machine brokenCalculator.body brokenCalculator.resolver ∧
      brokenCalculator.compute.1 = .ok 1 ∧ brokenDepths.after 2 = 2) ∧
    jumpingCalculator.body.code.Reachable ∧
      jumpingDepths.Consistent .machine jumpingCalculator.body jumpingCalculator.resolver ∧
      jumpingCalculator.compute.1 = .ok 0 ∧ jumpingDepths.after 2 = 1 :=
  ⟨⟨⟨_, rfl⟩, by decide +kernel, rfl, rfl⟩, ⟨_, rfl⟩, by decide +kernel, rfl, rfl⟩

end CilProfiler

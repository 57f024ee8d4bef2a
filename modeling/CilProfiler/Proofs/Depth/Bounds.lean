import CilProfiler.Proofs.Depth.Moves
import CilProfiler.Proofs.Depth.Solution

/-! # Bounds of the depths

An instruction leaves at most one value more than it finds, and one that is no call takes at most three
away. So depths rise with the position at most, and without calls they fall with it three times as fast
at most. Where seeds come from does not matter: what is handed to an instruction was left at a position
before it, or is the exception object. Only calls with very many parameters take the depth out of its
range in code of a usual length, and they take it below.
-/

namespace CilProfiler

theorem Depth.ofInt?_eq_none {depth : Int} : ofInt? depth = none ↔ ¬InRange depth := by
  rw [ofInt?]
  split <;> simp [*]

namespace Opcode

variable {op : Opcode} {count : Nat}

/-- What an opcode pushes is at most one value more than it pops. -/
theorem pushes_le_pops (pops : op.info.pops.effect = .count count) :
    op.info.pushes.count ≤ count + 1 := by
  cases op <;> cases pops <;> decide

theorem count_le_three (pops : op.info.pops.effect = .count count) : count ≤ 3 := by
  generalize op.info.pops = behaviour at pops
  cases behaviour <;> cases pops <;> decide

theorem callEffect_le_one (op : Opcode) (callee : CallShape) : op.callEffect callee ≤ 1 := by
  simp only [callEffect]
  split <;> split <;> split <;> omega

end Opcode

namespace Instruction

/-- Depths that an instruction comes through if it is entered at a depth. A plain opcode pops before it
    pushes. -/
inductive Passes (resolver : Resolver) (item : Instruction) (before : Int) : Int → Prop where
  | called {callee : CallShape} (family : item.code.flow = .call)
      (resolved : item.calleeShape resolver = .ok callee) :
      Passes resolver item before (before + item.code.callEffect callee)
  | popped {count : Nat} (plain : item.code.flow ≠ .call)
      (pops : item.code.info.pops.effect = .count count) :
      Passes resolver item before (before - count)
  | pushed {count : Nat} (plain : item.code.flow ≠ .call)
      (pops : item.code.info.pops.effect = .count count) :
      Passes resolver item before (before - count + item.code.info.pushes.count)
  | cleared (plain : item.code.flow ≠ .call) (pops : item.code.info.pops.effect = .all) :
      Passes resolver item before 0
  | kept (plain : item.code.flow ≠ .call) (pops : item.code.info.pops.effect = .variable) :
      Passes resolver item before before

variable {resolver : Resolver} {item : Instruction} {before after depth : Int}

theorem Moves.passes (moves : item.Moves resolver before after) : item.Passes resolver before after := by
  cases moves with
  | call family resolved => exact .called family resolved
  | fixed plain pops => exact .pushed plain pops
  | clears plain pops => exact .cleared plain pops
  | keeps plain pops => exact .kept plain pops

theorem Passes.le (passes : item.Passes resolver before depth) : depth ≤ max (before + 1) 0 := by
  cases passes with
  | @called callee =>
      have effect := item.code.callEffect_le_one callee
      omega
  | popped => omega
  | pushed _ pops =>
      have pushed := Opcode.pushes_le_pops pops
      omega
  | cleared => exact Int.le_max_right _ _
  | kept => omega

theorem Passes.ge (passes : item.Passes resolver before depth) (plain : item.code.flow ≠ .call) :
    min (before - 3) 0 ≤ depth := by
  cases passes with
  | called family => exact absurd family plain
  | popped _ pops | pushed _ pops =>
      have popped := Opcode.count_le_three pops
      omega
  | cleared => exact Int.min_le_right _ _
  | kept => omega

theorem calleeShape_ne_outOfRange (item : Instruction) (resolver : Resolver) (offset : Nat) :
    item.calleeShape resolver ≠ .error (.outOfRange offset) := by
  intro failed
  unfold calleeShape at failed
  split at failed
  · cases failed
  · split at failed
    · rcases Outcome.bind_eq_error.mp failed with unresolved | ⟨blob, -, unparsed⟩
      · obtain ⟨_, -, other⟩ := Outcome.mapError_eq_error.mp unresolved
        cases other
      · obtain ⟨_, -, other⟩ := Outcome.mapError_eq_error.mp unparsed
        cases other
    · obtain ⟨_, -, other⟩ := Outcome.mapError_eq_error.mp failed
      cases other

theorem depthAfter_plain_error (plain : item.code.flow ≠ .call) {reason : DepthError} :
    item.depthAfter resolver before = .error reason ↔
      item.code.depthAfter? before = none ∧ .outOfRange item.offset = reason := by
  simp only [depthAfter, plain, if_false, bind, Except.bind, pure, Except.pure]
  cases item.code.depthAfter? before with
  | none => simp [throw, throwThe, MonadExceptOf.throw]
  | some after => simp

theorem depthAfter_call_error {callee : CallShape} (family : item.code.flow = .call)
    (resolved : item.calleeShape resolver = .ok callee) {reason : DepthError} :
    item.depthAfter resolver before = .error reason ↔
      Depth.ofInt? (before + item.code.callEffect callee) = none ∧
        .outOfRange item.offset = reason := by
  simp only [depthAfter, family, if_true, resolved, bind, Except.bind, pure, Except.pure]
  cases Depth.ofInt? (before + item.code.callEffect callee) with
  | none => simp [throw, throwThe, MonadExceptOf.throw]
  | some after => simp

/-- What is no call fails for its depth only. -/
theorem exists_passes_of_plain (plain : item.code.flow ≠ .call) {reason : DepthError}
    (failed : item.depthAfter resolver before = .error reason) :
    reason = .outOfRange item.offset ∧ ∃ depth, item.Passes resolver before depth ∧ ¬Depth.InRange depth := by
  obtain ⟨unbounded, rfl⟩ := (depthAfter_plain_error plain).mp failed
  refine ⟨rfl, ?_⟩
  cases pops : item.code.info.pops.effect with
  | count count =>
      rw [Opcode.depthAfter?_count pops, Option.bind_eq_none_iff] at unbounded
      by_cases popped : Depth.InRange (before - count)
      · have pushed := unbounded _ (if_pos popped)
        exact ⟨_, .pushed plain pops, Depth.ofInt?_eq_none.mp pushed⟩
      · exact ⟨_, .popped plain pops, popped⟩
  | all =>
      rw [Opcode.depthAfter?_all pops] at unbounded
      exact ⟨0, .cleared plain pops, Depth.ofInt?_eq_none.mp unbounded⟩
  | «variable» =>
      rw [Opcode.depthAfter?_variable plain pops] at unbounded
      exact ⟨before, .kept plain pops, Depth.ofInt?_eq_none.mp unbounded⟩

/-- An instruction that cannot be evaluated for its depth comes through one that is out of range. -/
theorem exists_passes_of_outOfRange {offset : Nat}
    (failed : item.depthAfter resolver before = .error (.outOfRange offset)) :
    item.offset = offset ∧ ∃ depth, item.Passes resolver before depth ∧ ¬Depth.InRange depth := by
  by_cases family : item.code.flow = .call
  · cases resolved : item.calleeShape resolver with
    | error reason =>
        have same : item.depthAfter resolver before = .error reason := by
          simp only [depthAfter, family, if_true, resolved, bind, Except.bind]
        cases same.symm.trans failed
        exact absurd resolved (item.calleeShape_ne_outOfRange resolver offset)
    | ok callee =>
        obtain ⟨unbounded, same⟩ := (depthAfter_call_error family resolved).mp failed
        cases same
        exact ⟨rfl, _, .called family resolved, Depth.ofInt?_eq_none.mp unbounded⟩
  · obtain ⟨same, passes⟩ := exists_passes_of_plain family failed
    cases same
    exact ⟨rfl, passes⟩

end Instruction

namespace InstructionList

variable {list : InstructionList}

theorem length_items_le (list : InstructionList) : list.items.length ≤ list.length :=
  List.length_filterMap_le _ _

theorem exists_linked_of_mem_items {entry : InstrId × Instruction} (member : entry ∈ list.items) :
    ∃ position, list.Linked position entry.1 entry.2 := by
  obtain ⟨id, ordered, found⟩ := List.mem_filterMap.mp member
  obtain ⟨item, there, rfl⟩ := Option.map_eq_some_iff.mp found
  obtain ⟨position, placed⟩ := List.getElem?_of_mem ordered
  exact ⟨position, placed, there⟩

end InstructionList

namespace MethodBody

variable {body : MethodBody} {resolver : Resolver} {visits : List DepthVisit} {i : Nat} {id : InstrId}
  {item : Instruction}

/-- What an instruction is entered with is nothing, the exception object or what a visit left. -/
theorem entryDepth_of {motive : Depth → Prop} (empty : motive 0)
    (object : id ∈ body.exceptionStarts → motive 1) (left : ∀ visit ∈ visits, motive visit.after) :
    motive (body.entryDepth visits id) := by
  by_cases unseeded : body.seedValues visits id = []
  · rw [entryDepth_of_nil unseeded, DepthVisit.carried]
    split
    · exact empty
    · rename_i last there
      split
      · exact empty
      · exact left last (List.mem_of_getLast? there)
  · have handed := (entryDepth_greatest unseeded).1
    rcases mem_seedValues.mp handed with ⟨starts, same⟩ | ⟨visit, member, -, -, same⟩
    · rw [same]
      exact object starts
    · rw [← same]
      exact left visit member

/-- A property of depths holds in front of every instruction that a walk comes to if it holds of what
    entries start from and instructions keep it. It may depend on the position and get weaker there. -/
theorem Walked.invariant {motive : Nat → Int → Prop} (walked : body.Walked resolver visits)
    (empty : ∀ i, motive i 0)
    (object : ∀ i, ∀ entry ∈ body.code.items, entry.1 ∈ body.exceptionStarts → motive i 1)
    (later : ∀ i depth, motive i depth → motive (i + 1) depth)
    (step : ∀ (i : Nat) visit, visits[i]? = some visit → motive i visit.entry →
      motive (i + 1) visit.after) (within : i ≤ visits.length) :
    (∀ visit ∈ visits.take i, motive i visit.after) ∧
      ∀ entry ∈ body.code.items, motive i (body.entryDepth (visits.take i) entry.1) := by
  suffices left : ∀ visit ∈ visits.take i, motive i visit.after from
    ⟨left, fun entry member => entryDepth_of (empty i) (object i entry member) left⟩
  induction i with
  | zero => simp
  | succ i ih =>
      have before := ih (Nat.le_of_succ_le within)
      have there : visits[i]? = some visits[i] := List.getElem?_eq_getElem within
      intro visit member
      rw [List.take_add_one, List.mem_append, there] at member
      rcases member with member | member
      · exact later i _ (before visit member)
      · have last : visit = visits[i] := List.mem_singleton.mp member
        subst last
        have linked := List.mem_of_getElem? (walked.linked i _ there)
        refine step i _ there ?_
        rw [walked.entry i _ there]
        exact entryDepth_of (empty i) (object i _ linked) before

/-- Depths rise by one from position to position at most; the exception object counts on top. -/
theorem Walked.entryDepth_le (walked : body.Walked resolver visits) {extra : Nat}
    (object : ∀ entry ∈ body.code.items, entry.1 ∈ body.exceptionStarts → 1 ≤ extra)
    (within : i ≤ visits.length) :
    (∀ visit ∈ visits.take i, (i : Int) + extra ≥ visit.after) ∧
      ∀ entry ∈ body.code.items, (i : Int) + extra ≥ body.entryDepth (visits.take i) entry.1 := by
  refine walked.invariant (motive := fun i depth => (i : Int) + extra ≥ depth) ?_ ?_ ?_ ?_ within
  · intro i
    omega
  · intro i entry member starts
    have counted := object entry member starts
    omega
  · intro i depth below
    omega
  · intro i visit there entered
    have moved := (Instruction.moves_of_depthAfter (walked.after i visit there)).passes.le
    omega

/-- Code without calls takes three values per instruction away at most. -/
theorem Walked.le_entryDepth (walked : body.Walked resolver visits)
    (plain : ∀ entry ∈ body.code.items, entry.2.code.flow ≠ .call) (within : i ≤ visits.length) :
    ∀ entry ∈ body.code.items, -3 * (i : Int) ≤ body.entryDepth (visits.take i) entry.1 := by
  refine (walked.invariant (motive := fun i depth => -3 * (i : Int) ≤ depth) ?_ ?_ ?_ ?_ within).2
  · intro i
    omega
  · intro i entry member starts
    omega
  · intro i depth above
    omega
  · intro i visit there entered
    have member := List.mem_of_getElem? (walked.linked i visit there)
    have moved := (Instruction.moves_of_depthAfter (walked.after i visit there)).passes.ge (plain _ member)
    omega

theorem Walked.peak_le (walked : body.Walked resolver visits) {extra : Nat}
    (object : ∀ entry ∈ body.code.items, entry.1 ∈ body.exceptionStarts → 1 ≤ extra) :
    (visits.length : Int) + extra ≥ DepthVisit.peak visits := by
  rcases (DepthVisit.peak_spec visits).2 with zero | ⟨visit, member, entered | left⟩
  · rw [zero]
    omega
  · obtain ⟨i, there⟩ := List.getElem?_of_mem member
    obtain ⟨inside, -⟩ := List.getElem?_eq_some_iff.mp there
    have bound := (walked.entryDepth_le object (Nat.le_of_lt inside)).2 _
      (List.mem_of_getElem? (walked.linked i visit there))
    rw [← walked.entry i visit there, entered] at bound
    omega
  · rw [← left]
    refine (walked.entryDepth_le object (Nat.le_refl _)).1 visit ?_
    rwa [List.take_length]

/-- The depths of a body fall out of their range at an instruction with this offset, below and not
    above. -/
def Sinks (body : MethodBody) (resolver : Resolver) (offset : Nat) : Prop :=
  ∃ visits id item entry, body.Solves resolver visits ∧
    body.code.items[visits.length]? = some (id, item) ∧ body.Enters visits visits.length id entry ∧
    item.offset = offset ∧ (∃ depth, item.Passes resolver entry depth ∧ depth < -0x80000000) ∧
    ∀ depth, item.Passes resolver entry depth → depth ≤ 0x7FFFFFFF

section Stop

variable (walked : body.Walked resolver visits)
  (found : body.code.items[visits.length]? = some (id, item)) {depth : Int}
  (passes : item.Passes resolver (body.entryDepth visits id) depth)

include walked found passes

theorem Walked.passes_le : depth ≤ (body.code.length : Int) + 1 := by
  have object : ∀ entry ∈ body.code.items, entry.1 ∈ body.exceptionStarts → 1 ≤ 1 :=
    fun _ _ _ => Nat.le_refl 1
  have bound := (walked.entryDepth_le object (Nat.le_refl _)).2 (id, item) (List.mem_of_getElem? found)
  simp only [List.take_length] at bound
  obtain ⟨inside, -⟩ := List.getElem?_eq_some_iff.mp found
  have items := body.code.length_items_le
  have rise := passes.le
  omega

theorem Walked.le_passes (plain : ∀ entry ∈ body.code.items, entry.2.code.flow ≠ .call) :
    -3 * (body.code.length : Int) ≤ depth := by
  have member := List.mem_of_getElem? found
  have bound := walked.le_entryDepth plain (Nat.le_refl _) (id, item) member
  simp only [List.take_length] at bound
  obtain ⟨inside, -⟩ := List.getElem?_eq_some_iff.mp found
  have items := body.code.length_items_le
  have fall := passes.ge (plain _ member)
  omega

end Stop

variable {maxStack offset : Nat}

theorem le_of_outcome {extra : Nat} (computed : (body.analyzeDepth resolver).outcome = .ok maxStack)
    (object : body.code.ForallLinked fun _ id _ => id ∈ body.exceptionStarts → 1 ≤ extra) :
    maxStack ≤ body.code.length + extra := by
  have analyzed := body.analyzed resolver
  have peak := analyzed.peak_of_ok computed
  have bound := analyzed.walked.peak_le fun entry member => by
    obtain ⟨position, linked⟩ := InstructionList.exists_linked_of_mem_items member
    exact object position _ _ linked
  have length := analyzed.walked.length_le
  have items := body.code.length_items_le
  omega

/-- In code of a usual length the depth gets out of range below, not above. -/
theorem sinks_of_outcome (usual : body.code.length ≤ 0x7FFFFFFE)
    (stopped : (body.analyzeDepth resolver).outcome = .error (.outOfRange offset)) :
    body.Sinks resolver offset := by
  have analyzed := body.analyzed resolver
  obtain ⟨id, item, entry, found, enters, failed⟩ := (analyzed.outcome_eq_error _).mp stopped
  have reached := (enters_iff (Nat.le_refl _)).mp enters
  rw [List.take_length] at reached
  have high : ∀ depth, item.Passes resolver entry depth → depth ≤ 0x7FFFFFFF := by
    intro depth passes
    have bound := analyzed.walked.passes_le found (reached ▸ passes)
    omega
  obtain ⟨same, depth, passes, outside⟩ := Instruction.exists_passes_of_outOfRange failed
  have bound := high depth passes
  unfold Depth.InRange at outside
  exact ⟨_, id, item, entry, body.analyzed_solves resolver, found, enters, same,
    ⟨depth, passes, by omega⟩, high⟩

/-- Without calls the range is left in neither direction, and there is nothing else to fail for. -/
theorem outcome_of_plain (plain : body.code.ForallLinked fun _ _ item => item.code.flow ≠ .call)
    (usual : body.code.length < 0x20000000) :
    ∃ maxStack, (body.analyzeDepth resolver).outcome = .ok maxStack := by
  have analyzed := body.analyzed resolver
  have plain' : ∀ entry ∈ body.code.items, entry.2.code.flow ≠ .call := by
    intro entry member
    obtain ⟨position, linked⟩ := InstructionList.exists_linked_of_mem_items member
    exact plain position _ _ linked
  cases stopped : (body.analyzeDepth resolver).outcome with
  | ok maxStack => exact ⟨maxStack, rfl⟩
  | error reason =>
      obtain ⟨id, item, entry, found, enters, failed⟩ := (analyzed.outcome_eq_error _).mp stopped
      have reached := (enters_iff (Nat.le_refl _)).mp enters
      rw [List.take_length] at reached
      obtain ⟨-, depth, passes, outside⟩ :=
        Instruction.exists_passes_of_plain (plain' _ (List.mem_of_getElem? found)) failed
      have high := analyzed.walked.passes_le found (reached ▸ passes)
      have low := analyzed.walked.le_passes found (reached ▸ passes) plain'
      exact absurd ⟨by omega, by omega⟩ outside

end MethodBody

/-- The maximum of a body exceeds the number of its instructions by the exception object at most. In
    code of a usual length no depth gets too high, so one that is out of its range is below it, and
    without calls none is. -/
theorem DepthCalculator.compute_bounded (calculator : DepthCalculator) :
    (∀ maxStack, calculator.compute.1 = .ok maxStack →
      maxStack ≤ calculator.body.code.length + 1 ∧
        ((calculator.body.code.ForallLinked fun _ id _ => id ∉ calculator.body.exceptionStarts) →
          maxStack ≤ calculator.body.code.length)) ∧
      (calculator.body.code.length ≤ 0x7FFFFFFE → ∀ offset,
        calculator.compute.1 = .error (.outOfRange offset) →
          calculator.body.Sinks calculator.resolver offset) ∧
      ((calculator.body.code.ForallLinked fun _ _ item => item.code.flow ≠ .call) →
        calculator.body.code.length < 0x20000000 → ∃ maxStack, calculator.compute.1 = .ok maxStack) := by
  refine ⟨fun maxStack computed => ⟨?_, fun unentered => ?_⟩, fun usual offset => ?_, ?_⟩
  · exact MethodBody.le_of_outcome computed fun _ _ _ _ _ => Nat.le_refl 1
  · have object : calculator.body.code.ForallLinked fun _ id _ =>
        id ∈ calculator.body.exceptionStarts → 1 ≤ 0 :=
      fun position id item linked starts => absurd starts (unentered position id item linked)
    exact MethodBody.le_of_outcome computed object
  · exact MethodBody.sinks_of_outcome usual
  · exact MethodBody.outcome_of_plain

/-- Handlers and code, where methods take very many parameters. -/
def runawayCalculator (clauses : List ExceptionClause) (history : List Edit) : DepthCalculator where
  body := { code := InstructionList.empty.edits history, clauses }
  resolver := {
    method := fun _ => .ok { paramCount := 0x1FFFFFFF }
    signature := fun token => .error (.unknownToken token) }

/-- A handler that doubles the exception object. -/
def doublingCalculator : DepthCalculator :=
  runawayCalculator [{ kind := .catching, tryStart := ⟨0⟩, handlerStart := ⟨0⟩ }] [.push .dup .none]

/-- The same code without the handler. -/
def unhandledCalculator : DepthCalculator :=
  runawayCalculator [] [.push .dup .none]

/-- Calls, the fifth of which takes the depth below what can be represented. -/
def sinkingCalculator : DepthCalculator :=
  runawayCalculator [] (.replicate 5 (.push .call (.token ⟨0x06000001⟩)))

theorem runawayCalculator_compute_bounded :
    (doublingCalculator.compute.1 = .ok 2 ∧ 2 ≤ doublingCalculator.body.code.length + 1) ∧
    (unhandledCalculator.compute.1 = .ok 1 ∧ 1 ≤ unhandledCalculator.body.code.length ∧
      ∃ maxStack, unhandledCalculator.compute.1 = .ok maxStack) ∧
    sinkingCalculator.compute.1 = .error (.outOfRange 0x14) ∧
      sinkingCalculator.body.Sinks sinkingCalculator.resolver 0x14 := by
  refine ⟨⟨by decide +kernel, ?_⟩, ⟨by decide +kernel, ?_, ?_⟩, by decide +kernel, ?_⟩
  · exact (doublingCalculator.compute_bounded.1 2 (by decide +kernel)).1
  · exact (unhandledCalculator.compute_bounded.1 1 (by decide +kernel)).2 (by decide +kernel)
  · exact unhandledCalculator.compute_bounded.2.2 (by decide +kernel) (by decide +kernel)
  · exact sinkingCalculator.compute_bounded.2.1 (by decide +kernel) 0x14 (by decide +kernel)

end CilProfiler

import CilProfiler.Proofs.Depth.Bounds

/-! # Failures of a depth computation

A computation fails at one instruction: those before it can be processed, it cannot. Four things can be
wrong with it, and what is wrong says which error is given. Callees that do not resolve are found also
where no path leads, since the walk passes every linked instruction.

What comes behind the instruction has no part in this, though branches and handlers may lead there. So
another body with the same beginning fails in the same way. The body itself keeps its header.
-/

namespace CilProfiler

theorem Operand.eq_token {operand : Operand} {callee : Token} (named : operand.token? = some callee) :
    operand = .token callee := by
  cases operand with
  | token value => exact congrArg Operand.token (Option.some.inj named)
  | none | int8 | uint8 | uint16 | int32 | int64 | float32 | float64 | string | target | switch =>
      cases named

/-- Offset of the instruction that an error is about. -/
def DepthError.offset : DepthError → Nat
  | .missingCallToken offset | .resolve offset _ _ | .outOfRange offset | .signature offset _ _ => offset

namespace Instruction

variable {resolver : Resolver} {item : Instruction} {depth : Depth} {reason : DepthError}
  {callee : Token}

/-- What a call names is known to the resolver: a method, or for an indirect call a signature that is
    well formed. -/
inductive Resolves (resolver : Resolver) (item : Instruction) : Prop where
  | method {callee : Token} {shape : CallShape} (direct : item.code ≠ .calli)
      (operand : item.operand = .token callee) (found : resolver.method callee = .ok shape)
  | signature {callee : Token} {blob : List UInt8} {shape : CallShape} (indirect : item.code = .calli)
      (operand : item.operand = .token callee) (found : resolver.signature callee = .ok blob)
      (parsed : CallShape.parse blob = .ok shape)

/-- Why a call does not tell what it calls. -/
inductive Unresolved (resolver : Resolver) (item : Instruction) : DepthError → Prop where
  | method {callee : Token} {cause : LookupError} (direct : item.code ≠ .calli)
      (operand : item.operand = .token callee) (refused : resolver.method callee = .error cause) :
      Unresolved resolver item (.resolve item.offset callee cause)
  | signature {callee : Token} {cause : LookupError} (indirect : item.code = .calli)
      (operand : item.operand = .token callee) (refused : resolver.signature callee = .error cause) :
      Unresolved resolver item (.resolve item.offset callee cause)
  | malformed {callee : Token} {blob : List UInt8} {cause : BlobError} (indirect : item.code = .calli)
      (operand : item.operand = .token callee) (found : resolver.signature callee = .ok blob)
      (malformed : CallShape.parse blob = .error cause) :
      Unresolved resolver item (.signature item.offset callee cause)

/-- Why an instruction cannot be processed when it is entered at a depth: it is a call that is not
    resolved, or it comes through a depth that cannot be represented. -/
inductive Fails (resolver : Resolver) (item : Instruction) (depth : Depth) : DepthError → Prop where
  | unresolved {reason : DepthError} (family : item.code.flow = .call)
      (unresolved : item.Unresolved resolver reason) : Fails resolver item depth reason
  | outOfRange {through : Int} (passes : item.Passes resolver depth through)
      (outside : ¬Depth.InRange through) : Fails resolver item depth (.outOfRange item.offset)

theorem calleeShape_direct (direct : item.code ≠ .calli) (operand : item.operand = .token callee) :
    item.calleeShape resolver =
      (resolver.method callee).mapError (.resolve item.offset callee) := by
  have named : item.token? = some callee := congrArg Operand.token? operand
  simp only [calleeShape, named, direct, if_false]

theorem calleeShape_indirect (indirect : item.code = .calli) (operand : item.operand = .token callee) :
    item.calleeShape resolver =
      (resolver.signature callee).mapError (.resolve item.offset callee) >>= fun blob =>
        (CallShape.parse blob).mapError (.signature item.offset callee) := by
  have named : item.token? = some callee := congrArg Operand.token? operand
  simp only [calleeShape, named, indirect, if_true]

theorem resolves_of_calleeShape (operand : item.operand = .token callee) {shape : CallShape}
    (resolved : item.calleeShape resolver = .ok shape) : item.Resolves resolver := by
  by_cases indirect : item.code = .calli
  · rw [calleeShape_indirect indirect operand] at resolved
    obtain ⟨blob, found, parsed⟩ := Outcome.bind_eq_ok.mp resolved
    exact .signature indirect operand (Outcome.mapError_eq_ok.mp found)
      (Outcome.mapError_eq_ok.mp parsed)
  · rw [calleeShape_direct indirect operand] at resolved
    exact .method indirect operand (Outcome.mapError_eq_ok.mp resolved)

theorem calleeShape_eq_error (operand : item.operand = .token callee) :
    item.calleeShape resolver = .error reason ↔ item.Unresolved resolver reason := by
  constructor
  · intro failed
    by_cases indirect : item.code = .calli
    · rw [calleeShape_indirect indirect operand] at failed
      rcases Outcome.bind_eq_error.mp failed with unknown | ⟨blob, found, unparsed⟩
      · obtain ⟨cause, refused, rfl⟩ := Outcome.mapError_eq_error.mp unknown
        exact .signature indirect operand refused
      · obtain ⟨cause, malformed, rfl⟩ := Outcome.mapError_eq_error.mp unparsed
        exact .malformed indirect operand (Outcome.mapError_eq_ok.mp found) malformed
    · rw [calleeShape_direct indirect operand] at failed
      obtain ⟨cause, refused, rfl⟩ := Outcome.mapError_eq_error.mp failed
      exact .method indirect operand refused
  · intro unresolved
    cases unresolved with
    | method direct operand refused =>
        rw [calleeShape_direct direct operand]
        exact Outcome.mapError_eq_error.mpr ⟨_, refused, rfl⟩
    | signature indirect operand refused =>
        rw [calleeShape_indirect indirect operand]
        exact Outcome.bind_eq_error.mpr (.inl (Outcome.mapError_eq_error.mpr ⟨_, refused, rfl⟩))
    | malformed indirect operand found malformed =>
        rw [calleeShape_indirect indirect operand]
        exact Outcome.bind_eq_error.mpr (.inr ⟨_, Outcome.mapError_eq_ok.mpr found,
          Outcome.mapError_eq_error.mpr ⟨_, malformed, rfl⟩⟩)

theorem depthAfter_unresolved (family : item.code.flow = .call)
    (unresolved : item.calleeShape resolver = .error reason) :
    item.depthAfter resolver depth = .error reason := by
  simp only [depthAfter, family, if_true, unresolved, bind, Except.bind]

theorem depthAfter_outside {through : Int} (passes : item.Passes resolver depth through)
    (outside : ¬Depth.InRange through) :
    item.depthAfter resolver depth = .error (.outOfRange item.offset) := by
  have none := Depth.ofInt?_eq_none.mpr outside
  cases passes with
  | called family resolved => exact (depthAfter_call_error family resolved).mpr ⟨none, rfl⟩
  | popped plain pops =>
      refine (depthAfter_plain_error plain).mpr ⟨?_, rfl⟩
      rw [Opcode.depthAfter?_count pops, none, Option.bind_none]
  | pushed plain pops =>
      refine (depthAfter_plain_error plain).mpr ⟨?_, rfl⟩
      rw [Opcode.depthAfter?_count pops, Option.bind_eq_none_iff]
      intro popped given
      rw [← Depth.eq_of_ofInt? given]
      exact none
  | cleared plain pops =>
      exact (depthAfter_plain_error plain).mpr ⟨(Opcode.depthAfter?_all pops _).trans none, rfl⟩
  | kept plain pops =>
      exact (depthAfter_plain_error plain).mpr ⟨(Opcode.depthAfter?_variable plain pops _).trans none, rfl⟩

theorem depthAfter_eq_error (taken : item.code.Takes item.operand) :
    item.depthAfter resolver depth = .error reason ↔ item.Fails resolver depth reason := by
  constructor
  · intro failed
    by_cases family : item.code.flow = .call
    · obtain ⟨callee, named, -⟩ := taken.token_of_call family
      have operand := Operand.eq_token named
      cases resolved : item.calleeShape resolver with
      | error cause =>
          cases (depthAfter_unresolved family resolved).symm.trans failed
          exact .unresolved family ((calleeShape_eq_error operand).mp resolved)
      | ok shape =>
          obtain ⟨unbounded, rfl⟩ := (depthAfter_call_error family resolved).mp failed
          exact .outOfRange (.called family resolved) (Depth.ofInt?_eq_none.mp unbounded)
    · obtain ⟨rfl, through, passes, outside⟩ := exists_passes_of_plain family failed
      exact .outOfRange passes outside
  · intro fails
    cases fails with
    | unresolved family unresolved =>
        obtain ⟨callee, named, -⟩ := taken.token_of_call family
        exact depthAfter_unresolved family
          ((calleeShape_eq_error (Operand.eq_token named)).mpr unresolved)
    | outOfRange passes outside => exact depthAfter_outside passes outside

/-- A call that is processed has resolved. -/
theorem resolves_of_depthAfter (taken : item.code.Takes item.operand) (family : item.code.flow = .call)
    {after : Depth} (done : item.depthAfter resolver depth = .ok after) : item.Resolves resolver := by
  obtain ⟨callee, named, -⟩ := taken.token_of_call family
  cases resolved : item.calleeShape resolver with
  | error cause => cases (depthAfter_unresolved family resolved).symm.trans done
  | ok shape => exact resolves_of_calleeShape (Operand.eq_token named) resolved

/-- An error is about the offset of the instruction that fails. -/
theorem Fails.offset_eq (fails : item.Fails resolver depth reason) : reason.offset = item.offset := by
  cases fails with
  | unresolved _ unresolved => cases unresolved <;> rfl
  | outOfRange => rfl

end Instruction

namespace MethodBody

variable {body other : MethodBody} {resolver : Resolver} {position : Nat} {reason : DepthError}

/-- The first instruction that cannot be processed is at a position, and this is why: the equations for
    the depths are solved up to there, and fail with what the instruction is entered with. -/
inductive FailsAt (body : MethodBody) (resolver : Resolver) (position : Nat) (reason : DepthError) :
    Prop where
  | intro {visits : List DepthVisit} {id : InstrId} {item : Instruction} {entry : Depth}
      (solves : body.Solves resolver visits) (reached : visits.length = position)
      (linked : body.code.Linked position id item) (enters : body.Enters visits position id entry)
      (fails : item.Fails resolver entry reason)

theorem outcome_eq_error_iff (reachable : body.code.Reachable) :
    (body.analyzeDepth resolver).outcome = .error reason ↔
      ∃ position, body.FailsAt resolver position reason := by
  rw [(body.analyzed resolver).outcome_eq_error]
  constructor
  · rintro ⟨id, item, entry, found, enters, failed⟩
    have linked := reachable.ordered.items_getElem?.mp found
    have fails := (Instruction.depthAfter_eq_error (reachable.takes linked.2)).mp failed
    exact ⟨_, .intro (body.analyzed_solves resolver) rfl linked enters fails⟩
  · rintro ⟨_, @⟨visits, id, item, entry, solves, rfl, linked, enters, fails⟩⟩
    obtain rfl := solves_iff.mp solves
    exact ⟨id, item, entry, reachable.ordered.items_getElem?.mpr linked, enters,
      (Instruction.depthAfter_eq_error (reachable.takes linked.2)).mpr fails⟩

namespace FailsAt

/-- The instruction that fails is behind those that the walk has visited. -/
theorem position_eq (fails : body.FailsAt resolver position reason) :
    position = (body.analyzeDepth resolver).visits.length := by
  obtain ⟨solves, reached, -, -, -⟩ := fails
  rw [← reached, solves_iff.mp solves]

/-- The offset in an error is the size of the code in front of the instruction that fails. -/
theorem offset_eq (fails : body.FailsAt resolver position reason) (reachable : body.code.Reachable) :
    reason.offset = body.code.arena.span (body.code.order.take position) := by
  obtain ⟨_, _, linked, _, failed⟩ := fails
  rw [failed.offset_eq, reachable.offset_eq linked]

/-- A body that begins in the same way fails in the same way. -/
theorem outcome_of_shares (fails : body.FailsAt resolver position reason)
    (reachable : body.code.Reachable) (reachable' : other.code.Reachable)
    (shares : body.SharesPrefix other (position + 1)) :
    (other.analyzeDepth resolver).outcome = .error reason := by
  rw [← (outcome_eq_error_iff reachable).mpr ⟨position, fails⟩]
  refine (shares.agreesUpTo reachable reachable').outcome_of_short reachable.ordered
    reachable'.ordered (body.analyzed resolver) (other.analyzed resolver) ?_
  rw [fails.position_eq]
  exact Nat.lt_succ_self _

end FailsAt

/-- A computation that succeeds has resolved every call, also where no path leads. -/
theorem resolves_of_outcome (reachable : body.code.Reachable) {maxStack : Nat}
    (computed : (body.analyzeDepth resolver).outcome = .ok maxStack) :
    body.code.ForallLinked fun _ _ item => item.code.flow = .call → item.Resolves resolver := by
  intro position id item linked family
  have analyzed := body.analyzed resolver
  have inside : position < (body.analyzeDepth resolver).visits.length := by
    rw [analyzed.length_of_ok computed, reachable.ordered.length_items]
    exact (List.getElem?_eq_some_iff.mp linked.1).1
  have there := List.getElem?_eq_getElem inside
  have found := reachable.ordered.items_getElem?.mpr linked
  have same := (analyzed.walked.linked position _ there).symm.trans found
  simp only [Option.some.injEq, Prod.mk.injEq] at same
  have done := analyzed.walked.after position _ there
  rw [same.2] at done
  exact Instruction.resolves_of_depthAfter (reachable.takes linked.2) family done

theorem recalculate_of_ok {maxStack : Nat} (computed : body.requiredStack resolver = .ok maxStack) :
    body.recalculate resolver = (.ok maxStack, { body with maxStack }) := by
  simp only [recalculate, withRequiredStack, computed, bind, Except.bind, pure, Except.pure]

theorem recalculate_of_error (failed : body.requiredStack resolver = .error reason) :
    body.recalculate resolver = (.error reason, body) := by
  simp only [recalculate, withRequiredStack, failed, bind, Except.bind]

end MethodBody

/-- A computation succeeds only if every call resolves, those in dead code included. It fails exactly
    if some instruction cannot be processed: the error is that of the first one and gives the size of
    the code in front of it, and any body with the same beginning up to there gives the same error.
    Recalculating a body then leaves it as it is, and changes its capacity only otherwise. -/
theorem DepthCalculator.compute_precise (calculator : DepthCalculator)
    (reachable : calculator.body.code.Reachable) :
    (∀ maxStack, calculator.compute.1 = .ok maxStack → calculator.body.code.ForallLinked fun _ _ item =>
      item.code.flow = .call → item.Resolves calculator.resolver) ∧
    (∀ reason, calculator.compute.1 = .error reason ↔
      ∃ position, calculator.body.FailsAt calculator.resolver position reason) ∧
    (∀ position reason, calculator.body.FailsAt calculator.resolver position reason →
      reason.offset = calculator.body.code.arena.span (calculator.body.code.order.take position) ∧
      ∀ other : DepthCalculator, other.resolver = calculator.resolver → other.body.code.Reachable →
        calculator.body.SharesPrefix other.body (position + 1) → other.compute.1 = .error reason) ∧
    (∀ reason, calculator.compute.1 = .error reason →
      calculator.body.recalculate calculator.resolver = (.error reason, calculator.body)) ∧
    ∀ maxStack, calculator.compute.1 = .ok maxStack →
      calculator.body.recalculate calculator.resolver =
        (.ok maxStack, { calculator.body with maxStack }) := by
  refine ⟨fun _ computed => MethodBody.resolves_of_outcome reachable computed,
    fun _ => MethodBody.outcome_eq_error_iff reachable, fun position reason fails => ?_,
    fun _ failed => MethodBody.recalculate_of_error failed,
    fun _ computed => MethodBody.recalculate_of_ok computed⟩
  refine ⟨fails.offset_eq reachable, fun other resolver reachable' shares => ?_⟩
  have failed := fails.outcome_of_shares reachable reachable' shares
  rwa [← resolver] at failed

/-- A handler that no path leads to, with an indirect call in it, and a branch over both. -/
def abortingHistory : List Edit := [
  .create .ret .none,
  .push .ldcI40 .none,
  .push .br (.target ⟨0⟩),
  .push .ldcI4S (.int8 5),
  .push .calli (.token ⟨0x11000002⟩),
  .append ⟨0⟩]

/-- The same beginning with other handles, before a call that would not resolve. -/
def detouringHistory : List Edit := [
  .push .ldcI40 .none,
  .create .nop .none,
  .push .br (.target ⟨1⟩),
  .push .ldcI4S (.int8 5),
  .push .calli (.token ⟨0x11000002⟩),
  .push .call (.token ⟨0x06000009⟩),
  .append ⟨1⟩,
  .push .ret .none]

/-- The signature of the call is malformed. -/
def abortingCalculator : DepthCalculator where
  body := {
    code := InstructionList.empty.edits abortingHistory
    clauses := [{ kind := .catching, tryStart := ⟨1⟩, handlerStart := ⟨3⟩ }]
    maxStack := 8 }
  resolver := {
    method := fun token => .error (.unknownToken token)
    signature := fun _ => .ok [0x00, 0xFF] }

def detouringCalculator : DepthCalculator where
  body := {
    code := InstructionList.empty.edits detouringHistory
    clauses := [
      { kind := .catching, tryStart := ⟨0⟩, handlerStart := ⟨3⟩ },
      { kind := .filter, tryStart := ⟨0⟩, handlerStart := ⟨1⟩, filterStart := some ⟨5⟩ }] }
  resolver := abortingCalculator.resolver

theorem abortingCalculator_compute_precise :
    let reason := DepthError.signature 8 ⟨0x11000002⟩ (.invalidCompressedInteger 0xFF 1)
    let body := abortingCalculator.body
    abortingCalculator.compute.1 = .error reason ∧
      body.FailsAt abortingCalculator.resolver 3 reason ∧ body.code.arena.span (body.code.order.take 3) = 8 ∧
      body.SharesPrefix detouringCalculator.body 4 ∧ detouringCalculator.compute.1 = .error reason ∧
      body.recalculate abortingCalculator.resolver = (.error reason, body) := by
  intro reason body
  have reachable : body.code.Reachable := ⟨abortingHistory, by decide +kernel⟩
  have reachable' : detouringCalculator.body.code.Reachable := ⟨detouringHistory, by decide +kernel⟩
  have stopped : abortingCalculator.compute.1 = .error reason := by decide +kernel
  have shares : body.SharesPrefix detouringCalculator.body 4 := by decide +kernel
  obtain ⟨-, stops, precise, unchanged, -⟩ := abortingCalculator.compute_precise reachable
  obtain ⟨position, fails⟩ := (stops reason).mp stopped
  obtain rfl : position = 3 := fails.position_eq.trans (by decide +kernel)
  obtain ⟨offset, follows⟩ := precise 3 reason fails
  exact ⟨stopped, fails, offset.symm, shares, follows detouringCalculator rfl reachable' shares,
    unchanged reason stopped⟩

end CilProfiler

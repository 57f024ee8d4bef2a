import CilProfiler.Proofs.Code.Layout
import CilProfiler.Proofs.Code.Navigation
import CilProfiler.Proofs.Code.OperandMatrix

/-! # Bodies that resemble each other

The walk keeps its seeds by handle, and handles tell in which order instructions were created. The
depths do not depend on that. Two bodies whose linked code looks the same, position by position, have
the same depths, whatever was created, moved and removed before: seeds of instructions that are not
linked are never read, and offsets follow from sizes.

Bodies that look the same up to a position only are walked in step up to there.
-/

namespace CilProfiler

/-- The operand unless it is a branch's. -/
def Operand.immediate : Operand → Operand
  | .target _ | .switch _ => .none
  | operand => operand

theorem Operand.token?_immediate (operand : Operand) : operand.immediate.token? = operand.token? := by
  cases operand <;> rfl

/-- Of the values of an operand only the number of a switch's targets counts for its size. -/
theorem Operand.size_of_takes {op : Opcode} {operand : Operand} (taken : op.Takes operand) :
    operand.size op.operandType =
      if op.operandType = .inlineSwitch then (operand.targets.length + 1) * 4
      else op.operandType.baseSize := by
  by_cases table : op.operandType = .inlineSwitch
  · have form : operand.form ∈ op.forms := taken.1
    simp only [Opcode.forms, table, List.mem_singleton] at form
    cases operand with
    | switch targets => simp [size, table, Operand.targets]
    | none | int8 | uint8 | uint16 | int32 | int64 | float32 | float64 | string | token | target =>
        cases form
  · cases operand <;> simp [size, table]

/-- What a depth depends on, and an error tells about. -/
structure Instruction.Resembles (item item' : Instruction) : Prop where
  code : item.code = item'.code
  token : item.token? = item'.token?
  offset : item.offset = item'.offset

theorem Instruction.Resembles.depthAfter_eq {item item' : Instruction}
    (resembles : item.Resembles item') (resolver : Resolver) (depth : Depth) :
    item.depthAfter resolver depth = item'.depthAfter resolver depth := by
  obtain ⟨code, token, offset⟩ := resembles
  have shape : item.calleeShape resolver = item'.calleeShape resolver := by
    rw [calleeShape, calleeShape, code, token, offset]
  rw [depthAfter, depthAfter, code, shape, offset]

/-- Visits with the same depths. -/
structure DepthVisit.InStep (visit visit' : DepthVisit) : Prop where
  entry : visit.entry = visit'.entry
  after : visit.after = visit'.after

theorem DepthVisit.peak_congr {visits visits' : List DepthVisit}
    (same : List.Forall₂ DepthVisit.InStep visits visits') : peak visits = peak visits' := by
  suffices folded : ∀ start : Depth,
      visits.foldl (fun peak visit => max (max peak visit.entry) visit.after) start =
        visits'.foldl (fun peak visit => max (max peak visit.entry) visit.after) start from folded 0
  induction same with
  | nil => exact fun _ => rfl
  | cons first _ ih =>
      intro start
      rw [List.foldl_cons, List.foldl_cons, first.entry, first.after, ih]

/-- The first instructions of two bodies are the same to the walk. -/
structure MethodBody.AgreesUpTo (body other : MethodBody) (count : Nat) : Prop where
  within : count ≤ body.code.length ∧ count ≤ other.code.length
  items : ∀ i < count, ∀ id item id' item', body.code.Linked i id item →
    other.code.Linked i id' item' → item.Resembles item'
  exception : ∀ i < count, ∀ id id', body.code.at? i = some id → other.code.at? i = some id' →
    (id ∈ body.exceptionStarts ↔ id' ∈ other.exceptionStarts)
  branch : ∀ i < count, ∀ id item id' item', body.code.Linked i id item →
    other.code.Linked i id' item' → ∀ j < count, ∀ target target', body.code.at? j = some target →
      other.code.at? j = some target' → (target ∈ item.targets ↔ target' ∈ item'.targets)

namespace MethodBody

variable {body other : MethodBody} {resolver : Resolver} {visits visits' : List DepthVisit}
  {count : Nat} {id id' : InstrId}

theorem seedValues_congr (exception : id ∈ body.exceptionStarts ↔ id' ∈ other.exceptionStarts)
    (same : List.Forall₂ (fun visit visit' => visit.after = visit'.after ∧
      (id ∈ visit.item.targets ↔ id' ∈ visit'.item.targets)) visits visits') :
    body.seedValues visits id = other.seedValues visits' id' := by
  have branches :
      (visits.filter fun visit => visit.after ≠ 0 ∧ id ∈ visit.item.targets).map (·.after) =
        (visits'.filter fun visit => visit.after ≠ 0 ∧ id' ∈ visit.item.targets).map (·.after) := by
    induction same with
    | nil => rfl
    | cons first _ ih =>
        obtain ⟨after, targets⟩ := first
        simp only [List.filter_cons, after, targets]
        split
        · rw [List.map_cons, List.map_cons, ih, after]
        · exact ih
  simp only [seedValues, exception, branches]

/-- A walk does not come past an instruction that it cannot evaluate. -/
theorem Walked.length_le_of_failed (walked : body.Walked resolver visits) {k : Nat} {item : Instruction}
    (found : body.code.items[k]? = some (id, item)) {reason : DepthError}
    (failed : item.depthAfter resolver (body.entryDepth (visits.take k) id) = .error reason) :
    visits.length ≤ k := by
  refine Nat.le_of_not_lt fun beyond => ?_
  have there := List.getElem?_eq_getElem beyond
  have same := (walked.linked k _ there).symm.trans found
  have moved := walked.after k _ there
  rw [walked.entry k _ there] at moved
  simp only [Option.some.injEq, Prod.mk.injEq] at same
  rw [same.1, same.2, failed] at moved
  cases moved

namespace AgreesUpTo

theorem symm (agrees : body.AgreesUpTo other count) : other.AgreesUpTo body count where
  within := agrees.within.symm
  items i inside id item id' item' linked linked' :=
    have resembles := agrees.items i inside id' item' id item linked' linked
    ⟨resembles.code.symm, resembles.token.symm, resembles.offset.symm⟩
  exception i inside id id' there there' :=
    (agrees.exception i inside id' id there' there).symm
  branch i inside id item id' item' linked linked' j inside' target target' there there' :=
    (agrees.branch i inside id' item' id item linked' linked j inside' target' target there' there).symm

section Walks

variable (agrees : body.AgreesUpTo other count) (ordered : body.code.Ordered)
  (ordered' : other.code.Ordered) (walked : body.Walked resolver visits)
  (walked' : other.Walked resolver visits')

include agrees ordered ordered' walked walked'

/-- Walks in step hand the same depths to instructions at one position. -/
theorem seedValues_eq (same : List.Forall₂ DepthVisit.InStep visits visits')
    (bound : visits.length ≤ count) {j : Nat} (inside : j < count)
    (there : body.code.at? j = some id) (there' : other.code.at? j = some id') :
    body.seedValues visits id = other.seedValues visits' id' := by
  obtain ⟨length, steps⟩ := List.forall₂_iff_get.mp same
  refine seedValues_congr (agrees.exception j inside id id' there there') ?_
  refine List.forall₂_iff_get.mpr ⟨length, fun i before before' => ?_⟩
  have linked := ordered.items_getElem?.mp (walked.linked i _ (List.getElem?_eq_getElem before))
  have linked' := ordered'.items_getElem?.mp (walked'.linked i _ (List.getElem?_eq_getElem before'))
  exact ⟨(steps i before before').after,
    agrees.branch i (by omega) _ _ _ _ linked linked' j inside id id' there there'⟩

theorem carried_eq (same : List.Forall₂ DepthVisit.InStep visits visits')
    (bound : visits.length ≤ count) : DepthVisit.carried visits = DepthVisit.carried visits' := by
  obtain ⟨length, steps⟩ := List.forall₂_iff_get.mp same
  cases last : visits.length with
  | zero =>
      rw [List.eq_nil_of_length_eq_zero last, List.eq_nil_of_length_eq_zero (length.symm.trans last)]
  | succ i =>
      have there : visits[i]? = some visits[i] := List.getElem?_eq_getElem (by omega)
      have there' : visits'[i]? = some visits'[i] := List.getElem?_eq_getElem (by omega)
      have linked := ordered.items_getElem?.mp (walked.linked i _ there)
      have linked' := ordered'.items_getElem?.mp (walked'.linked i _ there')
      have resembles := agrees.items i (by omega) _ _ _ _ linked linked'
      have step := steps i (by omega) (by omega)
      rw [DepthVisit.carried_eq last there, DepthVisit.carried_eq (length.symm.trans last) there',
        resembles.code]
      exact if_congr Iff.rfl rfl step.after

theorem entryDepth_eq (same : List.Forall₂ DepthVisit.InStep visits visits')
    (bound : visits.length ≤ count) {j : Nat} (inside : j < count)
    (there : body.code.at? j = some id) (there' : other.code.at? j = some id') :
    body.entryDepth visits id = other.entryDepth visits' id' := by
  rw [entryDepth, entryDepth, agrees.carried_eq ordered ordered' walked walked' same bound,
    agrees.seedValues_eq ordered ordered' walked walked' same bound inside there there']

/-- As far as both have come, the walks are in step. -/
theorem inStep_take {k : Nat} (bound : k ≤ count) (le : k ≤ visits.length) (le' : k ≤ visits'.length) :
    List.Forall₂ DepthVisit.InStep (visits.take k) (visits'.take k) := by
  induction k with
  | zero => exact .nil
  | succ k ih =>
      have same := ih (by omega) (by omega) (by omega)
      have there : visits[k]? = some visits[k] := List.getElem?_eq_getElem (by omega)
      have there' : visits'[k]? = some visits'[k] := List.getElem?_eq_getElem (by omega)
      have linked := ordered.items_getElem?.mp (walked.linked k _ there)
      have linked' := ordered'.items_getElem?.mp (walked'.linked k _ there')
      have entry : visits[k].entry = visits'[k].entry := by
        rw [walked.entry k _ there, walked'.entry k _ there']
        exact agrees.entryDepth_eq ordered ordered' (walked.take k) (walked'.take k) same
          (by rw [List.length_take]; omega) (by omega) linked.1 linked'.1
      have after : visits[k].after = visits'[k].after := by
        have moved := walked.after k _ there
        rw [(agrees.items k (by omega) _ _ _ _ linked linked').depthAfter_eq, entry,
          walked'.after k _ there'] at moved
        exact (Except.ok.inj moved).symm
      rw [← List.take_append_getElem (by omega : k < visits.length),
        ← List.take_append_getElem (by omega : k < visits'.length)]
      exact List.rel_append same (.cons ⟨entry, after⟩ .nil)

end Walks

/-- A walk that stops early stops the other one at the same position, with the same error. -/
theorem stops_of_short (agrees : body.AgreesUpTo other count) (ordered : body.code.Ordered)
    (ordered' : other.code.Ordered) {analysis analysis' : DepthAnalysis}
    (describes : analysis.Describes body resolver visits)
    (describes' : analysis'.Describes other resolver visits') (short : visits.length < count)
    (le : visits.length ≤ visits'.length) :
    visits'.length = visits.length ∧ analysis'.outcome = analysis.outcome := by
  obtain ⟨id, item, linked⟩ :=
    ordered.exists_linked (Nat.lt_of_lt_of_le short agrees.within.1)
  obtain ⟨id', item', linked'⟩ :=
    ordered'.exists_linked (Nat.lt_of_lt_of_le short agrees.within.2)
  obtain ⟨reason, failed, stopped⟩ := describes.stops id item (ordered.items_getElem?.mpr linked)
  have walked' := describes'.walked
  have same := agrees.inStep_take ordered ordered' describes.walked walked' (Nat.le_of_lt short)
    (Nat.le_refl _) le
  rw [List.take_length] at same
  have entry := agrees.entryDepth_eq ordered ordered' describes.walked (walked'.take _) same
    (Nat.le_of_lt short) short linked.1 linked'.1
  rw [(agrees.items _ short _ _ _ _ linked linked').depthAfter_eq, entry] at failed
  have found := ordered'.items_getElem?.mpr linked'
  have reached : visits'.length = visits.length :=
    Nat.le_antisymm (walked'.length_le_of_failed found failed) le
  rw [← reached] at failed found
  rw [List.take_length] at failed
  obtain ⟨reason', failed', stopped'⟩ := describes'.stops id' item' found
  exact ⟨reached, by rw [stopped, stopped', Except.error.inj (failed'.symm.trans failed)]⟩

/-- What stops a walk inside what two bodies agree on stops the other one. -/
theorem outcome_of_short (agrees : body.AgreesUpTo other count) (ordered : body.code.Ordered)
    (ordered' : other.code.Ordered) {analysis analysis' : DepthAnalysis}
    (describes : analysis.Describes body resolver visits)
    (describes' : analysis'.Describes other resolver visits') (short : visits.length < count) :
    analysis'.outcome = analysis.outcome := by
  refine (agrees.stops_of_short ordered ordered' describes describes' short ?_).2
  refine Nat.le_of_not_lt fun before => ?_
  have stopped := agrees.symm.stops_of_short ordered' ordered describes' describes
    (Nat.lt_trans before short) (Nat.le_of_lt before)
  exact Nat.ne_of_gt before stopped.1

section Whole

variable (agrees : body.AgreesUpTo other count) (length : body.code.length = count)
  (length' : other.code.length = count) (ordered : body.code.Ordered) (ordered' : other.code.Ordered)
  {analysis analysis' : DepthAnalysis} (describes : analysis.Describes body resolver visits)
  (describes' : analysis'.Describes other resolver visits')

include agrees length length' ordered ordered' describes describes'

/-- Bodies that agree as a whole are walked equally far. -/
theorem length_eq : visits.length = visits'.length := by
  have within := ordered.length_items ▸ describes.walked.length_le
  have within' := ordered'.length_items ▸ describes'.walked.length_le
  rcases Nat.le_total visits.length visits'.length with le | le
  · by_cases short : visits.length < count
    · exact (agrees.stops_of_short ordered ordered' describes describes' short le).1.symm
    · omega
  · by_cases short : visits'.length < count
    · exact (agrees.symm.stops_of_short ordered' ordered describes' describes short le).1
    · omega

theorem inStep : List.Forall₂ DepthVisit.InStep visits visits' := by
  have same := agrees.length_eq length length' ordered ordered' describes describes'
  have within : visits.length ≤ count := length ▸ ordered.length_items ▸ describes.walked.length_le
  have steps := agrees.inStep_take ordered ordered' describes.walked describes'.walked within
    (Nat.le_refl _) (Nat.le_of_eq same)
  rwa [List.take_length, same, List.take_length] at steps

theorem outcome_eq : analysis.outcome = analysis'.outcome := by
  have same := agrees.length_eq length length' ordered ordered' describes describes'
  by_cases short : visits.length < count
  · exact (agrees.stops_of_short ordered ordered' describes describes' short (Nat.le_of_eq same)).2.symm
  · have within := describes.walked.length_le
    have steps := agrees.inStep length length' ordered ordered' describes describes'
    rw [describes.completes (by rw [ordered.length_items] at within ⊢; omega),
      describes'.completes (by rw [ordered.length_items] at within; rw [ordered'.length_items]; omega),
      DepthVisit.peak_congr steps]

end Whole

end AgreesUpTo
end MethodBody

/-- A relation holds between the instructions of two lists at each of the first positions. -/
def InstructionList.ForallAligned (list other : InstructionList) (count : Nat)
    (holds : InstrId → Instruction → InstrId → Instruction → Prop) : Prop :=
  ∀ i < count, ∀ id item id' item', list.Linked i id item → other.Linked i id' item' →
    holds id item id' item'

instance (list other : InstructionList) (count : Nat)
    (holds : InstrId → Instruction → InstrId → Instruction → Prop)
    [∀ id item id' item', Decidable (holds id item id' item')] :
    Decidable (list.ForallAligned other count holds) :=
  decidable_of_iff
    (∀ i < count, ∀ id ∈ list.at? i, ∀ item ∈ list.get? id, ∀ id' ∈ other.at? i,
      ∀ item' ∈ other.get? id', holds id item id' item')
    ⟨fun checked i inside id item id' item' linked linked' =>
      checked i inside id linked.1 item linked.2 id' linked'.1 item' linked'.2,
      fun aligned i inside id there item found id' there' item' found' =>
      aligned i inside id item id' item' ⟨there, found⟩ ⟨there', found'⟩⟩

/-- The first instructions of two bodies are the same, told without handles: their opcodes, their
    operands up to branch targets, how many targets they have, which of them enter a handler, and which
    of these first instructions they lead to. -/
structure MethodBody.SharesPrefix (body other : MethodBody) (count : Nat) : Prop where
  within : count ≤ body.code.length ∧ count ≤ other.code.length
  code : body.code.ForallAligned other.code count fun _ item _ item' => item.code = item'.code
  immediate : body.code.ForallAligned other.code count fun _ item _ item' =>
    item.operand.immediate = item'.operand.immediate
  targets : body.code.ForallAligned other.code count fun _ item _ item' =>
    item.targets.length = item'.targets.length
  exception : body.code.ForallAligned other.code count fun id _ id' _ =>
    id ∈ body.exceptionStarts ↔ id' ∈ other.exceptionStarts
  branch : body.code.ForallAligned other.code count fun _ item _ item' =>
    body.code.ForallAligned other.code count fun target _ target' _ =>
      target ∈ item.targets ↔ target' ∈ item'.targets

set_option synthInstance.maxSize 512 in
instance (body other : MethodBody) (count : Nat) : Decidable (body.SharesPrefix other count) :=
  decidable_of_iff (_ ∧ _ ∧ _ ∧ _ ∧ _ ∧ _)
    ⟨fun ⟨within, code, immediate, targets, exception, branch⟩ =>
      ⟨within, code, immediate, targets, exception, branch⟩,
      fun ⟨within, code, immediate, targets, exception, branch⟩ =>
      ⟨within, code, immediate, targets, exception, branch⟩⟩

namespace MethodBody.SharesPrefix

variable {body other : MethodBody} {count i : Nat} (shares : body.SharesPrefix other count)
  (reachable : body.code.Reachable) (reachable' : other.code.Reachable) {id id' : InstrId}
  {item item' : Instruction}

include shares reachable reachable'

theorem size_eq (inside : i < count) (linked : body.code.Linked i id item)
    (linked' : other.code.Linked i id' item') : item.size = item'.size := by
  have code := shares.code i inside id item id' item' linked linked'
  have targets := shares.targets i inside id item id' item' linked linked'
  simp only [Instruction.targets] at targets
  rw [Instruction.size, Instruction.size, Operand.size_of_takes (reachable.takes linked.2),
    Operand.size_of_takes (reachable'.takes linked'.2), code, targets]

theorem offset_eq (inside : i < count) (linked : body.code.Linked i id item)
    (linked' : other.code.Linked i id' item') : item.offset = item'.offset := by
  rw [reachable.offset_eq linked, reachable'.offset_eq linked']
  have within : i ≤ body.code.order.length ∧ i ≤ other.code.order.length :=
    ⟨Nat.le_trans (Nat.le_of_lt inside) shares.within.1,
      Nat.le_trans (Nat.le_of_lt inside) shares.within.2⟩
  refine Arena.span_congr (List.forall₂_iff_get.mpr ⟨?_, fun k before before' => ?_⟩)
  · rw [List.length_take_of_le within.1, List.length_take_of_le within.2]
  · rw [List.length_take_of_le within.1] at before
    obtain ⟨earlier, earlierItem, linkedBefore⟩ :=
      reachable.ordered.exists_linked (Nat.lt_of_lt_of_le before within.1)
    obtain ⟨earlier', earlierItem', linkedBefore'⟩ :=
      reachable'.ordered.exists_linked (Nat.lt_of_lt_of_le before within.2)
    have there := linkedBefore.1
    have there' := linkedBefore'.1
    rw [InstructionList.at?, List.getElem?_eq_some_iff] at there there'
    rw [List.get_eq_getElem, List.get_eq_getElem, List.getElem_take, List.getElem_take, there.2,
      there'.2, InstructionList.sizeOf_of_get? linkedBefore.2,
      InstructionList.sizeOf_of_get? linkedBefore'.2]
    exact shares.size_eq reachable reachable' (Nat.lt_trans before inside) linkedBefore linkedBefore'

theorem agreesUpTo : body.AgreesUpTo other count where
  within := shares.within
  items i inside id item id' item' linked linked' := by
    have immediate := shares.immediate i inside id item id' item' linked linked'
    refine ⟨shares.code i inside id item id' item' linked linked', ?_,
      shares.offset_eq reachable reachable' inside linked linked'⟩
    rw [Instruction.token?, Instruction.token?, ← Operand.token?_immediate, immediate,
      Operand.token?_immediate]
  exception i inside id id' there there' := by
    obtain ⟨item, found⟩ := reachable.ordered.get?_of_mem (List.mem_of_getElem? there)
    obtain ⟨item', found'⟩ := reachable'.ordered.get?_of_mem (List.mem_of_getElem? there')
    exact shares.exception i inside id item id' item' ⟨there, found⟩ ⟨there', found'⟩
  branch i inside id item id' item' linked linked' j inside' target target' there there' := by
    obtain ⟨behind, found⟩ := reachable.ordered.get?_of_mem (List.mem_of_getElem? there)
    obtain ⟨behind', found'⟩ := reachable'.ordered.get?_of_mem (List.mem_of_getElem? there')
    exact shares.branch i inside id item id' item' linked linked' j inside' target behind target' behind'
      ⟨there, found⟩ ⟨there', found'⟩

end MethodBody.SharesPrefix

/-- Handles that are linked at the same position of two lists, or in neither. -/
def InstructionList.SamePlace (list other : InstructionList) (id id' : InstrId) : Prop :=
  list.position? id = other.position? id'

instance (list other : InstructionList) (id id' : InstrId) : Decidable (list.SamePlace other id id') :=
  inferInstanceAs (Decidable (_ = _))

/-- Two bodies have the same linked code, told without handles, and the same exception entries in
    it. -/
structure MethodBody.Resembles (body other : MethodBody) : Prop where
  length : body.code.length = other.code.length
  code : body.code.ForallLinked fun i _ item => other.code.ForallLinked fun i' _ item' =>
    i = i' → item.code = item'.code
  immediate : body.code.ForallLinked fun i _ item => other.code.ForallLinked fun i' _ item' =>
    i = i' → item.operand.immediate = item'.operand.immediate
  targets : body.code.ForallLinked fun i _ item => other.code.ForallLinked fun i' _ item' =>
    i = i' → List.Forall₂ (body.code.SamePlace other.code) item.targets item'.targets
  exception : body.code.ForallLinked fun i id _ => other.code.ForallLinked fun i' id' _ =>
    i = i' → (id ∈ body.exceptionStarts ↔ id' ∈ other.exceptionStarts)

set_option synthInstance.maxSize 512 in
instance (body other : MethodBody) : Decidable (body.Resembles other) :=
  decidable_of_iff (_ ∧ _ ∧ _ ∧ _ ∧ _)
    ⟨fun ⟨length, code, immediate, targets, exception⟩ =>
      ⟨length, code, immediate, targets, exception⟩,
      fun ⟨length, code, immediate, targets, exception⟩ =>
      ⟨length, code, immediate, targets, exception⟩⟩

namespace MethodBody.Resembles

variable {body other : MethodBody} (resembles : body.Resembles other) {i : Nat} {id id' : InstrId}
  {item item' : Instruction}

include resembles

theorem mem_targets_iff (consistent : body.code.Consistent) (consistent' : other.code.Consistent)
    (linked : body.code.Linked i id item) (linked' : other.code.Linked i id' item') {j : Nat}
    {target target' : InstrId} (there : body.code.at? j = some target)
    (there' : other.code.at? j = some target') : target ∈ item.targets ↔ target' ∈ item'.targets := by
  have pairs := resembles.targets i id item linked i id' item' linked' rfl
  revert pairs
  generalize item.targets = targets
  generalize item'.targets = targets'
  intro pairs
  induction pairs with
  | nil => simp
  | @cons first first' _ _ same _ ih =>
      have both : target = first ↔ target' = first' := by
        rw [← consistent.position?_eq_iff there, ← consistent'.position?_eq_iff there',
          show body.code.position? first = other.code.position? first' from same]
      rw [List.mem_cons, List.mem_cons]
      exact or_congr both ih

theorem shares (consistent : body.code.Consistent) (consistent' : other.code.Consistent) :
    body.SharesPrefix other body.code.length where
  within := ⟨Nat.le_refl _, Nat.le_of_eq resembles.length⟩
  code i _ id item id' item' linked linked' := resembles.code i id item linked i id' item' linked' rfl
  immediate i _ id item id' item' linked linked' :=
    resembles.immediate i id item linked i id' item' linked' rfl
  targets i _ id item id' item' linked linked' :=
    (resembles.targets i id item linked i id' item' linked' rfl).length_eq
  exception i _ id item id' item' linked linked' :=
    resembles.exception i id item linked i id' item' linked' rfl
  branch _ _ _ _ _ _ linked linked' _ _ _ _ _ _ there there' :=
    resembles.mem_targets_iff consistent consistent' linked linked' there.1 there'.1

end MethodBody.Resembles

/-- Bodies with the same linked code have the same depths: the same maximum or the same error, and the
    same seed at every position. Handles, instructions that are not linked, and what was computed
    before do not matter. -/
theorem DepthCalculator.compute_resembles (calculator other : DepthCalculator)
    (resolver : calculator.resolver = other.resolver)
    (reachable : calculator.body.code.Reachable) (reachable' : other.body.code.Reachable)
    (resembles : calculator.body.Resembles other.body) :
    calculator.compute.1 = other.compute.1 ∧
      ∀ position id id', calculator.body.code.at? position = some id →
        other.body.code.at? position = some id' →
          calculator.compute.2.seedOf? id = other.compute.2.seedOf? id' := by
  have agrees := (resembles.shares reachable.consistent reachable'.consistent).agreesUpTo reachable
    reachable'
  have whole := resembles.length.symm
  have analyzed := calculator.body.analyzed calculator.resolver
  have analyzed' := other.body.analyzed calculator.resolver
  change (calculator.body.analyzeDepth calculator.resolver).outcome =
      (other.body.analyzeDepth other.resolver).outcome ∧ ∀ position id id', _ → _ →
    (calculator.body.analyzeDepth calculator.resolver).seeds.depth? id =
      (other.body.analyzeDepth other.resolver).seeds.depth? id'
  rw [← resolver]
  refine ⟨agrees.outcome_eq rfl whole reachable.ordered reachable'.ordered analyzed analyzed', ?_⟩
  intro position id id' there there'
  have steps := agrees.inStep rfl whole reachable.ordered reachable'.ordered analyzed analyzed'
  have inside : position < calculator.body.code.length := (List.getElem?_eq_some_iff.mp there).1
  have within := reachable.ordered.length_items ▸ analyzed.walked.length_le
  rw [analyzed.seeds, analyzed'.seeds, agrees.seedValues_eq reachable.ordered reachable'.ordered
    analyzed.walked analyzed'.walked steps within inside there there']

/-- A branch to a linked instruction, one to an instruction that is not linked, and a handler. -/
def plainHistory : List Edit := [
  .create .pop .none,
  .create .nop .none,
  .push .ldcI40 .none,
  .push .ldcI41 .none,
  .push .brtrue (.target ⟨0⟩),
  .push .pop .none,
  .push .br (.target ⟨1⟩),
  .append ⟨0⟩,
  .push .ret .none,
  .push .pop .none,
  .push .ret .none]

/-- Another way to the same code, with refused edits and with instructions that are left over. -/
def reworkedHistory : List Edit := [
  .push .ldcI41 .none,
  .create .ldcI40 .none,
  .insert 0 ⟨1⟩,
  .push .ldstr (.string "placeholder"),
  .create .pop .none,
  .create .brtrue (.target ⟨3⟩),
  .replace 2 ⟨4⟩,
  .push .pop .none,
  .push .br (.target ⟨2⟩),
  .append ⟨3⟩,
  .append ⟨3⟩,
  .push .ret .none,
  .push .ldnull .none,
  .remove 7,
  .push .pop .none,
  .remove 9,
  .push .ret .none]

def plainCalculator : DepthCalculator where
  body := {
    code := InstructionList.empty.edits plainHistory
    clauses := [{ kind := .catching, tryStart := ⟨2⟩, handlerStart := ⟨8⟩ }] }
  resolver := {
    method := fun _ => .ok {}
    signature := fun token => .error (.unknownToken token) }

def reworkedCalculator : DepthCalculator where
  body := {
    code := InstructionList.empty.edits reworkedHistory
    clauses := [
      { kind := .catching, tryStart := ⟨0⟩, handlerStart := ⟨2⟩ },
      { kind := .catching, tryStart := ⟨1⟩, handlerStart := ⟨9⟩ }] }
  resolver := plainCalculator.resolver
  seeds := Seeds.ofEntries [⟨3⟩]

theorem reworkedCalculator_compute_resembles :
    plainCalculator.body.code.order = [⟨2⟩, ⟨3⟩, ⟨4⟩, ⟨5⟩, ⟨6⟩, ⟨0⟩, ⟨7⟩, ⟨8⟩, ⟨9⟩] ∧
      reworkedCalculator.body.code.order = [⟨1⟩, ⟨0⟩, ⟨4⟩, ⟨5⟩, ⟨6⟩, ⟨3⟩, ⟨7⟩, ⟨9⟩, ⟨10⟩] ∧
      plainCalculator.body.Resembles reworkedCalculator.body ∧
      plainCalculator.compute.1 = reworkedCalculator.compute.1 ∧
      plainCalculator.compute.2.seedOf? ⟨0⟩ = reworkedCalculator.compute.2.seedOf? ⟨3⟩ ∧
      plainCalculator.compute.2.seedOf? ⟨0⟩ = some 1 := by
  have order : plainCalculator.body.code.order = [⟨2⟩, ⟨3⟩, ⟨4⟩, ⟨5⟩, ⟨6⟩, ⟨0⟩, ⟨7⟩, ⟨8⟩, ⟨9⟩] := by
    decide +kernel
  have order' : reworkedCalculator.body.code.order =
      [⟨1⟩, ⟨0⟩, ⟨4⟩, ⟨5⟩, ⟨6⟩, ⟨3⟩, ⟨7⟩, ⟨9⟩, ⟨10⟩] := by
    decide +kernel
  have resembles : plainCalculator.body.Resembles reworkedCalculator.body := by decide +kernel
  have reachable : plainCalculator.body.code.Reachable := ⟨plainHistory, by decide +kernel⟩
  have reachable' : reworkedCalculator.body.code.Reachable := ⟨reworkedHistory, by decide +kernel⟩
  obtain ⟨outcome, seeds⟩ :=
    plainCalculator.compute_resembles reworkedCalculator rfl reachable reachable' resembles
  refine ⟨order, order', resembles, outcome, seeds 5 ⟨0⟩ ⟨3⟩ ?_ ?_, by decide +kernel⟩
  · rw [InstructionList.at?, order]
    rfl
  · rw [InstructionList.at?, order']
    rfl

end CilProfiler

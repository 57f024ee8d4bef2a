import CilProfiler.Proofs.Code.Drafts
import CilProfiler.Proofs.Depth.Recurrence

/-! # The operand matrix

Which forms of operand an opcode takes is read off its operand type, and for the short integer
immediate off the opcode. Instructions are checked against this matrix when they are created, and
nothing changes their operands afterwards. So the matrix holds of every instruction, linked or not,
and much is known without looking at one: how many bytes it has, that a call names its callee, and
that a branch leads to an instruction which was there before it.
-/

namespace CilProfiler

/-- What an operand is, without its value. -/
inductive OperandForm where
  | none
  | int8
  | uint8
  | uint16
  | int32
  | int64
  | float32
  | float64
  | string
  | token
  | target
  | switch
  deriving Repr, DecidableEq

def Operand.form : Operand → OperandForm
  | .none => .none
  | .int8 _ => .int8
  | .uint8 _ => .uint8
  | .uint16 _ => .uint16
  | .int32 _ => .int32
  | .int64 _ => .int64
  | .float32 _ => .float32
  | .float64 _ => .float64
  | .string _ => .string
  | .token _ => .token
  | .target _ => .target
  | .switch _ => .switch

namespace Opcode

/-- The row of an opcode. A short integer immediate is signed behind the integer load only, and a
    string is given as its text or as a token. -/
def forms (op : Opcode) : List OperandForm :=
  match op.operandType with
  | .inlineNone => [.none]
  | .shortInlineI => if op = .ldcI4S then [.int8] else [.uint8]
  | .shortInlineVar | .shortInlineArg => [.uint8]
  | .inlineVar | .inlineArg => [.uint16]
  | .inlineI => [.int32]
  | .inlineI8 => [.int64]
  | .shortInlineR => [.float32]
  | .inlineR => [.float64]
  | .inlineString => [.string, .token]
  | .inlineField | .inlineMethod | .inlineType | .inlineTok | .inlineSig => [.token]
  | .shortInlineBrTarget | .inlineBrTarget => [.target]
  | .inlineSwitch => [.switch]

/-- The opcode takes the operand: the matrix has its form, and it is not the null token. -/
def Takes (op : Opcode) (operand : Operand) : Prop :=
  operand.form ∈ op.forms ∧ operand.isNullToken = false

instance (op : Opcode) (operand : Operand) : Decidable (op.Takes operand) :=
  inferInstanceAs (Decidable (_ ∧ _))

end Opcode

namespace Operand

/-- Why an opcode does not take an operand. -/
inductive Misfits (op : Opcode) (operand : Operand) : EditError → Prop where
  | missing (absent : operand = .none) (needed : .none ∉ op.forms) :
      Misfits op operand (.missingOperand op)
  | null (taken : operand.form ∈ op.forms) (null : operand.isNullToken = true) :
      Misfits op operand (.nullToken op)
  | mismatch (given : operand ≠ .none) (foreign : operand.form ∉ op.forms) :
      Misfits op operand (.operandMismatch op operand)

/-- Bytes that an operand is encoded in. A branch target takes one byte behind a short branch; a
    switch has its count and its targets in four bytes each. -/
def encodedSize (op : Opcode) : Operand → Nat
  | .none => 0
  | .int8 _ | .uint8 _ => 1
  | .uint16 _ => 2
  | .int32 _ | .float32 _ | .string _ | .token _ => 4
  | .int64 _ | .float64 _ => 8
  | .target _ => if op.operandType = .shortInlineBrTarget then 1 else 4
  | .switch targets => (targets.length + 1) * 4

variable {op : Opcode} {operand : Operand} {reason : EditError}

/-- An operand fits if the matrix has its form. -/
theorem fits_iff : operand.fits op = true ↔ operand.form ∈ op.forms := by
  unfold Opcode.forms
  by_cases load : op = .ldcI4S
  · subst load
    cases operand <;> simp [fits, form, Opcode.operandType, Opcode.info, OperandType.takesToken]
  · generalize type : op.operandType = kind
    cases operand <;> cases kind <;> simp [fits, form, type, load, OperandType.takesToken]

theorem check_eq_ok_iff : operand.check op = .ok () ↔ op.Takes operand := by
  rw [InstructionList.check_eq_ok, fits_iff, Opcode.Takes]

theorem check_eq_error_iff : operand.check op = .error reason ↔ operand.Misfits op reason := by
  constructor
  · intro failed
    unfold check at failed
    split at failed
    · rename_i fits
      split at failed
      · rename_i null
        cases failed
        exact .null (fits_iff.mp fits) null
      · cases failed
    · rename_i foreign
      rw [fits_iff] at foreign
      split at failed
      · rename_i absent
        subst absent
        cases failed
        exact .missing rfl foreign
      · rename_i given
        cases failed
        exact .mismatch given foreign
  · intro misfits
    cases misfits with
    | missing absent needed =>
        subst absent
        have foreign : ¬fits op .none = true := fun fits => needed (fits_iff.mp fits)
        rw [check, if_neg foreign, if_pos rfl]
    | null taken null => rw [check, if_pos (fits_iff.mpr taken), if_pos null]
    | mismatch given foreign =>
        rw [check, if_neg (fun fits => foreign (fits_iff.mp fits)), if_neg given]

/-- The size that is computed from the operand type is that of the operand. -/
theorem size_eq_encodedSize (taken : operand.form ∈ op.forms) :
    operand.size op.operandType = operand.encodedSize op := by
  have fitting := fits_iff.mpr taken
  unfold fits at fitting
  unfold encodedSize
  generalize op.operandType = kind at fitting
  cases operand <;> cases kind <;> simp_all [size, OperandType.baseSize, OperandType.takesToken]

end Operand

theorem Opcode.size_pos (op : Opcode) : 1 ≤ op.size := by
  unfold size
  split <;> omega

/-- Every call names its callee by a token that is not null. -/
theorem Opcode.Takes.token_of_call {op : Opcode} {operand : Operand} (taken : op.Takes operand)
    (family : op.flow = .call) : ∃ callee, operand.token? = some callee ∧ callee.isNull = false := by
  obtain ⟨form, notNull⟩ := taken
  have tokens : op.forms = [.token] := by
    revert family
    cases op <;> decide
  rw [tokens, List.mem_singleton] at form
  cases operand with
  | token callee => exact ⟨callee, rfl, by simpa [Operand.isNullToken, Operand.token?] using notNull⟩
  | none | int8 | uint8 | uint16 | int32 | int64 | float32 | float64 | string | target | switch =>
      cases form

namespace InstructionList

variable {list next : InstructionList} {code : Opcode} {operand : Operand} {id : InstrId}

/-- Why an instruction is not created: for the operand itself, or for the first of its targets that
    was never created. -/
inductive Refuses (list : InstructionList) (code : Opcode) (operand : Operand) : EditError → Prop where
  | operand {reason : EditError} (misfits : operand.Misfits code reason) :
      Refuses list code operand reason
  | target {front back : List InstrId} {target : InstrId} (taken : code.Takes operand)
      (targets : operand.targets = front ++ target :: back)
      (known : ∀ earlier ∈ front, earlier.index < list.arena.size)
      (unknown : list.arena.size ≤ target.index) : Refuses list code operand (.unknownTarget target)

theorem create_eq_ok_iff {result : InstrId × InstructionList} :
    list.create code operand = .ok result ↔
      (code.Takes operand ∧ ∀ target ∈ operand.targets, target.index < list.arena.size) ∧
        result = (⟨list.arena.size⟩, list.extend code operand) := by
  constructor
  · intro done
    obtain ⟨checked, targets, id_eq, list_eq⟩ := create_eq_ok done
    exact ⟨⟨Operand.check_eq_ok_iff.mp checked, targets⟩, Prod.ext id_eq list_eq⟩
  · rintro ⟨⟨taken, targets⟩, rfl⟩
    exact create_eq (Operand.check_eq_ok_iff.mpr taken) targets

theorem create_eq_error_iff {reason : EditError} :
    list.create code operand = .error reason ↔ list.Refuses code operand reason := by
  unfold create
  cases checked : operand.check code with
  | error cause =>
      have misfits := Operand.check_eq_error_iff.mp checked
      constructor
      · intro failed
        cases failed
        exact .operand misfits
      · intro refuses
        cases refuses with
        | operand misfits' =>
            cases checked.symm.trans (Operand.check_eq_error_iff.mpr misfits')
            rfl
        | target taken => cases checked.symm.trans (Operand.check_eq_ok_iff.mpr taken)
  | ok _ =>
      have taken := Operand.check_eq_ok_iff.mp checked
      constructor
      · intro failed
        simp only [bind, Except.bind] at failed
        split at failed
        · rename_i target found
          cases failed
          obtain ⟨unknown, front, back, targets, known⟩ := List.find?_eq_some_iff_append.mp found
          exact .target taken targets (by simpa using known) (by simpa using unknown)
        · cases failed
      · intro refuses
        cases refuses with
        | operand misfits => cases checked.symm.trans (Operand.check_eq_error_iff.mpr misfits)
        | @target front back target _ targets known unknown =>
            have found : operand.targets.find? (list.arena.size ≤ ·.index) = some target :=
              List.find?_eq_some_iff_append.mpr
                ⟨by simpa using unknown, front, back, targets, by simpa using known⟩
            simp only [bind, Except.bind, found]

/-- The first instruction names the second as a target. -/
def Branches (list : InstructionList) (source target : InstrId) : Prop :=
  ∃ item, list.get? source = some item ∧ target ∈ item.targets

/-- Every created instruction names as targets only what was created before it. -/
def Backward (list : InstructionList) : Prop :=
  ∀ (i : Nat) content, list.contents[i]? = some content →
    ∀ target ∈ content.2.targets, target.index < i

theorem contents_change (change : Change list next) :
    next.contents = list.contents ∨
      ∃ code operand, (∀ target ∈ operand.targets, target.index < list.arena.size) ∧
        next.contents = list.contents.push (code, operand) := by
  cases change with
  | @create code operand checked targets =>
      exact .inr ⟨code, operand, targets, congrArg Draft.contents draft_extend⟩
  | link free split => exact .inl (congrArg Draft.contents draft_linkBetween)
  | swap free split => exact .inl (congrArg Draft.contents draft_swapBetween)
  | unlink split => exact .inl (congrArg Draft.contents draft_unlinkBetween)

theorem Backward.change (backward : list.Backward) (change : Change list next) : next.Backward := by
  intro i content there target member
  rcases contents_change change with same | ⟨code, operand, targets, grown⟩
  · exact backward i content (same ▸ there) target member
  · rw [grown, Array.getElem?_push] at there
    split at there
    · rename_i last
      cases there
      rw [last, size_contents]
      exact targets target member
    · exact backward i content there target member

theorem backward_empty : empty.Backward := by
  simp [Backward, contents, Arena.contents, empty]

theorem Reachable.backward (reachable : list.Reachable) : list.Backward :=
  reachable.induction backward_empty fun _ backward change => backward.change change

theorem Reachable.takes (reachable : list.Reachable) {item : Instruction}
    (found : list.get? id = some item) : item.code.Takes item.operand :=
  Operand.check_eq_ok_iff.mp (reachable.checked found)

theorem Reachable.targets_lt (reachable : list.Reachable) {item : Instruction}
    (found : list.get? id = some item) : ∀ target ∈ item.targets, target.index < id.index := by
  have content : list.contents[id.index]? = some (item.code, item.operand) := by
    simp [contents, Arena.contents, show list.arena[id.index]? = some item from found]
  exact reachable.backward id.index _ content

theorem Reachable.index_lt_of_branches (reachable : list.Reachable) {source target : InstrId}
    (leads : Relation.TransGen list.Branches source target) : target.index < source.index := by
  induction leads with
  | single branches =>
      obtain ⟨item, found, member⟩ := branches
      exact reachable.targets_lt found _ member
  | tail _ branches ih =>
      obtain ⟨item, found, member⟩ := branches
      exact Nat.lt_trans (reachable.targets_lt found _ member) ih

end InstructionList

theorem Instruction.calleeShape_ne_missingCallToken {item : Instruction} {callee : Token}
    (named : item.token? = some callee) (resolver : Resolver) (offset : Nat) :
    item.calleeShape resolver ≠ .error (.missingCallToken offset) := by
  intro failed
  simp only [calleeShape, named] at failed
  split at failed
  · rcases Outcome.bind_eq_error.mp failed with unresolved | ⟨blob, -, unparsed⟩
    · obtain ⟨_, -, other⟩ := Outcome.mapError_eq_error.mp unresolved
      cases other
    · obtain ⟨_, -, other⟩ := Outcome.mapError_eq_error.mp unparsed
      cases other
  · obtain ⟨_, -, other⟩ := Outcome.mapError_eq_error.mp failed
    cases other

theorem Instruction.depthAfter_ne_missingCallToken {item : Instruction}
    (taken : item.code.Takes item.operand) (resolver : Resolver) (depth : Depth) (offset : Nat) :
    item.depthAfter resolver depth ≠ .error (.missingCallToken offset) := by
  intro failed
  by_cases family : item.code.flow = .call
  · obtain ⟨callee, named, -⟩ := taken.token_of_call family
    simp only [depthAfter, family, if_true, pure_bind] at failed
    rcases Outcome.bind_eq_error.mp failed with unnamed | ⟨shape, -, outside⟩
    · exact calleeShape_ne_missingCallToken named resolver offset unnamed
    · split at outside <;> cases outside
  · simp only [depthAfter, family, if_false, pure_bind] at failed
    split at failed <;> cases failed

/-- No depth computation misses the token of a call. -/
theorem MethodBody.analyzeDepth_ne_missingCallToken {body : MethodBody}
    (reachable : body.code.Reachable) (resolver : Resolver) (offset : Nat) :
    (body.analyzeDepth resolver).outcome ≠ .error (.missingCallToken offset) := by
  intro failed
  have analyzed := body.analyzed resolver
  by_cases all : (body.analyzeDepth resolver).visits.length = body.code.items.length
  · cases (analyzed.completes all).symm.trans failed
  · have short : (body.analyzeDepth resolver).visits.length < body.code.items.length :=
      Nat.lt_of_le_of_ne analyzed.walked.length_le all
    have found := List.getElem?_eq_getElem short
    obtain ⟨reason, stopped, same⟩ := analyzed.stops _ _ found
    cases same.symm.trans failed
    have linked := reachable.ordered.items_getElem?.mp found
    exact Instruction.depthAfter_ne_missingCallToken (reachable.takes linked.2) resolver _ offset stopped

/-- What the matrix says holds of every instruction of a list, whatever edits gave it: its operand is
    one that its opcode takes, a call names its callee, its size is that of its opcode and operand,
    and its targets were created before it, so that branches never lead back. Creation accepts
    exactly what the matrix allows, and gives the reason otherwise. -/
theorem InstructionList.Reachable.conforms {list : InstructionList} (reachable : list.Reachable) :
    (∀ id item, list.get? id = some item →
      item.code.Takes item.operand ∧
      (item.code.flow = .call → ∃ callee, item.token? = some callee ∧ callee.isNull = false) ∧
      item.size = item.code.size + item.operand.encodedSize item.code ∧ 1 ≤ item.size ∧
      ∀ target ∈ item.targets, target.index < id.index) ∧
    (∀ id, ¬Relation.TransGen list.Branches id id) ∧
    (∀ code operand result, list.create code operand = .ok result ↔
      (code.Takes operand ∧ ∀ target ∈ operand.targets, target.index < list.arena.size) ∧
        result = (⟨list.arena.size⟩, list.extend code operand)) ∧
    (∀ code operand reason, list.create code operand = .error reason ↔
      list.Refuses code operand reason) ∧
    ∀ calculator : DepthCalculator, calculator.body.code = list →
      ∀ offset, calculator.compute.1 ≠ .error (.missingCallToken offset) := by
  refine ⟨fun id item found => ?_, fun id leads => ?_, fun _ _ _ => create_eq_ok_iff,
    fun _ _ _ => create_eq_error_iff, fun calculator same offset => ?_⟩
  · have taken := reachable.takes found
    have size : item.size = item.code.size + item.operand.encodedSize item.code :=
      congrArg (item.code.size + ·) (Operand.size_eq_encodedSize taken.1)
    refine ⟨taken, taken.token_of_call, size, ?_, reachable.targets_lt found⟩
    rw [size]
    exact Nat.le_add_right_of_le item.code.size_pos
  · exact Nat.lt_irrefl _ (reachable.index_lt_of_branches leads)
  · subst same
    exact MethodBody.analyzeDepth_ne_missingCallToken reachable calculator.resolver offset

/-- A switch that was moved in front of what it leads to: a return, a load and a call. -/
def dispatchHistory : List Edit := [
  .push .ret .none,
  .push .ldcI4S (.int8 (-3)),
  .push .call (.token ⟨0x06000001⟩),
  .create .switch (.switch [⟨0⟩, ⟨2⟩, ⟨0⟩]),
  .insert 0 ⟨3⟩]

def dispatchList : InstructionList :=
  InstructionList.empty.edits dispatchHistory

theorem dispatchList_conforms :
    dispatchList.Reachable ∧ dispatchList.order = [⟨3⟩, ⟨0⟩, ⟨1⟩, ⟨2⟩] ∧
      (∃ item, dispatchList.get? ⟨3⟩ = some item ∧ item.code.Takes item.operand ∧ item.size = 17 ∧
        ∀ target ∈ item.targets, target.index < 3) ∧
      ¬Relation.TransGen dispatchList.Branches ⟨3⟩ ⟨3⟩ ∧
      dispatchList.create .callvirt (.token ⟨0⟩) = .error (.nullToken .callvirt) ∧
      dispatchList.create .brS (.target ⟨4⟩) = .error (.unknownTarget ⟨4⟩) := by
  have reachable : dispatchList.Reachable := ⟨dispatchHistory, rfl⟩
  have order : dispatchList.order = [⟨3⟩, ⟨0⟩, ⟨1⟩, ⟨2⟩] := by decide +kernel
  have size : dispatchList.arena.size = 4 := by decide +kernel
  obtain ⟨each, acyclic, -, refused, -⟩ := reachable.conforms
  refine ⟨reachable, order, ⟨_, rfl, ?_⟩, acyclic _, (refused _ _ _).mpr ?_, (refused _ _ _).mpr ?_⟩
  · obtain ⟨taken, -, -, -, earlier⟩ := each ⟨3⟩ _ rfl
    exact ⟨taken, by decide +kernel, earlier⟩
  · exact .operand (.null (by decide) (by decide))
  · have targets : (Operand.target ⟨4⟩).targets = [] ++ ⟨4⟩ :: [] := rfl
    exact .target (by decide) targets (by simp) (Nat.le_of_eq size)

end CilProfiler

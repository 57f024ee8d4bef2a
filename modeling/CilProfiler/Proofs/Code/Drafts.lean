import CilProfiler.Proofs.Code.Changes
import CilProfiler.Proofs.Code.Contents

/-! # Drafts

What edits are about is a draft of the code: the instructions that were created, each an opcode and
an operand, and the order of those that are linked. On a draft every edit is one operation on a
list. Links, marks and offsets are kept beside it and never get in its way: an edit of a list
answers what the edit of its draft answers, leads to the edited draft, and leaves everything as it
was if it is refused.
-/

namespace CilProfiler

structure Draft where
  contents : Array (Opcode × Operand) := #[]
  order : List InstrId := []
  deriving DecidableEq

namespace Draft

/-- Why an instruction cannot be linked. -/
def linkRefusal? (draft : Draft) (id : InstrId) : Option EditError :=
  if draft.contents.size ≤ id.index then some (.unknownInstruction id)
  else if id ∈ draft.order then some (.alreadyLinked id)
  else none

/-- Why an instruction cannot be created. -/
def createRefusal? (draft : Draft) (code : Opcode) (operand : Operand) : Option EditError :=
  match operand.check code with
  | .error reason => some reason
  | .ok () => (operand.targets.find? (draft.contents.size ≤ ·.index)).map .unknownTarget

/-- A position is refused unless the order has that many instructions. -/
def rangeRefusal? (draft : Draft) (index count : Nat) : Option EditError :=
  if draft.order.length < count then some (.outOfRange index draft.order.length) else none

theorem rangeRefusal?_eq_some {draft : Draft} {index count : Nat} {reason : EditError} :
    draft.rangeRefusal? index count = some reason ↔
      draft.order.length < count ∧ reason = .outOfRange index draft.order.length := by
  simp [rangeRefusal?, eq_comm]

theorem rangeRefusal?_eq_none {draft : Draft} {index count : Nat} :
    draft.rangeRefusal? index count = none ↔ count ≤ draft.order.length := by
  simp [rangeRefusal?]

/-- Why an edit is refused. Handles are checked before positions. -/
def refusal? (draft : Draft) : Edit → Option EditError
  | .create code operand | .push code operand => draft.createRefusal? code operand
  | .append id => draft.linkRefusal? id
  | .insert index id => (draft.linkRefusal? id).or (draft.rangeRefusal? index index)
  | .replace index id => (draft.linkRefusal? id).or (draft.rangeRefusal? index (index + 1))
  | .remove index => draft.rangeRefusal? index (index + 1)

/-- What an edit answers: the new instruction, or the one that is displaced. -/
def answer? (draft : Draft) : Edit → Option InstrId
  | .create _ _ | .push _ _ => some ⟨draft.contents.size⟩
  | .append _ | .insert _ _ => none
  | .replace index _ | .remove index => draft.order[index]?

/-- The draft behind an edit. -/
def edited (draft : Draft) : Edit → Draft
  | .create code operand => { draft with contents := draft.contents.push (code, operand) }
  | .push code operand => {
      contents := draft.contents.push (code, operand)
      order := draft.order ++ [⟨draft.contents.size⟩] }
  | .append id => { draft with order := draft.order ++ [id] }
  | .insert index id => { draft with order := draft.order.insertIdx index id }
  | .replace index id => { draft with order := draft.order.set index id }
  | .remove index => { draft with order := draft.order.eraseIdx index }

def perform (draft : Draft) (edit : Edit) : Except EditError (Option InstrId) × Draft :=
  match draft.refusal? edit with
  | some reason => (.error reason, draft)
  | none => (.ok (draft.answer? edit), draft.edited edit)

end Draft

/-- Answers to a history of edits, and the state behind the last one. -/
def performs {σ : Type} (step : σ → Edit → Except EditError (Option InstrId) × σ) (state : σ) :
    List Edit → List (Except EditError (Option InstrId)) × σ
  | [] => ([], state)
  | edit :: rest =>
      let (answer, next) := step state edit
      let (answers, last) := performs step next rest
      (answer :: answers, last)

namespace InstructionList

variable {list next : InstructionList} {front back : List InstrId} {id other : InstrId}
  {index : Nat} {code : Opcode} {operand : Operand} {reason : EditError}

def draft (list : InstructionList) : Draft where
  contents := list.contents
  order := list.order

/-- The instruction was created and is not linked. -/
def IsFree (list : InstructionList) (id : InstrId) : Prop :=
  ∃ item, list.get? id = some item ∧ item.linked = false

/-- What an edit needs. An operand has to have a form that the opcode takes, and a token in it must
    not be null. -/
def Permits (list : InstructionList) : Edit → Prop
  | .create code operand | .push code operand =>
      operand.fits code ∧ operand.isNullToken = false ∧
        ∀ target ∈ operand.targets, target.index < list.arena.size
  | .append id => list.IsFree id
  | .insert index id => list.IsFree id ∧ index ≤ list.length
  | .replace index id => list.IsFree id ∧ index < list.length
  | .remove index => index < list.length

/-- What an operation answers, and the list that it leaves. -/
def settle (list : InstructionList) (outcome : Except EditError (Option InstrId × InstructionList)) :
    Except EditError (Option InstrId) × InstructionList :=
  match outcome with
  | .ok (answer, next) => (.ok answer, next)
  | .error reason => (.error reason, list)

/-- An edit in place. An instruction that is created and appended at once goes through a list in
    which it is created only; were the second step refused, that list would be left. -/
def perform (list : InstructionList) : Edit → Except EditError (Option InstrId) × InstructionList
  | .create code operand => list.settle (Prod.map some (·) <$> list.create code operand)
  | .push code operand =>
      match list.create code operand with
      | .error reason => (.error reason, list)
      | .ok (id, created) => created.settle ((some id, ·) <$> created.append id)
  | .append id => list.settle ((none, ·) <$> list.append id)
  | .insert index id => list.settle ((none, ·) <$> list.insert index id)
  | .replace index id => list.settle (Prod.map some (·) <$> list.replace index id)
  | .remove index => list.settle (Prod.map some (·) <$> list.remove index)

/-- The list behind an edit that is not refused. -/
def revised (list : InstructionList) : Edit → InstructionList
  | .create code operand => list.extend code operand
  | .push code operand =>
      (list.extend code operand).linkBetween list.order [] ⟨list.arena.size⟩
  | .append id => list.linkBetween list.order [] id
  | .insert index id => list.linkBetween (list.order.take index) (list.order.drop index) id
  | .replace index id =>
      match list.at? index with
      | none => list
      | some old => list.swapBetween (list.order.take index) (list.order.drop (index + 1)) old id
  | .remove index =>
      match list.at? index with
      | none => list
      | some old => list.unlinkBetween (list.order.take index) (list.order.drop (index + 1)) old

theorem size_contents (list : InstructionList) : list.contents.size = list.arena.size :=
  Array.size_map

@[simp] theorem draft_layOutFrom (list : InstructionList) (index : Nat) :
    (list.layOutFrom index).draft = list.draft := by
  simp [draft, contents, layOutFrom]

theorem draft_empty : empty.draft = {} := by
  simp [draft, contents, Arena.contents, empty]

theorem draft_extend : (list.extend code operand).draft =
    { list.draft with contents := list.contents.push (code, operand) } := by
  simp [draft, contents, Arena.contents, extend]

theorem draft_linkBetween :
    (list.linkBetween front back id).draft = { list.draft with order := front ++ id :: back } := by
  rw [linkBetween, draft_layOutFrom]
  simp [draft, contents, Arena.attach]

theorem draft_unlinkBetween :
    (list.unlinkBetween front back id).draft = { list.draft with order := front ++ back } := by
  rw [unlinkBetween, draft_layOutFrom]
  simp [draft, contents, Arena.detach]

theorem draft_swapBetween : (list.swapBetween front back id other).draft =
    { list.draft with order := front ++ other :: back } := by
  rw [swapBetween, draft_layOutFrom]
  simp [draft, contents, Arena.attach]

theorem create_refused (refused : list.draft.createRefusal? code operand = some reason) :
    list.create code operand = .error reason := by
  rw [Draft.createRefusal?, draft, size_contents] at refused
  rw [create]
  cases checked : operand.check code with
  | error cause =>
      rw [checked] at refused
      cases refused
      rfl
  | ok _ =>
      rw [checked] at refused
      obtain ⟨target, unknown, rfl⟩ := Option.map_eq_some_iff.mp refused
      simp only [Except.bind, bind, unknown]

theorem createRefusal?_eq_none : list.draft.createRefusal? code operand = none ↔
    operand.check code = .ok () ∧ ∀ target ∈ operand.targets, target.index < list.arena.size := by
  rw [Draft.createRefusal?, draft, size_contents]
  cases operand.check code with
  | error cause => simp
  | ok _ => simp [List.find?_eq_none]

theorem create_permitted (permitted : list.draft.createRefusal? code operand = none) :
    list.create code operand = .ok (⟨list.arena.size⟩, list.extend code operand) := by
  obtain ⟨checked, targets⟩ := createRefusal?_eq_none.mp permitted
  exact create_eq checked targets

theorem requireLinked_refused (outside : list.length ≤ index) :
    list.requireLinked index = .error (.outOfRange index list.length) := by
  rw [requireLinked, at?, List.getElem?_eq_none outside]

theorem exists_at? (inside : index < list.length) : ∃ old, list.at? index = some old :=
  ⟨_, List.getElem?_eq_getElem inside⟩

namespace Consistent

theorem isFree_iff (consistent : list.Consistent) :
    list.IsFree id ↔ id.index < list.arena.size ∧ id ∉ list.order := by
  constructor
  · rintro ⟨item, found, unlinked⟩
    refine ⟨(Array.getElem?_eq_some_iff.mp found).1, ?_⟩
    rw [consistent.ordered.mem_iff, Arena.isLinked, show list.arena[id.index]? = some item from found,
      Option.any_some, unlinked]
    exact Bool.false_ne_true
  · rintro ⟨created, absent⟩
    refine ⟨list.arena[id.index], Array.getElem?_eq_getElem created, ?_⟩
    rw [consistent.ordered.mem_iff, Arena.isLinked, Array.getElem?_eq_getElem created,
      Option.any_some, Bool.not_eq_true] at absent
    exact absent

theorem linkRefusal?_eq_none (consistent : list.Consistent) :
    list.draft.linkRefusal? id = none ↔ list.IsFree id := by
  rw [consistent.isFree_iff, Draft.linkRefusal?, draft, size_contents]
  by_cases created : id.index < list.arena.size
  · simp [Nat.not_le.mpr created, created]
  · simp [Nat.le_of_not_lt created, created]

theorem requireUnlinked_refused (consistent : list.Consistent)
    (refused : list.draft.linkRefusal? id = some reason) :
    list.requireUnlinked id = .error reason := by
  rw [Draft.linkRefusal?, draft, size_contents] at refused
  rw [requireUnlinked, get?]
  split at refused
  · rename_i unknown
    cases refused
    rw [Array.getElem?_eq_none unknown]
  · rename_i created
    split at refused
    · rename_i member
      cases refused
      rw [consistent.ordered.mem_iff, Arena.isLinked] at member
      rw [Array.getElem?_eq_getElem (Nat.not_le.mp created), Option.any_some] at member
      rw [Array.getElem?_eq_getElem (Nat.not_le.mp created)]
      exact if_pos member
    · cases refused

theorem requireUnlinked_permitted (consistent : list.Consistent)
    (permitted : list.draft.linkRefusal? id = none) : list.requireUnlinked id = .ok () := by
  obtain ⟨item, found, unlinked⟩ := consistent.linkRefusal?_eq_none.mp permitted
  simp [requireUnlinked, found, unlinked]

/-- A refused edit is refused for the draft's reason and changes nothing. -/
theorem perform_refused (consistent : list.Consistent) {edit : Edit}
    (refused : list.draft.refusal? edit = some reason) :
    list.perform edit = (.error reason, list) := by
  cases edit with
  | create code operand =>
      rw [perform, create_refused refused]
      rfl
  | push code operand =>
      rw [perform, create_refused refused]
  | append id =>
      rw [perform, append, consistent.requireUnlinked_refused refused]
      rfl
  | insert index id =>
      rw [Draft.refusal?, Option.or_eq_some_iff] at refused
      rcases refused with taken | ⟨permitted, beyond⟩
      · rw [perform, insert, consistent.requireUnlinked_refused taken]
        rfl
      · obtain ⟨outside, rfl⟩ := Draft.rangeRefusal?_eq_some.mp beyond
        rw [perform, insert, consistent.requireUnlinked_permitted permitted]
        simp only [Except.bind, bind, if_pos (show list.length < index from outside)]
        rfl
  | replace index id =>
      rw [Draft.refusal?, Option.or_eq_some_iff] at refused
      rcases refused with taken | ⟨permitted, beyond⟩
      · rw [perform, replace, consistent.requireUnlinked_refused taken]
        rfl
      · obtain ⟨outside, rfl⟩ := Draft.rangeRefusal?_eq_some.mp beyond
        rw [perform, replace, consistent.requireUnlinked_permitted permitted,
          requireLinked_refused (Nat.le_of_lt_succ outside)]
        rfl
  | remove index =>
      obtain ⟨outside, rfl⟩ := Draft.rangeRefusal?_eq_some.mp refused
      rw [perform, remove, requireLinked_refused (Nat.le_of_lt_succ outside)]
      rfl

/-- An edit that is not refused answers what the draft does. -/
theorem perform_permitted (consistent : list.Consistent) {edit : Edit}
    (permitted : list.draft.refusal? edit = none) :
    list.perform edit = (.ok (list.draft.answer? edit), list.revised edit) := by
  cases edit with
  | create code operand =>
      rw [perform, create_permitted permitted, Draft.answer?, draft, size_contents]
      rfl
  | push code operand =>
      -- The instruction is free in the list that it was just created in.
      have free : (list.extend code operand).requireUnlinked ⟨list.arena.size⟩ = .ok () := by
        simp [requireUnlinked, get?, extend]
      rw [perform, create_permitted permitted, Draft.answer?, draft, size_contents]
      simp only [append_eq free]
      rfl
  | append id =>
      rw [perform, append_eq (consistent.requireUnlinked_permitted permitted)]
      rfl
  | insert index id =>
      obtain ⟨permitted, inside⟩ := Option.or_eq_none_iff.mp permitted
      have reached : (list.order.take index).length = index :=
        List.length_take_of_le (Draft.rangeRefusal?_eq_none.mp inside)
      have made := consistent.insert_eq (consistent.requireUnlinked_permitted permitted)
        (List.take_append_drop index list.order).symm
      rw [reached] at made
      rw [perform, made]
      rfl
  | replace index id =>
      obtain ⟨permitted, inside⟩ := Option.or_eq_none_iff.mp permitted
      obtain ⟨old, there⟩ := exists_at? (Draft.rangeRefusal?_eq_none.mp inside)
      obtain ⟨split, reached⟩ := split_of_at? there
      have made := consistent.replace_eq (consistent.requireUnlinked_permitted permitted) split
      rw [reached] at made
      rw [perform, made, Draft.answer?, revised, show list.draft.order[index]? = some old from there,
        there]
      rfl
  | remove index =>
      obtain ⟨old, there⟩ := exists_at? (Draft.rangeRefusal?_eq_none.mp permitted)
      obtain ⟨split, reached⟩ := split_of_at? there
      have made := consistent.remove_eq split
      rw [reached] at made
      rw [perform, made, Draft.answer?, revised, show list.draft.order[index]? = some old from there,
        there]
      rfl

end Consistent

theorem draft_revised {edit : Edit} (permitted : list.draft.refusal? edit = none) :
    (list.revised edit).draft = list.draft.edited edit := by
  cases edit with
  | create code operand => exact draft_extend
  | push code operand =>
      rw [revised, draft_linkBetween, draft_extend, Draft.edited, ← size_contents]
      rfl
  | append id => exact draft_linkBetween
  | insert index id =>
      have inside : index ≤ list.order.length :=
        Draft.rangeRefusal?_eq_none.mp (Option.or_eq_none_iff.mp permitted).2
      have placed := insertIdx_length_append (list.order.take index) (list.order.drop index) id
      rw [List.take_append_drop, List.length_take_of_le inside] at placed
      rw [revised, draft_linkBetween, ← placed]
      rfl
  | replace index id =>
      have inside : index < list.order.length :=
        Draft.rangeRefusal?_eq_none.mp (Option.or_eq_none_iff.mp permitted).2
      obtain ⟨old, there⟩ := exists_at? inside
      simp only [revised, there, draft_swapBetween]
      rw [← List.set_eq_take_cons_drop id inside]
      rfl
  | remove index =>
      obtain ⟨old, there⟩ := exists_at? (Draft.rangeRefusal?_eq_none.mp permitted)
      simp only [revised, there, draft_unlinkBetween, ← List.eraseIdx_eq_take_drop_succ]
      rfl

/-- One edit of a list is the edit of its draft. -/
theorem Consistent.perform_draft (consistent : list.Consistent) (edit : Edit) :
    ((list.perform edit).1, (list.perform edit).2.draft) = list.draft.perform edit := by
  rw [Draft.perform]
  cases refused : list.draft.refusal? edit with
  | some reason => rw [consistent.perform_refused refused]
  | none => rw [consistent.perform_permitted refused, draft_revised refused]

/-- The second step of a creation in place is never refused. -/
theorem perform_push (list : InstructionList) (code : Opcode) (operand : Operand) :
    list.perform (.push code operand) =
      list.settle (Prod.map some (·) <$> list.push code operand) := by
  rw [perform, push]
  cases made : list.create code operand with
  | error reason => rfl
  | ok result =>
      obtain ⟨-, -, created, extended⟩ := create_eq_ok made
      have free : result.2.requireUnlinked result.1 = .ok () := by
        simp [created, extended, requireUnlinked, get?, extend]
      simp only [Except.bind, bind, append_eq free]
      rfl

/-- An edit in place leaves the list that the edit gives. -/
theorem perform_edit (list : InstructionList) (edit : Edit) :
    (list.perform edit).2 = list.edit edit := by
  unfold InstructionList.edit
  cases edit with
  | create code operand =>
      simp only [perform, Edit.apply]
      cases list.create code operand <;> rfl
  | push code operand =>
      simp only [perform_push, Edit.apply]
      cases list.push code operand <;> rfl
  | append id =>
      simp only [perform, Edit.apply]
      cases list.append id <;> rfl
  | insert index id =>
      simp only [perform, Edit.apply]
      cases list.insert index id <;> rfl
  | replace index id =>
      simp only [perform, Edit.apply]
      cases list.replace index id <;> rfl
  | remove index =>
      simp only [perform, Edit.apply]
      cases list.remove index <;> rfl

theorem check_eq_ok : operand.check code = .ok () ↔ operand.fits code ∧ operand.isNullToken = false := by
  rw [Operand.check]
  split
  · simp_all
  · split <;> simp_all

theorem Consistent.permits_iff (consistent : list.Consistent) (edit : Edit) :
    list.Permits edit ↔ list.draft.refusal? edit = none := by
  cases edit with
  | create code operand | push code operand =>
      rw [Permits, Draft.refusal?, createRefusal?_eq_none, check_eq_ok, and_assoc]
  | append id => exact consistent.linkRefusal?_eq_none.symm
  | insert index id | replace index id =>
      rw [Permits, Draft.refusal?, Option.or_eq_none_iff, consistent.linkRefusal?_eq_none,
        Draft.rangeRefusal?_eq_none]
      rfl
  | remove index =>
      rw [Permits, Draft.refusal?, Draft.rangeRefusal?_eq_none]
      rfl

theorem Consistent.isOk_perform (consistent : list.Consistent) (edit : Edit) :
    (list.perform edit).1.isOk ↔ list.Permits edit := by
  rw [consistent.permits_iff]
  cases refused : list.draft.refusal? edit with
  | some reason => simp [consistent.perform_refused refused, Except.isOk, Except.toBool]
  | none => simp [consistent.perform_permitted refused, Except.isOk, Except.toBool]

/-- An edit that fails leaves everything as it was. -/
theorem Consistent.perform_of_error (consistent : list.Consistent) {edit : Edit}
    (failed : (list.perform edit).1 = .error reason) : (list.perform edit).2 = list := by
  cases refused : list.draft.refusal? edit with
  | some reason => rw [consistent.perform_refused refused]
  | none =>
      rw [consistent.perform_permitted refused] at failed
      cases failed

theorem Consistent.perform_create (consistent : list.Consistent)
    (permitted : list.Permits (.create code operand)) :
    list.perform (.create code operand) =
      (.ok (some ⟨list.arena.size⟩), list.extend code operand) := by
  rw [consistent.perform_permitted ((consistent.permits_iff _).mp permitted), Draft.answer?, draft,
    size_contents]
  rfl

theorem Consistent.perform (consistent : list.Consistent) (edit : Edit) :
    (list.perform edit).2.Consistent := by
  rw [perform_edit]
  exact consistent.changed (consistent.changes edit)

/-- An instruction that is created and appended at once is not left unlinked. -/
theorem Consistent.isFree_push (consistent : list.Consistent) (code : Opcode) (operand : Operand)
    (id : InstrId) : (list.perform (.push code operand)).2.IsFree id ↔ list.IsFree id := by
  have kept := consistent.perform (.push code operand)
  cases refused : list.draft.refusal? (.push code operand) with
  | some reason => rw [consistent.perform_refused refused]
  | none =>
      have drafts := draft_revised refused
      rw [consistent.perform_permitted refused] at kept ⊢
      have order : (list.revised (.push code operand)).order =
          list.order ++ [⟨list.contents.size⟩] := congrArg Draft.order drafts
      have size := congrArg (·.contents.size) drafts
      simp only [draft, Draft.edited, Array.size_push, size_contents] at size
      rw [kept.isFree_iff, consistent.isFree_iff, order, size, size_contents, List.mem_append,
        List.mem_singleton]
      constructor
      · rintro ⟨created, absent⟩
        refine ⟨?_, fun member => absent (.inl member)⟩
        have other : id.index ≠ list.arena.size := fun same => absent (.inr (congrArg InstrId.mk same))
        omega
      · rintro ⟨created, absent⟩
        refine ⟨Nat.lt_succ_of_lt created, ?_⟩
        rintro (member | rfl)
        · exact absent member
        · exact Nat.lt_irrefl _ created

/-- A history of edits, edit by edit. -/
theorem Consistent.performs (consistent : list.Consistent) (history : List Edit) :
    (CilProfiler.performs InstructionList.perform list history).1 =
        (CilProfiler.performs Draft.perform list.draft history).1 ∧
      (CilProfiler.performs InstructionList.perform list history).2.draft =
        (CilProfiler.performs Draft.perform list.draft history).2 ∧
      (CilProfiler.performs InstructionList.perform list history).2 = list.edits history := by
  induction history generalizing list with
  | nil => exact ⟨rfl, rfl, rfl⟩
  | cons first rest ih =>
      have step := consistent.perform_draft first
      have later := ih (consistent.perform first)
      simp only [CilProfiler.performs, ← step]
      refine ⟨by rw [later.1], later.2.1, ?_⟩
      rw [later.2.2, perform_edit]
      rfl

/-- After any history of edits in place, the answers and the draft are those of the plain edits. A
    further edit does to the draft what the plain edit does; it succeeds if it is permitted, and
    changes nothing if it fails. A mere creation does nothing but add an unlinked instruction, and a
    creation that appends leaves no unlinked one. -/
theorem performs_refine (history : List Edit) :
    let run := CilProfiler.performs InstructionList.perform empty history
    let plain := CilProfiler.performs Draft.perform {} history
    let list := run.2
    run.1 = plain.1 ∧ list.draft = plain.2 ∧ list = empty.edits history ∧
      (∀ edit, ((list.perform edit).1, (list.perform edit).2.draft) = list.draft.perform edit) ∧
      (∀ edit, (list.perform edit).1.isOk ↔ list.Permits edit) ∧
      (∀ edit reason, (list.perform edit).1 = .error reason → (list.perform edit).2 = list) ∧
      (∀ code operand, list.Permits (.create code operand) →
        list.perform (.create code operand) =
          (.ok (some ⟨list.arena.size⟩), list.extend code operand)) ∧
      (∀ code operand, list.perform (.push code operand) =
        list.settle (Prod.map some (·) <$> list.push code operand)) ∧
      ∀ code operand id, (list.perform (.push code operand)).2.IsFree id ↔ list.IsFree id := by
  intro run plain list
  obtain ⟨answers, drafts, same⟩ := consistent_empty.performs history
  rw [draft_empty] at answers drafts
  have consistent : list.Consistent := by
    rw [show list = empty.edits history from same]
    exact Reachable.consistent ⟨history, rfl⟩
  exact ⟨answers, drafts, same, consistent.perform_draft, consistent.isOk_perform,
    fun edit reason => consistent.perform_of_error, fun code operand => consistent.perform_create,
    list.perform_push, consistent.isFree_push⟩

/-- Edits with a handle or a target that does not exist, an operand that is missing, and a position
    behind the end; where two reasons apply, the handle's is given. -/
def mistakenEdits : List Edit := [
  .push .ret .none,
  .push .ldcI4S .none,
  .push .brS (.target ⟨1⟩),
  .create .brS (.target ⟨0⟩),
  .insert 2 ⟨7⟩,
  .replace 1 ⟨0⟩,
  .insert 2 ⟨1⟩,
  .replace 0 ⟨1⟩,
  .remove 1]

theorem mistakenEdits_performs :
    (CilProfiler.performs InstructionList.perform empty mistakenEdits).1 = [
        .ok (some ⟨0⟩),
        .error (.missingOperand .ldcI4S),
        .error (.unknownTarget ⟨1⟩),
        .ok (some ⟨1⟩),
        .error (.unknownInstruction ⟨7⟩),
        .error (.alreadyLinked ⟨0⟩),
        .error (.outOfRange 2 1),
        .ok (some ⟨0⟩),
        .error (.outOfRange 1 1)] ∧
      (empty.edits mistakenEdits).order = [⟨1⟩] := by
  obtain ⟨answers, drafts, same, -⟩ := performs_refine mistakenEdits
  rw [answers, ← same]
  refine ⟨by decide +kernel, ?_⟩
  have plain : (CilProfiler.performs Draft.perform {} mistakenEdits).2.order = [⟨1⟩] := by decide +kernel
  exact (congrArg Draft.order drafts).trans plain

end InstructionList
end CilProfiler

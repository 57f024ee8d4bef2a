import CilProfiler.Proofs.Code.Edits

/-! # Contents of instructions

Opcode and operand of an instruction are fixed when it is created. Edits move instructions and
change their links and offsets; what an instruction is stays as it was checked at its creation.
-/

namespace CilProfiler
namespace Arena

/-- Opcode and operand of every created instruction. -/
def contents (arena : Arena) : Array (Opcode × Operand) :=
  arena.map fun item => (item.code, item.operand)

theorem contents_update_of_same (arena : Arena) (id : InstrId) {change : Instruction → Instruction}
    (code : ∀ item, (change item).code = item.code)
    (operand : ∀ item, (change item).operand = item.operand) :
    (arena.update id change).contents = arena.contents := by
  apply Array.ext_getElem?
  intro i
  simp only [contents, update, Array.getElem?_map, Array.getElem?_modify]
  split
  · simp [Option.map_map, Function.comp_def, code, operand]
  · rfl

@[simp] theorem contents_setNext (arena : Arena) (id next : Option InstrId) :
    (arena.setNext id next).contents = arena.contents := by
  cases id with
  | none => rfl
  | some id => exact arena.contents_update_of_same id (fun _ => rfl) fun _ => rfl

@[simp] theorem contents_setPrevious (arena : Arena) (id previous : Option InstrId) :
    (arena.setPrevious id previous).contents = arena.contents := by
  cases id with
  | none => rfl
  | some id => exact arena.contents_update_of_same id (fun _ => rfl) fun _ => rfl

@[simp] theorem contents_link (arena : Arena) (id : InstrId) (previous next : Option InstrId) :
    (arena.update id (Instruction.link previous next)).contents = arena.contents :=
  arena.contents_update_of_same id (fun _ => rfl) fun _ => rfl

@[simp] theorem contents_unlink (arena : Arena) (id : InstrId) :
    (arena.update id Instruction.unlink).contents = arena.contents :=
  arena.contents_update_of_same id (fun _ => rfl) fun _ => rfl

@[simp] theorem contents_layOut (arena : Arena) (offset : Nat) (ids : List InstrId) :
    (arena.layOut offset ids).contents = arena.contents := by
  induction ids generalizing arena offset with
  | nil => rfl
  | cons id rest ih =>
      simp only [layOut]
      split
      · exact ih arena offset
      · exact (ih _ _).trans (arena.contents_update_of_same id (fun _ => rfl) fun _ => rfl)

end Arena

namespace InstructionList

/-- Opcode and operand of every instruction created for the list. -/
def contents (list : InstructionList) : Array (Opcode × Operand) :=
  list.arena.contents

variable {list edited : InstructionList} {id other : InstrId} {index : Nat} {code : Opcode}
  {operand : Operand}

/-- A created instruction is what was asked for, and it was checked. -/
theorem contents_create (done : list.create code operand = .ok (id, edited)) :
    operand.check code = .ok () ∧ edited.contents = list.contents.push (code, operand) := by
  obtain ⟨_, checked, done⟩ := Outcome.bind_eq_ok.mp done
  split at done
  · cases done
  · cases done
    exact ⟨checked, Array.map_push⟩

theorem contents_append (done : list.append id = .ok edited) : edited.contents = list.contents := by
  obtain ⟨_, _, done⟩ := Outcome.bind_eq_ok.mp done
  cases done
  simp [contents, layOutFrom]

theorem contents_push (done : list.push code operand = .ok (id, edited)) :
    operand.check code = .ok () ∧ edited.contents = list.contents.push (code, operand) := by
  obtain ⟨⟨created, extended⟩, first, done⟩ := Outcome.bind_eq_ok.mp done
  obtain ⟨_, second, done⟩ := Outcome.bind_eq_ok.mp done
  cases done
  rw [contents_append second]
  exact contents_create first

theorem contents_insert (done : list.insert index id = .ok edited) :
    edited.contents = list.contents := by
  obtain ⟨_, _, done⟩ := Outcome.bind_eq_ok.mp done
  split at done
  · cases done
  · split at done
    · exact contents_append done
    · cases done
      simp [contents, layOutFrom]

theorem contents_replace (done : list.replace index id = .ok (other, edited)) :
    edited.contents = list.contents := by
  obtain ⟨_, _, done⟩ := Outcome.bind_eq_ok.mp done
  obtain ⟨_, _, done⟩ := Outcome.bind_eq_ok.mp done
  cases done
  simp [contents, layOutFrom]

theorem contents_remove (done : list.remove index = .ok (other, edited)) :
    edited.contents = list.contents := by
  obtain ⟨_, _, done⟩ := Outcome.bind_eq_ok.mp done
  cases done
  simp [contents, layOutFrom]

/-- An edit keeps every instruction as it is, and creates at most one that was checked. -/
theorem contents_edit (list : InstructionList) (edit : Edit) :
    (list.edit edit).contents = list.contents ∨
      ∃ code operand, operand.check code = .ok () ∧
        (list.edit edit).contents = list.contents.push (code, operand) := by
  unfold InstructionList.edit
  split
  · rename_i edited done
    cases edit with
    | create code operand =>
        obtain ⟨⟨id, edited⟩, made, rfl⟩ := Outcome.map_eq_ok.mp done
        exact .inr ⟨code, operand, contents_create made⟩
    | push code operand =>
        obtain ⟨⟨id, edited⟩, made, rfl⟩ := Outcome.map_eq_ok.mp done
        exact .inr ⟨code, operand, contents_push made⟩
    | append id => exact .inl (contents_append done)
    | insert index id => exact .inl (contents_insert done)
    | replace index id =>
        obtain ⟨⟨replaced, edited⟩, made, rfl⟩ := Outcome.map_eq_ok.mp done
        exact .inl (contents_replace made)
    | remove index =>
        obtain ⟨⟨removed, edited⟩, made, rfl⟩ := Outcome.map_eq_ok.mp done
        exact .inl (contents_remove made)
  · exact .inl rfl

/-- Each created instruction has passed the check of its operand. -/
def Checked (list : InstructionList) : Prop :=
  ∀ content ∈ list.contents, content.2.check content.1 = .ok ()

theorem Checked.edit (checked : list.Checked) (edit : Edit) : (list.edit edit).Checked := by
  intro content member
  rcases list.contents_edit edit with same | ⟨code, operand, passed, grown⟩
  · exact checked content (same ▸ member)
  · rw [grown, Array.mem_push] at member
    rcases member with old | rfl
    · exact checked content old
    · exact passed

theorem Checked.edits (checked : list.Checked) (history : List Edit) :
    (list.edits history).Checked := by
  induction history generalizing list with
  | nil => exact checked
  | cons first rest ih => exact ih (checked.edit first)

theorem checked_empty : empty.Checked := by
  simp [Checked, contents, Arena.contents, empty]

theorem Reachable.checked (reachable : list.Reachable) {item : Instruction}
    (found : list.get? id = some item) : item.operand.check item.code = .ok () := by
  obtain ⟨history, rfl⟩ := reachable
  exact checked_empty.edits history (item.code, item.operand)
    (Array.mem_map.mpr ⟨item, Array.mem_of_getElem? found, rfl⟩)

end InstructionList
end CilProfiler

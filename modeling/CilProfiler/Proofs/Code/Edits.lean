import CilProfiler.Code.InstructionList
import CilProfiler.Proofs.Outcome
import Mathlib.Data.List.Perm.Basic

/-! # Edit histories

Every instruction list comes from the empty one by edits, in any order and with any handles and
positions; an edit that is refused leaves the list as it was. Whatever the history, the code
order names each instruction at most once, and it names exactly the instructions that are marked
as linked. Every analysis of a body rests on that: a position stands for one instruction.
-/

namespace CilProfiler

/-- One call of an editing operation, with its arguments. -/
inductive Edit where
  | create (code : Opcode) (operand : Operand)
  | push (code : Opcode) (operand : Operand)
  | append (id : InstrId)
  | insert (index : Nat) (id : InstrId)
  | replace (index : Nat) (id : InstrId)
  | remove (index : Nat)
  deriving Repr, DecidableEq

/-- The list that an edit gives, or why it is refused. -/
def Edit.apply (list : InstructionList) : Edit → Except EditError InstructionList
  | .create code operand => Prod.snd <$> list.create code operand
  | .push code operand => Prod.snd <$> list.push code operand
  | .append id => list.append id
  | .insert index id => list.insert index id
  | .replace index id => Prod.snd <$> list.replace index id
  | .remove index => Prod.snd <$> list.remove index

namespace InstructionList

/-- The list after an edit. A refused edit changes nothing. -/
def edit (list : InstructionList) (edit : Edit) : InstructionList :=
  match edit.apply list with
  | .ok edited => edited
  | .error _ => list

/-- The list after a history of edits. -/
def edits (list : InstructionList) (history : List Edit) : InstructionList :=
  history.foldl edit list

/-- Some history of edits gives the list. -/
def Reachable (list : InstructionList) : Prop :=
  ∃ history, list = empty.edits history

end InstructionList

namespace Arena

/-- The instruction exists and is linked. -/
def isLinked (arena : Arena) (id : InstrId) : Bool :=
  arena[id.index]?.any (·.linked)

theorem isLinked_update (arena : Arena) (id other : InstrId) (change : Instruction → Instruction) :
    (arena.update id change).isLinked other =
      if id = other then arena[other.index]?.any fun item => (change item).linked
      else arena.isLinked other := by
  cases id
  cases other
  simp only [isLinked, update, Array.getElem?_modify, InstrId.mk.injEq]
  split
  · rw [Option.any_map]
  · rfl

/-- Neighbours and offsets do not say whether an instruction is linked. -/
theorem isLinked_update_of_same (arena : Arena) (id : InstrId) {change : Instruction → Instruction}
    (same : ∀ item, (change item).linked = item.linked) :
    (arena.update id change).isLinked = arena.isLinked := by
  funext other
  rw [isLinked_update]
  split
  · simp only [same, isLinked]
  · rfl

@[simp] theorem isLinked_setNext (arena : Arena) (id next : Option InstrId) :
    (arena.setNext id next).isLinked = arena.isLinked := by
  cases id with
  | none => rfl
  | some id => exact arena.isLinked_update_of_same id fun _ => rfl

@[simp] theorem isLinked_setPrevious (arena : Arena) (id previous : Option InstrId) :
    (arena.setPrevious id previous).isLinked = arena.isLinked := by
  cases id with
  | none => rfl
  | some id => exact arena.isLinked_update_of_same id fun _ => rfl

@[simp] theorem isLinked_layOut (arena : Arena) (offset : Nat) (ids : List InstrId) :
    (arena.layOut offset ids).isLinked = arena.isLinked := by
  induction ids generalizing arena offset with
  | nil => rfl
  | cons id rest ih =>
      simp only [layOut]
      split
      · exact ih arena offset
      · exact (ih _ _).trans (arena.isLinked_update_of_same id fun _ => rfl)

end Arena

namespace Arena

@[simp] theorem size_update (arena : Arena) (id : InstrId) (change : Instruction → Instruction) :
    (arena.update id change).size = arena.size :=
  Array.size_modify

@[simp] theorem size_setNext (arena : Arena) (id next : Option InstrId) :
    (arena.setNext id next).size = arena.size := by
  cases id with
  | none => rfl
  | some id => exact arena.size_update id _

@[simp] theorem size_setPrevious (arena : Arena) (id previous : Option InstrId) :
    (arena.setPrevious id previous).size = arena.size := by
  cases id with
  | none => rfl
  | some id => exact arena.size_update id _

/-- An instruction that exists is linked after it has been given neighbours. -/
theorem isLinked_link {arena : Arena} {id : InstrId} (created : id.index < arena.size)
    (previous next : Option InstrId) (other : InstrId) :
    (arena.update id (Instruction.link previous next)).isLinked other =
      (decide (other = id) || arena.isLinked other) := by
  rw [isLinked_update]
  by_cases same : id = other
  · subst same
    rw [Array.getElem?_eq_getElem created]
    simp [Instruction.link]
  · simp [same, Ne.symm same]

theorem isLinked_unlink (arena : Arena) (id other : InstrId) :
    (arena.update id Instruction.unlink).isLinked other =
      (decide (other ≠ id) && arena.isLinked other) := by
  rw [isLinked_update]
  by_cases same : id = other
  · subst same
    cases arena[id.index]? <;> simp [Instruction.unlink]
  · simp [same, Ne.symm same]

theorem isLinked_push (arena : Arena) (item : Instruction) (unlinked : item.linked = false) :
    isLinked (arena.push item) = arena.isLinked := by
  funext id
  simp only [isLinked, Array.getElem?_push]
  split
  · rename_i last
    simp [last, unlinked]
  · rfl

/-- The order names each linked instruction once, and nothing else. -/
structure Ordered (arena : Arena) (order : List InstrId) : Prop where
  nodup : order.Nodup
  mem_iff : ∀ id, id ∈ order ↔ arena.isLinked id

namespace Ordered

variable {arena changed : Arena} {order other : List InstrId} {id : InstrId}

theorem perm (ordered : arena.Ordered order) (same : order.Perm other) : arena.Ordered other where
  nodup := same.nodup_iff.mp ordered.nodup
  mem_iff id := by rw [← same.mem_iff, ordered.mem_iff]

theorem of_isLinked_eq (ordered : arena.Ordered order) (same : changed.isLinked = arena.isLinked) :
    changed.Ordered order where
  nodup := ordered.nodup
  mem_iff id := by rw [same, ordered.mem_iff]

/-- Link one instruction more. -/
theorem link (ordered : arena.Ordered order) (created : id.index < arena.size)
    (fresh : arena.isLinked id = false) (previous next : Option InstrId) :
    Ordered (arena.update id (Instruction.link previous next)) (id :: order) where
  nodup := by
    refine List.nodup_cons.mpr ⟨fun member => ?_, ordered.nodup⟩
    simp [(ordered.mem_iff id).mp member] at fresh
  mem_iff other := by simp [isLinked_link created, ordered.mem_iff]

/-- Unlink one instruction. -/
theorem unlink (ordered : arena.Ordered (id :: order)) :
    Ordered (arena.update id Instruction.unlink) order where
  nodup := (List.nodup_cons.mp ordered.nodup).2
  mem_iff other := by
    have absent := (List.nodup_cons.mp ordered.nodup).1
    rw [isLinked_unlink, Bool.and_eq_true, decide_eq_true_eq, ← ordered.mem_iff, List.mem_cons]
    constructor
    · intro inside
      exact ⟨fun same => absent (same ▸ inside), .inr inside⟩
    · rintro ⟨different, same | inside⟩
      · exact absurd same different
      · exact inside

end Ordered
end Arena

namespace InstructionList

/-- The order of a list names each linked instruction once, and nothing else. -/
def Ordered (list : InstructionList) : Prop :=
  list.arena.Ordered list.order

variable {list edited : InstructionList}

/-- Laying out offsets links and unlinks nothing. -/
@[simp] theorem ordered_layOutFrom (index : Nat) :
    (list.layOutFrom index).Ordered ↔ list.Ordered := by
  constructor <;> rintro ⟨nodup, member⟩ <;> exact ⟨nodup, by simpa [layOutFrom] using member⟩

theorem ordered_empty : empty.Ordered where
  nodup := List.nodup_nil
  mem_iff id := by simp [empty, Arena.isLinked]

/-- An instruction that may be linked exists and is not linked yet. -/
theorem requireUnlinked_eq_ok {id : InstrId} (checked : list.requireUnlinked id = .ok ()) :
    id.index < list.arena.size ∧ list.arena.isLinked id = false := by
  simp only [requireUnlinked, get?] at checked
  split at checked
  · cases checked
  · rename_i item found
    split at checked
    · cases checked
    · rename_i unlinked
      exact ⟨(Array.getElem?_eq_some_iff.mp found).1,
        by simpa [Arena.isLinked, found] using unlinked⟩

theorem requireLinked_eq_ok {index : Nat} {id : InstrId} (checked : list.requireLinked index = .ok id) :
    ∃ inside : index < list.order.length, list.order[index] = id := by
  simp only [requireLinked, at?] at checked
  split at checked
  · cases checked
  · rename_i found
    cases checked
    exact List.getElem?_eq_some_iff.mp found

namespace Ordered

/-- Telling two neighbours about an instruction links nothing. -/
theorem joined (ordered : list.Ordered) (id : InstrId) (previous next : Option InstrId) :
    Arena.Ordered ((list.arena.setNext previous (some id)).setPrevious next (some id)) list.order :=
  ordered.of_isLinked_eq (by simp)

theorem create (ordered : list.Ordered) {code : Opcode} {operand : Operand} {id : InstrId}
    (done : list.create code operand = .ok (id, edited)) : edited.Ordered := by
  obtain ⟨_, _, done⟩ := Outcome.bind_eq_ok.mp done
  split at done
  · cases done
  · cases done
    exact ⟨ordered.nodup, fun id => by rw [Arena.isLinked_push _ _ rfl, ordered.mem_iff]⟩

theorem append (ordered : list.Ordered) {id : InstrId} (done : list.append id = .ok edited) :
    edited.Ordered := by
  obtain ⟨_, checked, done⟩ := Outcome.bind_eq_ok.mp done
  obtain ⟨created, fresh⟩ := requireUnlinked_eq_ok checked
  cases done
  rw [ordered_layOutFrom]
  have widened := ordered.of_isLinked_eq (Arena.isLinked_setNext _ list.last? (some id))
  have linked := widened.link (by simpa using created) (by simpa using fresh) list.last? none
  exact linked.perm (List.perm_append_singleton id list.order).symm

theorem push (ordered : list.Ordered) {code : Opcode} {operand : Operand} {id : InstrId}
    (done : list.push code operand = .ok (id, edited)) : edited.Ordered := by
  obtain ⟨⟨created, extended⟩, first, done⟩ := Outcome.bind_eq_ok.mp done
  obtain ⟨_, second, done⟩ := Outcome.bind_eq_ok.mp done
  cases done
  exact (ordered.create first).append second

theorem insert (ordered : list.Ordered) {index : Nat} {id : InstrId}
    (done : list.insert index id = .ok edited) : edited.Ordered := by
  obtain ⟨_, checked, done⟩ := Outcome.bind_eq_ok.mp done
  obtain ⟨created, fresh⟩ := requireUnlinked_eq_ok checked
  split at done
  · cases done
  · rename_i inside
    split at done
    · exact ordered.append done
    · rename_i current located
      cases done
      rw [ordered_layOutFrom]
      have widened := ordered.joined id ((list.get? current).bind (·.previous)) (some current)
      have linked := widened.link (by simpa using created) (by simpa using fresh)
        ((list.get? current).bind (·.previous)) (some current)
      exact linked.perm (List.perm_insertIdx id list.order (Nat.le_of_not_lt inside)).symm

theorem remove (ordered : list.Ordered) {index : Nat} {id : InstrId}
    (done : list.remove index = .ok (id, edited)) : edited.Ordered := by
  obtain ⟨current, checked, done⟩ := Outcome.bind_eq_ok.mp done
  obtain ⟨inside, rfl⟩ := requireLinked_eq_ok checked
  cases done
  rw [ordered_layOutFrom]
  have split : list.arena.Ordered (list.order[index] :: list.order.eraseIdx index) :=
    Arena.Ordered.perm ordered (List.getElem_cons_eraseIdx_perm inside).symm
  exact (split.of_isLinked_eq (by simp)).unlink

/-- Replacing links one instruction and unlinks another, at one position. -/
theorem replace (ordered : list.Ordered) {index : Nat} {id replaced : InstrId}
    (done : list.replace index id = .ok (replaced, edited)) : edited.Ordered := by
  obtain ⟨_, checked, done⟩ := Outcome.bind_eq_ok.mp done
  obtain ⟨created, fresh⟩ := requireUnlinked_eq_ok checked
  obtain ⟨current, located, done⟩ := Outcome.bind_eq_ok.mp done
  obtain ⟨inside, rfl⟩ := requireLinked_eq_ok located
  cases done
  rw [ordered_layOutFrom]
  have widened := ordered.joined id ((list.get? list.order[index]).bind (·.previous))
    ((list.get? list.order[index]).bind (·.next))
  have linked := widened.link (by simpa using created) (by simpa using fresh)
    ((list.get? list.order[index]).bind (·.previous))
    ((list.get? list.order[index]).bind (·.next))
  have both := linked.perm
    (((List.getElem_cons_eraseIdx_perm inside).symm.cons id).trans (List.Perm.swap _ _ _))
  exact both.unlink.perm (List.set_perm_cons_eraseIdx inside id).symm

/-- One edit, also a refused one, keeps the order in step with what is linked. -/
theorem edit (ordered : list.Ordered) (edit : Edit) : (list.edit edit).Ordered := by
  unfold InstructionList.edit
  split
  · rename_i edited done
    cases edit with
    | create code operand =>
        obtain ⟨⟨id, edited⟩, made, rfl⟩ := Outcome.map_eq_ok.mp done
        exact ordered.create made
    | push code operand =>
        obtain ⟨⟨id, edited⟩, made, rfl⟩ := Outcome.map_eq_ok.mp done
        exact ordered.push made
    | append id => exact ordered.append done
    | insert index id => exact ordered.insert done
    | replace index id =>
        obtain ⟨⟨replaced, edited⟩, made, rfl⟩ := Outcome.map_eq_ok.mp done
        exact ordered.replace made
    | remove index =>
        obtain ⟨⟨removed, edited⟩, made, rfl⟩ := Outcome.map_eq_ok.mp done
        exact ordered.remove made
  · exact ordered

end Ordered

/-- In a list that edits can give, the order names each linked instruction once. -/
theorem Reachable.ordered (reachable : list.Reachable) : list.Ordered := by
  obtain ⟨history, rfl⟩ := reachable
  suffices every : ∀ start : InstructionList, start.Ordered → (start.edits history).Ordered from
    every empty ordered_empty
  induction history with
  | nil => exact fun start ordered => ordered
  | cons first rest ih => exact fun start ordered => ih _ (ordered.edit first)

/-- The instruction at a position of the linked code, with its handle. -/
def Linked (list : InstructionList) (position : Nat) (id : InstrId) (item : Instruction) : Prop :=
  list.at? position = some id ∧ list.get? id = some item

/-- A property holds at every position of the linked code. -/
def ForallLinked (list : InstructionList) (holds : Nat → InstrId → Instruction → Prop) : Prop :=
  ∀ position id item, list.Linked position id item → holds position id item

instance (list : InstructionList) (holds : Nat → InstrId → Instruction → Prop)
    [∀ position id item, Decidable (holds position id item)] : Decidable (list.ForallLinked holds) :=
  decidable_of_iff
    (∀ position < list.length, ∀ id ∈ list.at? position, ∀ item ∈ list.get? id,
      holds position id item)
    ⟨fun checked position id item linked =>
      checked position (List.getElem?_eq_some_iff.mp linked.1).1 id linked.1 item linked.2,
      fun always position _ id there item found => always position id item ⟨there, found⟩⟩

theorem Ordered.get?_of_mem (ordered : list.Ordered) {id : InstrId} (member : id ∈ list.order) :
    ∃ item, list.get? id = some item := by
  have linked := (ordered.mem_iff id).mp member
  unfold Arena.isLinked at linked
  cases found : list.get? id with
  | none => simp [show list.arena[id.index]? = none from found] at linked
  | some item => exact ⟨item, rfl⟩

private theorem getElem?_filterMap_of_isSome {α β : Type} {convert : α → Option β} {source : List α}
    (defined : ∀ a ∈ source, (convert a).isSome) (i : Nat) :
    (source.filterMap convert)[i]? = source[i]?.bind convert := by
  induction source generalizing i with
  | nil => rfl
  | cons head rest ih =>
      obtain ⟨value, converted⟩ := Option.isSome_iff_exists.mp (defined head List.mem_cons_self)
      rw [List.filterMap_cons_some converted]
      cases i with
      | zero => simp [converted]
      | succ i => simpa using ih (fun a member => defined a (List.mem_cons_of_mem _ member)) i

/-- Items stand at the positions of their handles. -/
theorem Ordered.items_getElem? (ordered : list.Ordered) {position : Nat} {id : InstrId}
    {item : Instruction} :
    list.items[position]? = some (id, item) ↔ list.Linked position id item := by
  have defined : ∀ id ∈ list.order, ((list.get? id).map (id, ·)).isSome := by
    intro id member
    obtain ⟨item, found⟩ := ordered.get?_of_mem member
    simp [found]
  rw [items, getElem?_filterMap_of_isSome defined, Linked, at?]
  simp only [Option.bind_eq_some_iff, Option.map_eq_some_iff, Prod.mk.injEq]
  constructor
  · rintro ⟨_, there, _, found, rfl, rfl⟩
    exact ⟨there, found⟩
  · rintro ⟨there, found⟩
    exact ⟨id, there, item, found, rfl, rfl⟩

theorem Ordered.length_items (ordered : list.Ordered) : list.items.length = list.length := by
  refine List.filterMap_length_eq_length.mpr fun id member => ?_
  obtain ⟨item, found⟩ := ordered.get?_of_mem member
  simp [found]

theorem Ordered.exists_linked (ordered : list.Ordered) {position : Nat}
    (inside : position < list.length) : ∃ id item, list.Linked position id item := by
  have there : list.at? position = some list.order[position] := List.getElem?_eq_getElem inside
  obtain ⟨item, found⟩ := ordered.get?_of_mem (List.mem_of_getElem? there)
  exact ⟨_, item, there, found⟩

end InstructionList
end CilProfiler

import CilProfiler.Proofs.Code.OperandMatrix

/-! # Blocks of new instructions

Instrumentation creates several instructions and links them side by side. What such a block gives is
told without offsets and neighbours: the new instructions stand between two parts of the old order,
and every instruction is what it was created as.
-/

namespace CilProfiler
namespace InstructionList

/-- Create one instruction after another. -/
def createAll (list : InstructionList) :
    List (Opcode × Operand) → Except EditError (List InstrId × InstructionList)
  | [] => .ok ([], list)
  | (code, operand) :: rest => do
    let (id, list) ← list.create code operand
    let (ids, list) ← list.createAll rest
    return (id :: ids, list)

/-- Link instructions side by side, the first one at a position. -/
def insertAll (list : InstructionList) (index : Nat) : List InstrId → Except EditError InstructionList
  | [] => .ok list
  | id :: rest => do
    let list ← list.insert index id
    list.insertAll (index + 1) rest

/-- A list holds a block of new instructions at a position, and is another list otherwise. -/
structure Gains (list edited : InstructionList) (index : Nat) (ids : List InstrId)
    (block : List (Opcode × Operand)) : Prop where
  order : edited.order = list.order.take index ++ (ids ++ list.order.drop index)
  kept : ∀ (i : Nat) content, list.contents[i]? = some content → edited.contents[i]? = some content
  block : List.Forall₂ (fun id content => edited.contents[id.index]? = some content) ids block
  created : ∀ id ∈ ids, list.arena.size ≤ id.index

variable {list created edited : InstructionList} {ids front back : List InstrId} {id : InstrId}
  {index : Nat} {block : List (Opcode × Operand)} {content : Opcode × Operand}

theorem contents_eq_some : list.contents[id.index]? = some content ↔
    ∃ item, list.get? id = some item ∧ item.code = content.1 ∧ item.operand = content.2 := by
  rw [contents, Arena.contents, Array.getElem?_map, Option.map_eq_some_iff]
  exact exists_congr fun item => and_congr Iff.rfl Prod.ext_iff

theorem contents_of_get? {item : Instruction} (found : list.get? id = some item) :
    list.contents[id.index]? = some (item.code, item.operand) :=
  contents_eq_some.mpr ⟨item, found, rfl, rfl⟩

/-- Instructions that are created one after another get the next handles. -/
theorem createAll_eq_ok (done : list.createAll block = .ok (ids, created)) :
    ids = (List.range' list.arena.size block.length).map InstrId.mk ∧ created.order = list.order ∧
      created.contents = list.contents ++ block.toArray := by
  induction block generalizing list ids with
  | nil =>
      cases done
      exact ⟨rfl, rfl, by simp⟩
  | cons first rest ih =>
      obtain ⟨⟨id, extended⟩, made, done⟩ := Outcome.bind_eq_ok.mp done
      obtain ⟨⟨later, final⟩, others, done⟩ := Outcome.bind_eq_ok.mp done
      cases done
      obtain ⟨-, -, rfl, rfl⟩ := create_eq_ok made
      obtain ⟨handles, order, contents⟩ := ih others
      have grown : (list.extend first.1 first.2).contents = list.contents.push first :=
        congrArg Draft.contents draft_extend
      have size : (list.extend first.1 first.2).arena.size = list.arena.size + 1 := Array.size_push ..
      refine ⟨?_, order, ?_⟩
      · rw [handles, size, List.length_cons, List.range'_succ, List.map_cons]
      · rw [contents, grown]
        simp

theorem takes_of_createAll (done : list.createAll block = .ok (ids, created)) :
    ∀ content ∈ block, content.1.Takes content.2 := by
  induction block generalizing list ids with
  | nil => simp
  | cons first rest ih =>
      obtain ⟨⟨id, extended⟩, made, done⟩ := Outcome.bind_eq_ok.mp done
      obtain ⟨⟨later, final⟩, others, done⟩ := Outcome.bind_eq_ok.mp done
      cases done
      exact List.forall_mem_cons.mpr ⟨Operand.check_eq_ok_iff.mp (create_eq_ok made).1, ih others⟩

namespace Consistent

theorem createAll (consistent : list.Consistent) (done : list.createAll block = .ok (ids, created)) :
    created.Consistent := by
  induction block generalizing list ids with
  | nil =>
      cases done
      exact consistent
  | cons first rest ih =>
      obtain ⟨⟨id, extended⟩, made, done⟩ := Outcome.bind_eq_ok.mp done
      obtain ⟨⟨later, final⟩, others, done⟩ := Outcome.bind_eq_ok.mp done
      cases done
      exact ih (consistent.change (change_of_create made)) others

/-- Instructions that are created and not linked can be linked side by side. -/
theorem insertAll (consistent : list.Consistent) (distinct : ids.Nodup)
    (free : ∀ id ∈ ids, list.IsFree id) (split : list.order = front ++ back) :
    ∃ edited, list.insertAll front.length ids = .ok edited ∧ edited.Consistent ∧
      edited.order = front ++ (ids ++ back) ∧ edited.contents = list.contents := by
  induction ids generalizing list front with
  | nil => exact ⟨list, rfl, consistent, split, rfl⟩
  | cons id rest ih =>
      obtain ⟨absent, distinct⟩ := List.nodup_cons.mp distinct
      have unlinked := consistent.requireUnlinked_permitted
        (consistent.linkRefusal?_eq_none.mpr (free id List.mem_cons_self))
      have inserted := consistent.insert_eq unlinked split
      have changed := consistent.change (.link unlinked split)
      have drafts : (list.linkBetween front back id).draft = _ := draft_linkBetween
      have order : (list.linkBetween front back id).order = front ++ id :: back :=
        congrArg Draft.order drafts
      have contents : (list.linkBetween front back id).contents = list.contents :=
        congrArg Draft.contents drafts
      have free' : ∀ other ∈ rest, (list.linkBetween front back id).IsFree other := by
        intro other member
        obtain ⟨inside, outside⟩ := consistent.isFree_iff.mp (free other (List.mem_cons_of_mem id member))
        have different : other ≠ id := fun same => absent (same ▸ member)
        rw [changed.isFree_iff, ← size_contents, contents, size_contents, order]
        simpa [split, different, inside] using outside
      have split' : (list.linkBetween front back id).order = (front ++ [id]) ++ back := by
        rw [order, List.append_assoc]
        rfl
      obtain ⟨edited, others, kept, order', contents'⟩ := ih changed distinct free' split'
      rw [List.length_append, List.length_singleton] at others
      refine ⟨edited, ?_, kept, ?_, contents'.trans contents⟩
      · rw [InstructionList.insertAll, inserted]
        exact others
      · rw [order', List.append_assoc]
        rfl

end Consistent

/-- A block of new instructions can be linked wherever there is a position. -/
theorem Consistent.gains (consistent : list.Consistent) (inside : index ≤ list.length)
    (done : list.createAll block = .ok (ids, created)) :
    ∃ edited, created.insertAll index ids = .ok edited ∧ edited.Consistent ∧
      list.Gains edited index ids block := by
  have extended := consistent.createAll done
  obtain ⟨handles, order, contents⟩ := createAll_eq_ok done
  have size : created.arena.size = list.arena.size + block.length := by
    rw [← size_contents, contents, Array.size_append, ← size_contents]
    rfl
  have new : ∀ id ∈ ids, list.arena.size ≤ id.index ∧ id.index < created.arena.size := by
    intro id member
    rw [handles, List.mem_map] at member
    obtain ⟨i, within, rfl⟩ := member
    rw [size]
    exact List.mem_range'_1.mp within
  have distinct : ids.Nodup := by
    rw [handles]
    exact List.Pairwise.map InstrId.mk (fun i j apart same => apart (congrArg InstrId.index same))
      List.nodup_range'
  have free : ∀ id ∈ ids, created.IsFree id := by
    intro id member
    refine extended.isFree_iff.mpr ⟨(new id member).2, fun linked => ?_⟩
    exact Nat.not_lt.mpr (new id member).1 (consistent.created (order ▸ linked))
  have split : created.order = list.order.take index ++ list.order.drop index := by
    rw [order, List.take_append_drop]
  obtain ⟨edited, inserted, kept, order', contents'⟩ := extended.insertAll distinct free split
  rw [List.length_take_of_le inside] at inserted
  refine ⟨edited, inserted, kept, order', fun i content there => ?_, ?_, fun id member => (new id member).1⟩
  · obtain ⟨old, _⟩ := Array.getElem?_eq_some_iff.mp there
    rw [contents', contents, Array.getElem?_append_left old, there]
  · refine List.forall₂_iff_get.mpr ⟨by simp [handles], fun i before before' => ?_⟩
    have handle : (ids.get ⟨i, before⟩).index = list.contents.size + i := by
      simp [handles, size_contents]
    rw [contents', contents, handle, Array.getElem?_append_right (Nat.le_add_right _ _)]
    simp
end InstructionList
end CilProfiler

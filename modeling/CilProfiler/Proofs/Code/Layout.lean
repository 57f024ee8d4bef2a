import CilProfiler.Proofs.Code.Changes
import CilProfiler.Proofs.Code.Contents
import Mathlib.Data.List.Forall2

/-! # Code layout

A linked instruction starts where the one before it ends. An edit lays out the code from the edited
position on and trusts what stands before it; that is enough, since no edit moves anything in front
of its position. So the offset of an instruction is the size of the code before it, whatever the
history, and offsets can be forgotten as soon as sizes are known.
-/

namespace CilProfiler
namespace Arena

variable {arena changed : Arena} {front back order : List InstrId} {id other : InstrId} {start : Nat}

def offsetOf (arena : Arena) (id : InstrId) : Nat :=
  (arena[id.index]?.map (·.offset)).getD 0

def sizeOf (arena : Arena) (id : InstrId) : Nat :=
  (arena[id.index]?.map (·.size)).getD 0

/-- Bytes that instructions take one behind another. -/
def span (arena : Arena) : List InstrId → Nat
  | [] => 0
  | id :: rest => arena.sizeOf id + arena.span rest

theorem span_append : arena.span (front ++ back) = arena.span front + arena.span back := by
  induction front with
  | nil => simp [span]
  | cons first rest ih => rw [List.cons_append, span, span, ih, Nat.add_assoc]

/-- Opcode and operand say how many bytes an instruction takes. -/
theorem sizeOf_eq_of_contents (same : changed.contents = arena.contents) :
    changed.sizeOf = arena.sizeOf := by
  have read : ∀ arena : Arena, arena.sizeOf = fun id =>
      (arena.contents[id.index]?.map fun (code, operand) =>
        code.size + operand.size code.operandType).getD 0 := by
    intro arena
    funext id
    simp only [sizeOf, contents, Array.getElem?_map, Option.map_map]
    rfl
  rw [read, read, same]

/-- Orders of the same sizes take the same room, also in different arenas. -/
theorem span_congr {ids ids' : List InstrId}
    (same : List.Forall₂ (fun id id' => changed.sizeOf id = arena.sizeOf id') ids ids') :
    changed.span ids = arena.span ids' := by
  induction same with
  | nil => rfl
  | cons first _ ih => rw [span, span, first, ih]

theorem span_eq_of_contents (same : changed.contents = arena.contents) :
    changed.span order = arena.span order :=
  span_congr (List.forall₂_same.mpr fun id _ => congrFun (sizeOf_eq_of_contents same) id)

theorem offsetOf_update_of_ne (apart : id ≠ other) (change : Instruction → Instruction) :
    (arena.update id change).offsetOf other = arena.offsetOf other := by
  cases id
  cases other
  rw [ne_eq, InstrId.mk.injEq] at apart
  simp only [offsetOf, update, Array.getElem?_modify, if_neg apart]

theorem offsetOf_update_of_same {change : Instruction → Instruction}
    (same : ∀ item, (change item).offset = item.offset) :
    (arena.update id change).offsetOf other = arena.offsetOf other := by
  simp only [offsetOf, update, Array.getElem?_modify]
  split
  · simp only [Option.map_map, Function.comp_def, same]
  · rfl

@[simp] theorem offsetOf_setNext (target next : Option InstrId) :
    (arena.setNext target next).offsetOf other = arena.offsetOf other := by
  cases target with
  | none => rfl
  | some id => exact offsetOf_update_of_same fun _ => rfl

@[simp] theorem offsetOf_setPrevious (target previous : Option InstrId) :
    (arena.setPrevious target previous).offsetOf other = arena.offsetOf other := by
  cases target with
  | none => rfl
  | some id => exact offsetOf_update_of_same fun _ => rfl

@[simp] theorem offsetOf_attach (previous next : Option InstrId) :
    (arena.attach previous next id).offsetOf other = arena.offsetOf other := by
  have same : ∀ item, (Instruction.link previous next item).offset = item.offset := fun _ => rfl
  rw [attach, offsetOf_update_of_same same, offsetOf_setPrevious, offsetOf_setNext]

theorem offsetOf_detach (apart : id ≠ other) (previous next : Option InstrId) :
    (arena.detach previous next id).offsetOf other = arena.offsetOf other := by
  rw [detach, offsetOf_update_of_ne apart, offsetOf_setPrevious, offsetOf_setNext]

theorem offsetOf_layOut_of_notMem (absent : id ∉ order) :
    (arena.layOut start order).offsetOf id = arena.offsetOf id := by
  induction order generalizing arena start with
  | nil => rfl
  | cons first rest ih =>
      rw [List.mem_cons, not_or] at absent
      rw [layOut]
      split
      · exact ih absent.2
      · rw [ih absent.2, offsetOf_update_of_ne (Ne.symm absent.1)]

/-- What is laid out follows what is laid out before it. -/
theorem offsetOf_layOut (distinct : (front ++ id :: back).Nodup)
    (created : ∀ other ∈ front ++ id :: back, other.index < arena.size) :
    (arena.layOut start (front ++ id :: back)).offsetOf id = start + arena.span front := by
  induction front generalizing arena start with
  | nil =>
      have inside : id.index < arena.size := created id (by simp)
      have absent : id ∉ back := (List.nodup_cons.mp distinct).1
      rw [List.nil_append, layOut, Array.getElem?_eq_getElem inside]
      simp only [offsetOf_layOut_of_notMem absent]
      simp [offsetOf, update, Array.getElem?_modify, Array.getElem?_eq_getElem inside, span]
  | cons first rest ih =>
      have inside : first.index < arena.size := created first (by simp)
      have size : arena.sizeOf first = arena[first.index].size := by
        simp [sizeOf, Array.getElem?_eq_getElem inside]
      have kept : (arena.update first ({ · with offset := start })).contents = arena.contents :=
        arena.contents_update_of_same first (fun _ => rfl) fun _ => rfl
      rw [List.cons_append] at distinct created
      rw [List.cons_append, layOut, Array.getElem?_eq_getElem inside, span, size, ← Nat.add_assoc,
        ← span_eq_of_contents kept]
      exact ih (List.nodup_cons.mp distinct).2
        fun other member => by simpa using created other (List.mem_cons_of_mem _ member)

@[simp] theorem size_layOut (arena : Arena) (start : Nat) (ids : List InstrId) :
    (arena.layOut start ids).size = arena.size := by
  induction ids generalizing arena start with
  | nil => rfl
  | cons first rest ih =>
      rw [layOut]
      split
      · exact ih arena start
      · rw [ih, size_update]

/-- Every instruction of an order starts where those before it end. -/
def LaidOut (arena : Arena) (order : List InstrId) : Prop :=
  ∀ front id back, order = front ++ id :: back → arena.offsetOf id = arena.span front

theorem LaidOut.of_append (laidOut : arena.LaidOut (front ++ back)) : arena.LaidOut front := by
  intro before id behind split
  exact laidOut before id (behind ++ back) (by simp [split])

/-- Code that is laid out goes on with code that follows it. -/
theorem LaidOut.append (laidOut : arena.LaidOut front)
    (follows : ∀ before id behind, back = before ++ id :: behind →
      arena.offsetOf id = arena.span front + arena.span before) : arena.LaidOut (front ++ back) := by
  intro before id behind split
  rcases List.append_eq_append_iff.mp split with ⟨later, rfl, rest⟩ | ⟨later, rfl, rest⟩
  · rw [span_append]
    exact follows later id behind rest
  · cases later with
    | nil =>
        have first := follows [] id behind rest.symm
        rwa [List.append_nil] at first
    | cons other later =>
        obtain ⟨rfl, -⟩ := List.cons.inj rest
        exact laidOut before id later rfl

/-- Only the sizes and the offsets of the instructions decide whether they are laid out. -/
theorem LaidOut.congr (laidOut : arena.LaidOut order)
    (sizes : ∀ id ∈ order, changed.sizeOf id = arena.sizeOf id)
    (offsets : ∀ id ∈ order, changed.offsetOf id = arena.offsetOf id) : changed.LaidOut order := by
  intro before id behind split
  have room : changed.span before = arena.span before :=
    span_congr (List.forall₂_same.mpr fun id member => sizes id (by simp [split, member]))
  rw [offsets id (by simp [split]), room]
  exact laidOut before id behind split

end Arena

namespace InstructionList

variable {list next : InstructionList} {front back : List InstrId}

/-- The end of the code in front of a position. -/
theorem startOffset_eq (laidOut : list.arena.LaidOut front) (split : list.order = front ++ back)
    (created : ∀ id ∈ front, id.index < list.arena.size) :
    list.startOffset front.length = list.arena.span front := by
  rcases List.eq_nil_or_concat' front with rfl | ⟨init, last, rfl⟩
  · rfl
  · have there : list.at? init.length = some last := by simp [at?, split]
    have inside : last.index < list.arena.size := created last (by simp)
    have offset := laidOut init last [] rfl
    rw [List.length_append, List.length_singleton, startOffset, there, Arena.span_append, ← offset]
    simp [get?, Arena.offsetOf, Arena.span, Arena.sizeOf, Array.getElem?_eq_getElem inside]

/-- To lay out the code from a position on is enough if it is laid out up to there. -/
theorem laidOut_layOutFrom (laidOut : list.arena.LaidOut front)
    (split : list.order = front ++ back) (distinct : list.order.Nodup)
    (created : ∀ id ∈ list.order, id.index < list.arena.size) :
    (list.layOutFrom front.length).arena.LaidOut list.order := by
  have start : list.startOffset front.length = list.arena.span front :=
    startOffset_eq laidOut split fun id member => created id (by simp [split, member])
  have rest : list.order.drop front.length = back := by simp [split]
  have contents := list.arena.contents_layOut (list.arena.span front) back
  rw [layOutFrom, start, rest]
  rw [split] at distinct created ⊢
  obtain ⟨-, distinct, apart⟩ := List.nodup_append.mp distinct
  refine Arena.LaidOut.append (laidOut.congr ?_ fun id member => ?_) fun before id behind part => ?_
  · exact fun id _ => congrFun (Arena.sizeOf_eq_of_contents contents) id
  · exact Arena.offsetOf_layOut_of_notMem fun member' => apart id member id member' rfl
  · subst part
    rw [Arena.span_eq_of_contents contents, Arena.span_eq_of_contents contents]
    exact Arena.offsetOf_layOut distinct
      fun other member => created other (List.mem_append_right front member)

/-- The linked code is laid out from its start. -/
def LaidOut (list : InstructionList) : Prop :=
  list.arena.LaidOut list.order

theorem laidOut_empty : empty.LaidOut := by
  intro front id back split
  simp [empty] at split

/-- A list whose order is new from a position on, and whose offsets up to there are the old ones, is
    laid out again by laying out what is new. -/
theorem LaidOut.relaid (laidOut : list.LaidOut) {old : List InstrId}
    (split : list.order = front ++ old) {arena : Arena}
    (contents : arena.contents = list.arena.contents)
    (offsets : ∀ id ∈ front, arena.offsetOf id = list.arena.offsetOf id)
    (consistent : ({ arena, order := front ++ back : InstructionList }.layOutFrom
      front.length).Consistent) :
    ({ arena, order := front ++ back : InstructionList }.layOutFrom front.length).LaidOut := by
  have whole : list.arena.LaidOut (front ++ old) := by
    rw [← split]
    exact laidOut
  have kept := whole.of_append.congr
    (fun id _ => congrFun (Arena.sizeOf_eq_of_contents contents) id) offsets
  exact laidOut_layOutFrom kept rfl consistent.ordered.nodup fun id member => by
    simpa [layOutFrom] using consistent.created member

theorem Consistent.ne_of_split (consistent : list.Consistent) {id earlier : InstrId}
    (split : list.order = front ++ id :: back) (member : earlier ∈ front) : id ≠ earlier := by
  have distinct := consistent.ordered.nodup
  rw [split] at distinct
  exact ((List.nodup_append.mp distinct).2.2 earlier member id List.mem_cons_self).symm

theorem LaidOut.change (laidOut : list.LaidOut) (consistent : list.Consistent)
    (change : Change list next) : next.LaidOut := by
  have changed := consistent.change change
  cases change with
  | @create code operand checked targets =>
      have old : ∀ id ∈ list.order,
          (list.extend code operand).arena[id.index]? = list.arena[id.index]? := by
        intro id member
        have inside := consistent.created member
        rw [Array.getElem?_eq_getElem inside]
        exact Array.getElem?_push_lt inside
      exact laidOut.congr (fun id member => by rw [Arena.sizeOf, Arena.sizeOf, old id member])
        fun id member => by rw [Arena.offsetOf, Arena.offsetOf, old id member]
  | link free split =>
      exact laidOut.relaid split (by simp [Arena.attach])
        (fun id _ => Arena.offsetOf_attach _ _) changed
  | @swap front back id other free split =>
      refine laidOut.relaid split (by simp [Arena.attach]) (fun earlier member => ?_) changed
      rw [Arena.offsetOf_update_of_ne (consistent.ne_of_split split member), Arena.offsetOf_attach]
  | @unlink front back id split =>
      refine laidOut.relaid split (by simp [Arena.detach]) (fun earlier member => ?_) changed
      exact Arena.offsetOf_detach (consistent.ne_of_split split member) _ _

theorem Reachable.laidOut (reachable : list.Reachable) : list.LaidOut :=
  reachable.induction laidOut_empty fun consistent laidOut change => laidOut.change consistent change

theorem sizeOf_of_get? {id : InstrId} {item : Instruction} (found : list.get? id = some item) :
    list.arena.sizeOf id = item.size := by
  rw [Arena.sizeOf, show list.arena[id.index]? = some item from found, Option.map_some, Option.getD_some]

/-- The offset of a linked instruction is the size of the code in front of its position. -/
theorem Reachable.offset_eq (reachable : list.Reachable) {position : Nat} {id : InstrId}
    {item : Instruction} (linked : list.Linked position id item) :
    item.offset = list.arena.span (list.order.take position) := by
  have offset := reachable.laidOut _ id _ (split_of_at? linked.1).1
  rwa [Arena.offsetOf, show list.arena[id.index]? = some item from linked.2, Option.map_some,
    Option.getD_some] at offset

end InstructionList
end CilProfiler

import CilProfiler.Proofs.Code.Layout
import CilProfiler.Proofs.Code.OperandMatrix

/-! # Offsets

Offsets carry no history. Once it is known which instructions are linked, in which order, and what
they are, there is one way to lay them out: every linked instruction starts where the one before it
ends, and one that is not linked starts nowhere. Edits find these offsets although they look at a part
of the code only, so a layout of the whole code from scratch finds nothing else.
-/

namespace CilProfiler

def Instruction.withoutOffset (item : Instruction) : Instruction :=
  { item with offset := 0 }

theorem Instruction.eq_of_withoutOffset {item item' : Instruction}
    (rest : item.withoutOffset = item'.withoutOffset) (offset : item.offset = item'.offset) :
    item = item' := by
  cases item
  cases item'
  simp only [withoutOffset, mk.injEq] at rest
  simp only [mk.injEq]
  exact ⟨rest.1, rest.2.1, offset, rest.2.2.2⟩

namespace Arena

variable {arena changed : Arena} {order front back : List InstrId} {id other : InstrId} {start : Nat}

/-- The instructions with their offsets forgotten. -/
def withoutOffsets (arena : Arena) : Arena :=
  arena.map (·.withoutOffset)

theorem withoutOffsets_layOut :
    (arena.layOut start order).withoutOffsets = arena.withoutOffsets := by
  induction order generalizing arena start with
  | nil => rfl
  | cons first rest ih =>
      rw [layOut]
      split
      · exact ih
      · rw [ih]
        apply Array.ext_getElem?
        intro i
        simp only [withoutOffsets, update, Array.getElem?_map, Array.getElem?_modify]
        split
        · rw [Option.map_map]
          rfl
        · rfl

theorem withoutOffsets_withoutOffsets : arena.withoutOffsets.withoutOffsets = arena.withoutOffsets :=
  Array.map_map

theorem contents_withoutOffsets : arena.withoutOffsets.contents = arena.contents :=
  Array.map_map

theorem offsetOf_withoutOffsets : arena.withoutOffsets.offsetOf id = 0 := by
  simp only [offsetOf, withoutOffsets, Array.getElem?_map, Option.map_map]
  cases arena[id.index]? <;> rfl

theorem eq_of_offsetOf (rest : changed.withoutOffsets = arena.withoutOffsets)
    (offsets : ∀ id, changed.offsetOf id = arena.offsetOf id) : changed = arena := by
  apply Array.ext_getElem?
  intro i
  have item : changed[i]?.map (·.withoutOffset) = arena[i]?.map (·.withoutOffset) := by
    rw [← Array.getElem?_map, ← Array.getElem?_map]
    exact congrArg (·[i]?) rest
  have offset := offsets ⟨i⟩
  unfold offsetOf at offset
  cases found : changed[i]? with
  | none =>
      rw [found] at item
      exact (Option.map_eq_none_iff.mp item.symm).symm
  | some first =>
      rw [found] at item
      obtain ⟨second, found', same⟩ := Option.map_eq_some_iff.mp item.symm
      rw [found, found'] at offset
      rw [found', Instruction.eq_of_withoutOffset same.symm offset]

theorem span_take_le (arena : Arena) (order : List InstrId) {i j : Nat} (le : i ≤ j) :
    arena.span (order.take i) ≤ arena.span (order.take j) := by
  have split := List.take_append_drop i (order.take j)
  rw [List.take_take, Nat.min_eq_left le] at split
  rw [← split, span_append]
  exact Nat.le_add_right _ _

/-- Offsets tell where linked instructions start, and nothing about the others. -/
structure Positioned (arena : Arena) (order : List InstrId) : Prop where
  laidOut : arena.LaidOut order
  unlinked : ∀ id ∉ order, arena.offsetOf id = 0

/-- All the rest decides about the offsets. -/
theorem Positioned.unique (positioned : arena.Positioned order) (positioned' : changed.Positioned order)
    (rest : changed.withoutOffsets = arena.withoutOffsets) : changed = arena := by
  have contents : changed.contents = arena.contents := by
    rw [← contents_withoutOffsets, rest, contents_withoutOffsets]
  refine eq_of_offsetOf rest fun id => ?_
  by_cases member : id ∈ order
  · obtain ⟨front, back, split⟩ := List.append_of_mem member
    rw [positioned.laidOut front id back split, positioned'.laidOut front id back split,
      span_eq_of_contents contents]
  · rw [positioned.unlinked id member, positioned'.unlinked id member]

end Arena

namespace InstructionList

variable {list next : InstructionList} {front back : List InstrId} {id other new : InstrId}
  {item : Instruction}

/-- The list before any layout. -/
def withoutOffsets (list : InstructionList) : InstructionList :=
  { list with arena := list.arena.withoutOffsets }

theorem offsetOf_layOutFrom {arena : Arena} {order : List InstrId} (absent : other ∉ order) (index : Nat) :
    ({ arena, order : InstructionList }.layOutFrom index).arena.offsetOf other =
      arena.offsetOf other :=
  Arena.offsetOf_layOut_of_notMem fun member => absent (List.mem_of_mem_drop member)

theorem offsetOf_unlink (arena : Arena) (id : InstrId) :
    (arena.update id Instruction.unlink).offsetOf id = 0 := by
  simp only [Arena.offsetOf, Arena.update, Array.getElem?_modify, if_pos, Option.map_map]
  cases arena[id.index]? <;> rfl

theorem offsetOf_linkBetween (absent : other ∉ front ++ id :: back) :
    (list.linkBetween front back id).arena.offsetOf other = list.arena.offsetOf other := by
  rw [linkBetween, offsetOf_layOutFrom absent, Arena.offsetOf_attach]

theorem offsetOf_swapBetween (absent : other ∉ front ++ new :: back) :
    (list.swapBetween front back id new).arena.offsetOf other =
      if id = other then 0 else list.arena.offsetOf other := by
  rw [swapBetween, offsetOf_layOutFrom absent]
  split
  · rename_i same
    rw [same, offsetOf_unlink]
  · rename_i apart
    rw [Arena.offsetOf_update_of_ne apart, Arena.offsetOf_attach]

theorem offsetOf_unlinkBetween (absent : other ∉ front ++ back) :
    (list.unlinkBetween front back id).arena.offsetOf other =
      if id = other then 0 else list.arena.offsetOf other := by
  rw [unlinkBetween, offsetOf_layOutFrom absent]
  split
  · rename_i same
    rw [same, Arena.detach, offsetOf_unlink]
  · rename_i apart
    rw [Arena.offsetOf_detach apart]

/-- Taken out of the order, an instruction takes no other one with it. -/
theorem notMem_of_split (split : list.order = front ++ id :: back) (apart : id ≠ other)
    (absent : other ∉ front ++ back) : other ∉ list.order := by
  rw [split, List.mem_append, List.mem_cons]
  rintro (before | same | behind)
  · exact absent (List.mem_append_left _ before)
  · exact apart same.symm
  · exact absent (List.mem_append_right _ behind)

theorem notMem_append_of_cons (absent : other ∉ front ++ new :: back) : other ∉ front ++ back :=
  fun member => absent
    (List.mem_append.mpr ((List.mem_append.mp member).imp_right (List.mem_cons_of_mem new)))

/-- What is not linked has no place in the code. -/
def Unplaced (list : InstructionList) : Prop :=
  ∀ id ∉ list.order, list.arena.offsetOf id = 0

theorem unplaced_empty : empty.Unplaced := by
  intro id absent
  simp [empty, Arena.offsetOf]

theorem Unplaced.change (unplaced : list.Unplaced) (change : Change list next) : next.Unplaced := by
  intro other absent
  cases change with
  | create checked targets =>
      have old := unplaced other absent
      rw [Arena.offsetOf] at old ⊢
      rw [extend, Array.getElem?_push]
      split
      · rfl
      · exact old
  | link free split =>
      rw [offsetOf_linkBetween absent]
      exact unplaced other (split ▸ notMem_append_of_cons absent)
  | swap free split =>
      rw [offsetOf_swapBetween absent]
      split
      · rfl
      · rename_i apart
        exact unplaced other (notMem_of_split split apart (notMem_append_of_cons absent))
  | unlink split =>
      rw [offsetOf_unlinkBetween absent]
      split
      · rfl
      · rename_i apart
        exact unplaced other (notMem_of_split split apart absent)

theorem Ordered.codeSize_eq (ordered : list.Ordered) : list.codeSize = list.arena.span list.order := by
  suffices every : ∀ ids, (∀ id ∈ ids, id ∈ list.order) →
      (ids.filterMap fun id => (list.get? id).map (id, ·)).foldr (fun entry size => entry.2.size + size) 0 =
        list.arena.span ids from every list.order fun _ => id
  intro ids
  induction ids with
  | nil => exact fun _ => rfl
  | cons first rest ih =>
      intro linked
      obtain ⟨item, found⟩ := ordered.get?_of_mem (linked first List.mem_cons_self)
      rw [List.filterMap_cons_some (by rw [found]; rfl), List.foldr_cons, Arena.span,
        sizeOf_of_get? found, ih fun id member => linked id (List.mem_cons_of_mem _ member)]

theorem Linked.span_take_succ {position : Nat} (linked : list.Linked position id item) :
    list.arena.span (list.order.take (position + 1)) =
      list.arena.span (list.order.take position) + item.size := by
  have there : list.order[position]? = some id := linked.1
  rw [List.take_add_one, there, Option.toList_some, Arena.span_append, Arena.span, Arena.span,
    sizeOf_of_get? linked.2, Nat.add_zero]

namespace Reachable

theorem positioned (reachable : list.Reachable) : list.arena.Positioned list.order where
  laidOut := reachable.laidOut
  unlinked := reachable.induction unplaced_empty fun _ unplaced change => unplaced.change change

/-- To lay out the code once more, from any position on, changes nothing. -/
theorem layOutFrom_eq (reachable : list.Reachable) (index : Nat) : list.layOutFrom index = list := by
  have created : ∀ id ∈ list.order, id.index < list.arena.size :=
    fun id => reachable.consistent.created
  by_cases inside : index ≤ list.order.length
  · have split := (List.take_append_drop index list.order).symm
    have whole : list.arena.LaidOut (list.order.take index ++ list.order.drop index) := by
      rw [← split]
      exact reachable.laidOut
    have laidOut := laidOut_layOutFrom whole.of_append split reachable.ordered.nodup created
    rw [List.length_take_of_le inside] at laidOut
    have unlinked : ∀ id ∉ list.order, (list.layOutFrom index).arena.offsetOf id = 0 := by
      intro id absent
      exact (offsetOf_layOutFrom absent index).trans (reachable.positioned.unlinked id absent)
    have same := reachable.positioned.unique ⟨laidOut, unlinked⟩ Arena.withoutOffsets_layOut
    exact congrArg (mk · list.order) same
  · have nothing : list.order.drop index = [] := List.drop_eq_nil_iff.mpr (by omega)
    rw [layOutFrom, nothing]
    rfl

/-- Offsets that were forgotten are found again. -/
theorem layOutFrom_withoutOffsets (reachable : list.Reachable) :
    list.withoutOffsets.layOutFrom 0 = list := by
  have laidOut : (list.withoutOffsets.layOutFrom 0).arena.LaidOut list.order :=
    laidOut_layOutFrom (fun _ _ _ split => by simp at split) (List.nil_append _).symm
      reachable.ordered.nodup fun id member => by
        simpa [withoutOffsets, Arena.withoutOffsets] using reachable.consistent.created member
  have unlinked : ∀ id ∉ list.order, (list.withoutOffsets.layOutFrom 0).arena.offsetOf id = 0 := by
    intro id absent
    exact (offsetOf_layOutFrom absent 0).trans Arena.offsetOf_withoutOffsets
  have same := reachable.positioned.unique ⟨laidOut, unlinked⟩
    (Arena.withoutOffsets_layOut.trans Arena.withoutOffsets_withoutOffsets)
  exact congrArg (mk · list.order) same

/-- A linked instruction ends where the next one starts. -/
theorem end_eq (reachable : list.Reachable) {position : Nat} (linked : list.Linked position id item) :
    item.offset + item.size = list.arena.span (list.order.take (position + 1)) := by
  rw [reachable.offset_eq linked, linked.span_take_succ]

theorem offset_lt (reachable : list.Reachable) {i j : Nat} {item' : Instruction}
    (linked : list.Linked i id item) (linked' : list.Linked j other item') (before : i < j) :
    item.offset < item'.offset := by
  have size : 1 ≤ item.size := Nat.le_add_right_of_le item.code.size_pos
  have behind := list.arena.span_take_le list.order (Nat.succ_le_of_lt before)
  rw [← reachable.end_eq linked, ← reachable.offset_eq linked'] at behind
  omega

theorem codeSize_eq (reachable : list.Reachable) :
    list.codeSize = (list.last?.bind list.get?).elim 0 fun item => item.offset + item.size := by
  rw [reachable.ordered.codeSize_eq]
  cases last : list.last? with
  | none =>
      rw [List.getLast?_eq_none_iff.mp last]
      rfl
  | some id =>
      obtain ⟨item, found⟩ := reachable.ordered.get?_of_mem (List.mem_of_getLast? last)
      have there : list.order[list.order.length - 1]? = some id := by
        rw [← List.getLast?_eq_getElem?]
        exact last
      have linked : list.Linked (list.order.length - 1) id item := ⟨there, found⟩
      have inside := (List.getElem?_eq_some_iff.mp there).1
      have whole : list.order.length - 1 + 1 = list.order.length := by omega
      rw [Option.bind_some, found, Option.elim_some, reachable.end_eq linked, whole, List.take_length]

/-- After any edits, also refused ones, an instruction that is linked starts at the size of the code in
    front of it, so that offsets increase along the code, and one that is not linked has no offset. The
    last instruction ends at the size of the whole code. Offsets that are laid out from the edited
    position only are those of a layout from scratch: one more layout changes none of them, and if all
    are forgotten it finds them again. -/
theorem offsets (reachable : list.Reachable) :
    list.ForallLinked (fun position _ item =>
        item.offset = list.arena.span (list.order.take position)) ∧
      (∀ id item, list.get? id = some item → item.linked = false → item.offset = 0) ∧
      (list.codeSize = (list.last?.bind list.get?).elim 0 fun item => item.offset + item.size) ∧
      (∀ index, list.layOutFrom index = list) ∧
      list.withoutOffsets.layOutFrom 0 = list ∧
      list.ForallLinked fun i _ item => list.ForallLinked fun j _ item' =>
        i < j → item.offset < item'.offset := by
  refine ⟨fun position id item linked => reachable.offset_eq linked,
    fun id item found unlinked => ?_, reachable.codeSize_eq, reachable.layOutFrom_eq,
    reachable.layOutFrom_withoutOffsets,
    fun i id item linked j other item' linked' before => reachable.offset_lt linked linked' before⟩
  have absent : id ∉ list.order := by
    rw [reachable.ordered.mem_iff, Arena.isLinked, show list.arena[id.index]? = some item from found,
      Option.any_some, unlinked]
    exact Bool.false_ne_true
  have offset := reachable.positioned.unlinked id absent
  rwa [Arena.offsetOf, show list.arena[id.index]? = some item from found, Option.map_some,
    Option.getD_some] at offset

end Reachable

/-- Instructions of several sizes: a switch is put in front of what it leads to, the last instruction
    is taken out, one is exchanged for a longer one, and two edits are refused. -/
def resizingHistory : List Edit := [
  .push .ret .none,
  .push .ldcI4S (.int8 (-3)),
  .push .nop .none,
  .create .switch (.switch [⟨0⟩, ⟨1⟩, ⟨0⟩]),
  .create .ldcI8 (.int64 9),
  .insert 0 ⟨3⟩,
  .remove 3,
  .append ⟨0⟩,
  .replace 7 ⟨2⟩,
  .replace 2 ⟨4⟩]

theorem resizingHistory_offsets :
    let list := empty.edits resizingHistory
    list.order = [⟨3⟩, ⟨0⟩, ⟨4⟩] ∧
      list.ForallLinked (fun position _ item =>
        item.offset = list.arena.span (list.order.take position)) ∧
      list.arena.span [⟨3⟩, ⟨0⟩] = 18 ∧ list.codeSize = 27 ∧
      (∀ item, list.get? ⟨1⟩ = some item → item.linked = false → item.offset = 0) ∧
      list.withoutOffsets.layOutFrom 0 = list := by
  intro list
  have reachable : list.Reachable := ⟨resizingHistory, rfl⟩
  obtain ⟨starts, unlinked, -, -, again, -⟩ := reachable.offsets
  exact ⟨by decide +kernel, starts, by decide +kernel, by decide +kernel, unlinked ⟨1⟩, again⟩

end InstructionList
end CilProfiler

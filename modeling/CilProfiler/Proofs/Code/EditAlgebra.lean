import CilProfiler.Proofs.Code.Drafts
import CilProfiler.Proofs.Code.Navigation
import CilProfiler.Proofs.Code.Offsets

/-! # The algebra of edits

Neighbours, marks and offsets of the instructions say nothing that the draft of a list does not say
already. So a list is told by its draft, and laws of edits are laws of operations on the order: two ways
to the same order leave the same list, down to the instructions that are not linked. Replacing repairs
the links by itself, and still does what taking out and putting in would do.
-/

namespace CilProfiler
namespace InstructionList

variable {list other next : InstructionList} {front back : List InstrId} {id new : InstrId} {index : Nat}

/-- All that is kept beside the draft agrees with it. -/
structure Settled (list : InstructionList) : Prop where
  consistent : list.Consistent
  laidOut : list.LaidOut
  unplaced : list.Unplaced

theorem settled_empty : empty.Settled :=
  ⟨consistent_empty, laidOut_empty, unplaced_empty⟩

theorem Consistent.free_iff (consistent : list.Consistent) :
    list.requireUnlinked id = .ok () ↔ list.IsFree id := by
  constructor
  · intro checked
    obtain ⟨created, unlinked⟩ := requireUnlinked_eq_ok checked
    refine consistent.isFree_iff.mpr ⟨created, ?_⟩
    rw [consistent.ordered.mem_iff, unlinked]
    exact Bool.false_ne_true
  · exact fun free => consistent.requireUnlinked_permitted (consistent.linkRefusal?_eq_none.mpr free)

/-- Of an instruction only its offset is not told by the order and the contents. -/
theorem Consistent.withoutOffsets_eq (consistent : list.Consistent) (consistent' : other.Consistent)
    (order : other.order = list.order) (contents : other.contents = list.contents) :
    other.arena.withoutOffsets = list.arena.withoutOffsets := by
  apply Array.ext_getElem?
  intro i
  have content : other.contents[i]? = list.contents[i]? := by rw [contents]
  simp only [InstructionList.contents, Arena.contents, Array.getElem?_map] at content
  rw [Arena.withoutOffsets, Arena.withoutOffsets, Array.getElem?_map, Array.getElem?_map]
  cases found : list.arena[i]? with
  | none =>
      rw [found, Option.map_none, Option.map_eq_none_iff] at content
      rw [content]
  | some item =>
      rw [found, Option.map_some] at content
      obtain ⟨item', found', content⟩ := Option.map_eq_some_iff.mp content
      rw [Prod.mk.injEq] at content
      have here : list.get? ⟨i⟩ = some item := found
      have here' : other.get? ⟨i⟩ = some item' := found'
      have links := (consistent'.links_eq here').trans (order ▸ (consistent.links_eq here).symm)
      have linked : item'.linked = item.linked := by
        rw [Bool.eq_iff_iff, consistent'.linked_iff here', order, consistent.linked_iff here]
      rw [Prod.mk.injEq] at links
      simp [found', Instruction.withoutOffset, content, links, linked]

theorem order_unlinkBetween : (list.unlinkBetween front back id).order = front ++ back :=
  have drafts : (list.unlinkBetween front back id).draft = _ := draft_unlinkBetween
  congrArg Draft.order drafts

theorem order_linkBetween : (list.linkBetween front back id).order = front ++ id :: back :=
  have drafts : (list.linkBetween front back id).draft = _ := draft_linkBetween
  congrArg Draft.order drafts

namespace Settled

theorem change (settled : list.Settled) (change : Change list next) : next.Settled where
  consistent := settled.consistent.change change
  laidOut := settled.laidOut.change settled.consistent change
  unplaced := settled.unplaced.change change

/-- A list is told by its draft. -/
theorem eq_of_draft (settled : list.Settled) (settled' : other.Settled)
    (same : other.draft = list.draft) : other = list := by
  have order : other.order = list.order := congrArg Draft.order same
  have contents : other.contents = list.contents := congrArg Draft.contents same
  have rest := settled.consistent.withoutOffsets_eq settled'.consistent order contents
  have arena : other.arena = list.arena := by
    refine Arena.Positioned.unique ⟨settled.laidOut, settled.unplaced⟩ ⟨?_, ?_⟩ rest
    · exact order ▸ settled'.laidOut
    · exact order ▸ settled'.unplaced
  cases list
  cases other
  simp only at order arena
  rw [order, arena]

/-- What was taken out is free, and so is what was free before. -/
theorem free_unlinkBetween (settled : list.Settled) (split : list.order = front ++ id :: back)
    (created : new.index < list.arena.size) (absent : new ∉ front ++ back) :
    (list.unlinkBetween front back id).requireUnlinked new = .ok () := by
  have drafts : (list.unlinkBetween front back id).draft = _ := draft_unlinkBetween
  have size : (list.unlinkBetween front back id).arena.size = list.arena.size := by
    rw [← size_contents, ← size_contents]
    exact congrArg (·.contents.size) drafts
  have taken := settled.change (.unlink split)
  rw [taken.consistent.free_iff, taken.consistent.isFree_iff, size, order_unlinkBetween]
  exact ⟨created, absent⟩

/-- Taking out an instruction and putting another one into the gap replaces it. -/
theorem unlink_link (settled : list.Settled) (split : list.order = front ++ id :: back)
    (free : list.requireUnlinked new = .ok ()) :
    (list.unlinkBetween front back id).linkBetween front back new =
      list.swapBetween front back id new := by
  have absent : new ∉ front ++ back :=
    notMem_append_of_cons (split ▸ settled.consistent.notMem_of_free free)
  have gap := settled.free_unlinkBetween split (requireUnlinked_eq_ok free).1 absent
  have drafts : (list.unlinkBetween front back id).draft = _ := draft_unlinkBetween
  refine (settled.change (.swap free split)).eq_of_draft ?_ ?_
  · exact (settled.change (.unlink split)).change (.link gap order_unlinkBetween)
  · rw [draft_linkBetween, drafts, draft_swapBetween]

/-- Taking out an instruction is undone by putting it into the gap again. -/
theorem unlink_relink (settled : list.Settled) (split : list.order = front ++ id :: back) :
    (list.unlinkBetween front back id).requireUnlinked id = .ok () ∧
      (list.unlinkBetween front back id).linkBetween front back id = list := by
  have member : id ∈ list.order := by simp [split]
  have distinct := settled.consistent.ordered.nodup
  rw [split] at distinct
  have absent := (List.nodup_cons.mp (List.perm_middle.nodup_iff.mp distinct)).1
  have gap := settled.free_unlinkBetween split (settled.consistent.created member) absent
  have drafts : (list.unlinkBetween front back id).draft = _ := draft_unlinkBetween
  refine ⟨gap, settled.eq_of_draft ?_ ?_⟩
  · exact (settled.change (.unlink split)).change (.link gap order_unlinkBetween)
  · rw [draft_linkBetween, drafts, ← split]
    rfl

/-- Putting in an instruction is undone by taking it out. -/
theorem link_unlink (settled : list.Settled) (split : list.order = front ++ back)
    (free : list.requireUnlinked id = .ok ()) :
    (list.linkBetween front back id).unlinkBetween front back id = list := by
  have drafts : (list.linkBetween front back id).draft = _ := draft_linkBetween
  refine settled.eq_of_draft ?_ ?_
  · exact (settled.change (.link free split)).change (.unlink order_linkBetween)
  · rw [draft_unlinkBetween, drafts, ← split]
    rfl

end Settled

theorem Reachable.settled (reachable : list.Reachable) : list.Settled :=
  reachable.induction settled_empty fun _ settled change => settled.change change

theorem insert_length (list : InstructionList) (id : InstrId) :
    list.insert list.length id = list.append id := by
  have none : list.at? list.length = none := List.getElem?_eq_none (Nat.le_refl _)
  simp only [insert, append, none, Nat.lt_irrefl, if_false]
  cases list.requireUnlinked id <;> rfl

/-- After any edits, replacing an instruction by a free one leaves what taking it out and putting the
    free one in its place leaves, and returns the same instruction. Taking an instruction out and
    putting it back changes nothing at all, nor does putting a free one in and taking it out again. At
    the end of the code, inserting is appending, for any handle. -/
theorem Reachable.edit_algebra (reachable : list.Reachable) :
    (∀ index id, index < list.length → list.IsFree id →
      ∃ old left next, list.at? index = some old ∧ list.remove index = .ok (old, left) ∧
        left.insert index id = .ok next ∧ list.replace index id = .ok (old, next)) ∧
    (∀ index, index < list.length → ∃ old left, list.at? index = some old ∧
      list.remove index = .ok (old, left) ∧ left.insert index old = .ok list) ∧
    (∀ index id, index ≤ list.length → list.IsFree id → ∃ next,
      list.insert index id = .ok next ∧ next.remove index = .ok (id, list)) ∧
    ∀ id, list.insert list.length id = list.append id := by
  have settled := reachable.settled
  have consistent := settled.consistent
  refine ⟨fun index id inside free => ?replaced, fun index inside => ?putBack,
    fun index id within free => ?takenOut, list.insert_length⟩
  case replaced =>
    obtain ⟨old, there⟩ := exists_at? inside
    obtain ⟨split, reached⟩ := split_of_at? there
    have unlinked := consistent.free_iff.mpr free
    have removed := consistent.remove_eq split
    have replaced := consistent.replace_eq unlinked split
    have absent := notMem_append_of_cons (split ▸ consistent.notMem_of_free unlinked)
    have gap := settled.free_unlinkBetween split (requireUnlinked_eq_ok unlinked).1 absent
    have inserted := (consistent.change (.unlink split)).insert_eq gap order_unlinkBetween
    rw [settled.unlink_link split unlinked] at inserted
    rw [reached] at removed replaced inserted
    exact ⟨old, _, _, there, removed, inserted, replaced⟩
  case putBack =>
    obtain ⟨old, there⟩ := exists_at? inside
    obtain ⟨split, reached⟩ := split_of_at? there
    have removed := consistent.remove_eq split
    obtain ⟨gap, again⟩ := settled.unlink_relink split
    have inserted := (consistent.change (.unlink split)).insert_eq gap order_unlinkBetween
    rw [again] at inserted
    rw [reached] at removed inserted
    exact ⟨old, _, there, removed, inserted⟩
  case takenOut =>
    have reached : (list.order.take index).length = index := List.length_take_of_le within
    have split := (List.take_append_drop index list.order).symm
    have unlinked := consistent.free_iff.mpr free
    have inserted := consistent.insert_eq unlinked split
    have removed := (consistent.change (.link unlinked split)).remove_eq order_linkBetween
    rw [settled.link_unlink split unlinked] at removed
    rw [reached] at inserted removed
    exact ⟨_, inserted, removed⟩

/-- Instructions of different sizes, one of which was linked before and was taken out, and a refused
    edit. -/
def exchangeHistory : List Edit := [
  .push .ldcI4 (.int32 7),
  .push .nop .none,
  .push .brS (.target ⟨1⟩),
  .create .ldcI8 (.int64 9),
  .push .ret .none,
  .remove 1,
  .replace 4 ⟨3⟩]

theorem exchangeHistory_edit_algebra :
    let list := empty.edits exchangeHistory
    list.order = [⟨0⟩, ⟨2⟩, ⟨4⟩] ∧
      (∃ left next, list.remove 1 = .ok (⟨2⟩, left) ∧ left.insert 1 ⟨3⟩ = .ok next ∧
        list.replace 1 ⟨3⟩ = .ok (⟨2⟩, next)) ∧
      (∃ left, list.remove 2 = .ok (⟨4⟩, left) ∧ left.insert 2 ⟨4⟩ = .ok list) ∧
      ∃ next, list.insert 0 ⟨1⟩ = .ok next ∧ next.remove 0 = .ok (⟨1⟩, list) := by
  intro list
  have reachable : list.Reachable := ⟨exchangeHistory, rfl⟩
  have order : list.order = [⟨0⟩, ⟨2⟩, ⟨4⟩] := by decide +kernel
  have length : list.length = 3 := congrArg List.length order
  have free (id : InstrId) (fresh : id.index < list.arena.size ∧ id ∉ list.order) : list.IsFree id :=
    reachable.settled.consistent.isFree_iff.mpr fresh
  obtain ⟨replaced, putBack, takenOut, -⟩ := Reachable.edit_algebra reachable
  obtain ⟨_, left, next, there, removed, inserted, exchanged⟩ :=
    replaced 1 ⟨3⟩ (by omega) (free ⟨3⟩ (by decide +kernel))
  obtain rfl := Option.some.inj ((by decide +kernel : list.at? 1 = some ⟨2⟩).symm.trans there)
  obtain ⟨_, left', there', removed', again⟩ := putBack 2 (by omega)
  obtain rfl := Option.some.inj ((by decide +kernel : list.at? 2 = some ⟨4⟩).symm.trans there')
  exact ⟨order, ⟨left, next, removed, inserted, exchanged⟩, ⟨left', removed', again⟩,
    takenOut 0 ⟨1⟩ (Nat.zero_le _) (free ⟨1⟩ (by decide +kernel))⟩

end InstructionList
end CilProfiler

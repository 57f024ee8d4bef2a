import CilProfiler.Proofs.Code.Neighbours
import Mathlib.Logic.Relation

/-! # Changes

Six editing operations make four changes: an instruction is created, it is linked between two parts
of the code order, it is taken out again, or it is exchanged for another one. An accepted edit is
one of these or, for an instruction that is created and appended at once, two; a refused one is
none. What holds of the empty list and is kept by the four changes holds of every list.
-/

namespace CilProfiler
namespace InstructionList

variable {list edited next : InstructionList} {front back : List InstrId} {id other : InstrId}
  {index : Nat} {code : Opcode} {operand : Operand}

/-- The list with an unlinked instruction more. -/
def extend (list : InstructionList) (code : Opcode) (operand : Operand) : InstructionList :=
  { list with arena := list.arena.push { code, operand } }

/-- The list with one more instruction linked, between two parts of the order. -/
def linkBetween (list : InstructionList) (front back : List InstrId) (id : InstrId) :
    InstructionList :=
  { arena := list.arena.attach front.getLast? back.head? id
    order := front ++ id :: back : InstructionList }.layOutFrom front.length

/-- The list without the instruction between two parts of the order. -/
def unlinkBetween (list : InstructionList) (front back : List InstrId) (id : InstrId) :
    InstructionList :=
  { arena := list.arena.detach front.getLast? back.head? id
    order := front ++ back : InstructionList }.layOutFrom front.length

/-- The list with another instruction between two parts of the order. -/
def swapBetween (list : InstructionList) (front back : List InstrId) (id other : InstrId) :
    InstructionList :=
  { arena := (list.arena.attach front.getLast? back.head? other).update id Instruction.unlink
    order := front ++ other :: back : InstructionList }.layOutFrom front.length

/-- Order, marks and neighbours of the instructions say the same. -/
structure Consistent (list : InstructionList) : Prop where
  ordered : list.Ordered
  chained : list.arena.Chained list.order

/-- A position parts the order around the instruction there. -/
theorem split_of_at? (there : list.at? index = some id) :
    list.order = list.order.take index ++ id :: list.order.drop (index + 1) ∧
      (list.order.take index).length = index := by
  obtain ⟨inside, rfl⟩ := List.getElem?_eq_some_iff.mp there
  exact ⟨by rw [List.getElem_cons_drop, List.take_append_drop],
    List.length_take_of_le (Nat.le_of_lt inside)⟩

theorem exists_split_of_requireLinked (located : list.requireLinked index = .ok id) :
    ∃ front back, list.order = front ++ id :: back ∧ front.length = index := by
  obtain ⟨inside, rfl⟩ := requireLinked_eq_ok located
  exact ⟨_, _, split_of_at? (List.getElem?_eq_getElem inside)⟩

theorem requireLinked_of_split (split : list.order = front ++ id :: back) :
    list.requireLinked front.length = .ok id := by
  simp [requireLinked, at?, split]

/-- The links that edits follow from an instruction lead to the ends of the gap it stands in. -/
theorem Consistent.links_of_split (consistent : list.Consistent)
    (split : list.order = front ++ id :: back) :
    (list.get? id).bind (·.previous) = front.getLast? ∧ (list.get? id).bind (·.next) = back.head? := by
  have member : id ∈ list.order := by simp [split]
  obtain ⟨item, found⟩ := consistent.ordered.get?_of_mem member
  have pair : list.arena.neighbours? id = some (item.previous, item.next) := by
    rw [Arena.neighbours?, show list.arena[id.index]? = some item from found, Option.map_some]
  have known := consistent.chained id _ pair
  have distinct := split ▸ consistent.ordered.nodup
  rw [split, neighboursIn_append_cons distinct, if_pos rfl, Prod.mk.injEq] at known
  rw [found]
  exact known

theorem create_eq (checked : operand.check code = .ok ())
    (targets : ∀ target ∈ operand.targets, target.index < list.arena.size) :
    list.create code operand = .ok (⟨list.arena.size⟩, list.extend code operand) := by
  have known : operand.targets.find? (list.arena.size ≤ ·.index) = none := by
    simpa [List.find?_eq_none] using targets
  rw [create, checked]
  simp only [Except.bind, bind, known]
  rfl

theorem create_eq_ok (done : list.create code operand = .ok (id, edited)) :
    operand.check code = .ok () ∧
      (∀ target ∈ operand.targets, target.index < list.arena.size) ∧
      id = ⟨list.arena.size⟩ ∧ edited = list.extend code operand := by
  obtain ⟨_, checked, done⟩ := Outcome.bind_eq_ok.mp done
  split at done
  · cases done
  · rename_i known
    cases done
    exact ⟨checked, by simpa [List.find?_eq_none] using known, rfl, rfl⟩

theorem append_eq (free : list.requireUnlinked id = .ok ()) :
    list.append id = .ok (list.linkBetween list.order [] id) := by
  rw [append, free]
  rfl

theorem insertIdx_length_append {α : Type} (front back : List α) (item : α) :
    (front ++ back).insertIdx front.length item = front ++ item :: back := by
  induction front with
  | nil => rfl
  | cons first rest ih => rw [List.cons_append, List.length_cons, List.insertIdx_succ_cons, ih,
      List.cons_append]

theorem Consistent.insert_eq (consistent : list.Consistent) (free : list.requireUnlinked id = .ok ())
    (split : list.order = front ++ back) :
    list.insert front.length id = .ok (list.linkBetween front back id) := by
  have inside : ¬list.length < front.length := by simp [length, split]
  rw [insert, free]
  simp only [Except.bind, bind, if_neg inside]
  cases back with
  | nil =>
      have last : list.at? front.length = none := by simp [at?, split]
      rw [last, append_eq free, split, List.append_nil]
  | cons current rest =>
      have there : list.at? front.length = some current := by simp [at?, split]
      have placed : list.order.insertIdx front.length id = front ++ id :: current :: rest := by
        rw [split, insertIdx_length_append]
      rw [there]
      simp only [(consistent.links_of_split split).1, placed]
      rfl

theorem Consistent.replace_eq (consistent : list.Consistent)
    (free : list.requireUnlinked other = .ok ()) (split : list.order = front ++ id :: back) :
    list.replace front.length other = .ok (id, list.swapBetween front back id other) := by
  have placed : list.order.set front.length other = front ++ other :: back := by simp [split]
  obtain ⟨previous, next⟩ := consistent.links_of_split split
  rw [replace, free, requireLinked_of_split split]
  simp only [Except.bind, bind, previous, next, placed]
  rfl

theorem Consistent.remove_eq (consistent : list.Consistent)
    (split : list.order = front ++ id :: back) :
    list.remove front.length = .ok (id, list.unlinkBetween front back id) := by
  have placed : list.order.eraseIdx front.length = front ++ back := by
    rw [split, List.eraseIdx_append_of_length_le (Nat.le_refl _)]
    simp
  obtain ⟨previous, next⟩ := consistent.links_of_split split
  rw [remove, requireLinked_of_split split]
  simp only [Except.bind, bind, previous, next, placed]
  rfl

inductive Change (list : InstructionList) : InstructionList → Prop where
  | create {code : Opcode} {operand : Operand} (checked : operand.check code = .ok ())
      (targets : ∀ target ∈ operand.targets, target.index < list.arena.size) :
      Change list (list.extend code operand)
  | link {front back : List InstrId} {id : InstrId} (free : list.requireUnlinked id = .ok ())
      (split : list.order = front ++ back) : Change list (list.linkBetween front back id)
  | swap {front back : List InstrId} {id other : InstrId}
      (free : list.requireUnlinked other = .ok ()) (split : list.order = front ++ id :: back) :
      Change list (list.swapBetween front back id other)
  | unlink {front back : List InstrId} {id : InstrId} (split : list.order = front ++ id :: back) :
      Change list (list.unlinkBetween front back id)

theorem change_of_create (done : list.create code operand = .ok (id, edited)) :
    Change list edited := by
  obtain ⟨checked, targets, -, rfl⟩ := create_eq_ok done
  exact .create checked targets

theorem change_of_append (done : list.append id = .ok edited) : Change list edited := by
  obtain ⟨_, free, -⟩ := Outcome.bind_eq_ok.mp done
  rw [append_eq free] at done
  cases done
  exact .link free (List.append_nil _).symm

namespace Consistent

theorem change_of_insert (consistent : list.Consistent) (done : list.insert index id = .ok edited) :
    Change list edited := by
  obtain ⟨_, free, rest⟩ := Outcome.bind_eq_ok.mp done
  split at rest
  · cases rest
  · rename_i inside
    have reached : (list.order.take index).length = index :=
      List.length_take_of_le (Nat.le_of_not_lt inside)
    have split := (List.take_append_drop index list.order).symm
    have made := consistent.insert_eq free split
    rw [reached, done] at made
    cases made
    exact .link free split

theorem change_of_replace (consistent : list.Consistent)
    (done : list.replace index other = .ok (id, edited)) : Change list edited := by
  obtain ⟨_, free, rest⟩ := Outcome.bind_eq_ok.mp done
  obtain ⟨current, located, -⟩ := Outcome.bind_eq_ok.mp rest
  obtain ⟨front, back, split, rfl⟩ := exists_split_of_requireLinked located
  rw [consistent.replace_eq free split] at done
  cases done
  exact .swap free split

theorem change_of_remove (consistent : list.Consistent)
    (done : list.remove index = .ok (id, edited)) : Change list edited := by
  obtain ⟨current, located, -⟩ := Outcome.bind_eq_ok.mp done
  obtain ⟨front, back, split, rfl⟩ := exists_split_of_requireLinked located
  rw [consistent.remove_eq split] at done
  cases done
  exact .unlink split

/-- An edit is made of changes, at most two of them. -/
theorem changes (consistent : list.Consistent) (edit : Edit) :
    Relation.ReflTransGen Change list (list.edit edit) := by
  unfold InstructionList.edit
  split
  · rename_i edited done
    cases edit with
    | create code operand =>
        obtain ⟨⟨id, edited⟩, made, rfl⟩ := Outcome.map_eq_ok.mp done
        exact .single (change_of_create made)
    | push code operand =>
        obtain ⟨⟨id, edited⟩, made, rfl⟩ := Outcome.map_eq_ok.mp done
        obtain ⟨⟨created, extended⟩, first, rest⟩ := Outcome.bind_eq_ok.mp made
        obtain ⟨_, second, rest⟩ := Outcome.bind_eq_ok.mp rest
        cases rest
        exact .tail (.single (change_of_create first)) (change_of_append second)
    | append id => exact .single (change_of_append done)
    | insert index id => exact .single (consistent.change_of_insert done)
    | replace index id =>
        obtain ⟨⟨replaced, edited⟩, made, rfl⟩ := Outcome.map_eq_ok.mp done
        exact .single (consistent.change_of_replace made)
    | remove index =>
        obtain ⟨⟨removed, edited⟩, made, rfl⟩ := Outcome.map_eq_ok.mp done
        exact .single (consistent.change_of_remove made)
  · exact .refl

theorem created (consistent : list.Consistent) (member : id ∈ list.order) :
    id.index < list.arena.size := by
  obtain ⟨item, found⟩ := consistent.ordered.get?_of_mem member
  exact (Array.getElem?_eq_some_iff.mp found).1

theorem notMem_of_free (consistent : list.Consistent) (free : list.requireUnlinked id = .ok ()) :
    id ∉ list.order := by
  obtain ⟨-, unlinked⟩ := requireUnlinked_eq_ok free
  rw [consistent.ordered.mem_iff, unlinked]
  exact Bool.false_ne_true

theorem chained_layOutFrom (chained : list.arena.Chained list.order)
    (index : Nat) : (list.layOutFrom index).arena.Chained list.order :=
  chained.of_neighbours?_eq (Arena.neighbours?_layOut _ _ _)

theorem change (consistent : list.Consistent) (change : Change list next) : next.Consistent := by
  cases change with
  | create checked targets =>
      refine ⟨consistent.ordered.create (create_eq checked targets), ?_⟩
      exact consistent.chained.push _ _ fun id => consistent.created
  | link free split =>
      have ordered := consistent.ordered.insert (consistent.insert_eq free split)
      refine ⟨ordered, ?_⟩
      exact chained_layOutFrom ((split ▸ consistent.chained).attach ordered.nodup) _
  | swap free split =>
      refine ⟨consistent.ordered.replace (consistent.replace_eq free split), ?_⟩
      have fresh := split ▸ consistent.notMem_of_free free
      exact chained_layOutFrom
        ((split ▸ consistent.chained).swap (split ▸ consistent.ordered.nodup) fresh) _
  | unlink split =>
      refine ⟨consistent.ordered.remove (consistent.remove_eq split), ?_⟩
      exact chained_layOutFrom
        ((split ▸ consistent.chained).detach (split ▸ consistent.ordered.nodup)) _

theorem changed (consistent : list.Consistent) (changes : Relation.ReflTransGen Change list next) :
    next.Consistent := by
  induction changes with
  | refl => exact consistent
  | tail _ last ih => exact ih.change last

end Consistent

theorem consistent_empty : empty.Consistent where
  ordered := ordered_empty
  chained id pair found := by
    simp [Arena.neighbours?, empty] at found

/-- Every list comes from the empty one by changes. -/
theorem Reachable.changes (reachable : list.Reachable) : Relation.ReflTransGen Change empty list := by
  obtain ⟨history, rfl⟩ := reachable
  suffices every : ∀ start : InstructionList, start.Consistent →
      Relation.ReflTransGen Change start (start.edits history) from every empty consistent_empty
  induction history with
  | nil => exact fun start _ => .refl
  | cons first rest ih =>
      intro start consistent
      have step := consistent.changes first
      exact step.trans (ih _ (consistent.changed step))

theorem Reachable.consistent (reachable : list.Reachable) : list.Consistent :=
  consistent_empty.changed reachable.changes

/-- What holds of the empty list and is kept by every change holds of every list. -/
theorem Reachable.induction {motive : InstructionList → Prop} (start : motive empty)
    (change : ∀ {list next}, list.Consistent → motive list → Change list next → motive next)
    (reachable : list.Reachable) : motive list := by
  suffices both : list.Consistent ∧ motive list from both.2
  have changes := reachable.changes
  clear reachable
  induction changes with
  | refl => exact ⟨consistent_empty, start⟩
  | tail _ last ih => exact ⟨ih.1.change last, change ih.1 ih.2 last⟩

end InstructionList
end CilProfiler

import CilProfiler.Proofs.Code.Edits

/-! # Neighbours

A linked instruction knows the instructions next to it. What it knows is what the code order says,
whatever edits have come before: each edit relinks the two ends of the gap it opens or closes, and
nobody else has a neighbour there. Both directions are one: the instruction in front of another one
is the one behind it in the reversed order.
-/

namespace CilProfiler

/-- The instruction behind another one in an order; none behind the last one, and none for an
    instruction that the order does not name. -/
def behind? : List InstrId → InstrId → Option InstrId
  | [], _ => none
  | first :: rest, id => if first = id then rest.head? else behind? rest id

/-- The instructions in front of another one and behind it. -/
def neighboursIn (order : List InstrId) (id : InstrId) : Option InstrId × Option InstrId :=
  (behind? order.reverse id, behind? order id)

section Order

variable {front back order : List InstrId} {id other : InstrId}

theorem behind?_of_notMem (absent : id ∉ order) : behind? order id = none := by
  induction order with
  | nil => rfl
  | cons first rest ih =>
      rw [List.mem_cons, not_or] at absent
      rw [behind?, if_neg (Ne.symm absent.1), ih absent.2]

theorem neighboursIn_of_notMem (absent : id ∉ order) : neighboursIn order id = (none, none) := by
  rw [neighboursIn, behind?_of_notMem absent, behind?_of_notMem (by simpa using absent)]

/-- What is behind whom once an instruction stands in the middle of an order. -/
theorem behind?_append_cons (distinct : (front ++ id :: back).Nodup) (other : InstrId) :
    behind? (front ++ id :: back) other =
      if other = id then back.head?
      else if front.getLast? = some other then some id
      else behind? (front ++ back) other := by
  induction front with
  | nil =>
      rw [List.nil_append, behind?]
      simp only [List.getLast?_nil, reduceCtorEq, if_false, List.nil_append, eq_comm]
  | cons first rest ih =>
      rw [List.cons_append, List.nodup_cons] at distinct
      obtain ⟨absent, distinct⟩ := distinct
      have apart : first ≠ id := fun same => absent (by simp [same])
      rw [List.cons_append, List.cons_append, behind?, behind?, ih distinct]
      cases rest with
      | nil => grind [behind?]
      | cons second rest => grind [behind?]

/-- Only the ends of the gap that an instruction stands in see it. -/
theorem neighboursIn_append_cons (distinct : (front ++ id :: back).Nodup) (other : InstrId) :
    neighboursIn (front ++ id :: back) other =
      if other = id then (front.getLast?, back.head?)
      else
        (if back.head? = some other then some id else behind? (front ++ back).reverse other,
          if front.getLast? = some other then some id else behind? (front ++ back) other) := by
  have turned : (front ++ id :: back).reverse = back.reverse ++ id :: front.reverse := by simp
  have distinct' : (back.reverse ++ id :: front.reverse).Nodup :=
    turned ▸ (List.reverse_perm _).nodup_iff.mpr distinct
  rw [neighboursIn, turned, behind?_append_cons distinct, behind?_append_cons distinct',
    List.getLast?_reverse, List.head?_reverse, List.reverse_append]
  split <;> rfl

/-- Where two parts of an order meet, the ends of the parts are neighbours. -/
theorem behind?_append (distinct : (front ++ back).Nodup) (last : front.getLast? = some id) :
    behind? (front ++ back) id = back.head? := by
  obtain ⟨init, rfl⟩ := List.getLast?_eq_some_iff.mp last
  rw [List.append_assoc, List.singleton_append] at distinct ⊢
  rw [behind?_append_cons distinct, if_pos rfl]

theorem behind?_reverse_append (distinct : (front ++ back).Nodup) (first : back.head? = some id) :
    behind? (front ++ back).reverse id = front.getLast? := by
  have distinct' : (back.reverse ++ front.reverse).Nodup :=
    List.reverse_append ▸ (List.reverse_perm _).nodup_iff.mpr distinct
  rw [List.reverse_append, behind?_append distinct' (by rwa [List.getLast?_reverse]),
    List.head?_reverse]

end Order

namespace Arena

variable {arena : Arena} {front back order : List InstrId} {id other : InstrId}

/-- What an instruction knows of its neighbours. -/
def neighbours? (arena : Arena) (id : InstrId) : Option (Option InstrId × Option InstrId) :=
  arena[id.index]?.map fun item => (item.previous, item.next)

theorem neighbours?_update {change : Instruction → Instruction}
    (convert : Option InstrId × Option InstrId → Option InstrId × Option InstrId)
    (links : ∀ item, ((change item).previous, (change item).next) =
      convert (item.previous, item.next)) :
    (arena.update id change).neighbours? other =
      (arena.neighbours? other).map fun pair => if id = other then convert pair else pair := by
  cases id
  cases other
  simp only [neighbours?, update, Array.getElem?_modify, InstrId.mk.injEq, Option.map_map]
  split
  · simp only [Option.map_map, Function.comp_def, links]
  · rfl

theorem neighbours?_update_of_same {change : Instruction → Instruction}
    (same : ∀ item, ((change item).previous, (change item).next) = (item.previous, item.next)) :
    (arena.update id change).neighbours? = arena.neighbours? := by
  funext other
  rw [neighbours?_update (fun pair => pair) same]
  simp

theorem neighbours?_setNext (target next : Option InstrId) :
    (arena.setNext target next).neighbours? other =
      (arena.neighbours? other).map fun pair =>
        (pair.1, if target = some other then next else pair.2) := by
  cases target with
  | none => simp [setNext]
  | some id =>
      rw [setNext, neighbours?_update (fun pair => (pair.1, next)) fun _ => rfl]
      congr! 2 with pair
      split <;> simp [*]

theorem neighbours?_setPrevious (target previous : Option InstrId) :
    (arena.setPrevious target previous).neighbours? other =
      (arena.neighbours? other).map fun pair =>
        (if target = some other then previous else pair.1, pair.2) := by
  cases target with
  | none => simp [setPrevious]
  | some id =>
      rw [setPrevious, neighbours?_update (fun pair => (previous, pair.2)) fun _ => rfl]
      congr! 2 with pair
      split <;> simp [*]

theorem neighbours?_link (previous next : Option InstrId) :
    (arena.update id (Instruction.link previous next)).neighbours? other =
      (arena.neighbours? other).map fun pair => if id = other then (previous, next) else pair :=
  neighbours?_update _ fun _ => rfl

theorem neighbours?_unlink :
    (arena.update id Instruction.unlink).neighbours? other =
      (arena.neighbours? other).map fun pair => if id = other then (none, none) else pair :=
  neighbours?_update _ fun _ => rfl

@[simp] theorem neighbours?_layOut (arena : Arena) (offset : Nat) (ids : List InstrId) :
    (arena.layOut offset ids).neighbours? = arena.neighbours? := by
  induction ids generalizing arena offset with
  | nil => rfl
  | cons first rest ih =>
      simp only [layOut]
      split
      · exact ih arena offset
      · exact (ih _ _).trans (neighbours?_update_of_same fun _ => rfl)

/-- Relink a gap with an instruction in it. -/
def attach (arena : Arena) (previous next : Option InstrId) (id : InstrId) : Arena :=
  ((arena.setNext previous (some id)).setPrevious next (some id)).update id
    (Instruction.link previous next)

/-- Relink a gap without the instruction that was in it. -/
def detach (arena : Arena) (previous next : Option InstrId) (id : InstrId) : Arena :=
  ((arena.setNext previous next).setPrevious next previous).update id Instruction.unlink

theorem neighbours?_attach (previous next : Option InstrId) :
    (arena.attach previous next id).neighbours? other =
      (arena.neighbours? other).map fun pair =>
        if other = id then (previous, next)
        else (if next = some other then some id else pair.1,
          if previous = some other then some id else pair.2) := by
  rw [attach, neighbours?_link, neighbours?_setPrevious, neighbours?_setNext, Option.map_map,
    Option.map_map]
  simp only [Function.comp_def, eq_comm]

theorem neighbours?_detach (previous next : Option InstrId) :
    (arena.detach previous next id).neighbours? other =
      (arena.neighbours? other).map fun pair =>
        if other = id then (none, none)
        else (if next = some other then previous else pair.1,
          if previous = some other then next else pair.2) := by
  rw [detach, neighbours?_unlink, neighbours?_setPrevious, neighbours?_setNext, Option.map_map,
    Option.map_map]
  simp only [Function.comp_def, eq_comm]

/-- Every instruction knows the neighbours that the order gives it, and none if it has none. -/
def Chained (arena : Arena) (order : List InstrId) : Prop :=
  ∀ id pair, arena.neighbours? id = some pair → pair = neighboursIn order id

namespace Chained

theorem of_neighbours?_eq {changed : Arena} (chained : arena.Chained order)
    (same : changed.neighbours? = arena.neighbours?) : changed.Chained order := by
  intro id pair found
  exact chained id pair (same ▸ found)

theorem attach (chained : arena.Chained (front ++ back)) (distinct : (front ++ id :: back).Nodup) :
    (arena.attach front.getLast? back.head? id).Chained (front ++ id :: back) := by
  intro other pair found
  rw [neighbours?_attach] at found
  obtain ⟨old, before, rfl⟩ := Option.map_eq_some_iff.mp found
  rw [neighboursIn_append_cons distinct, chained other old before]
  rfl

theorem detach (chained : arena.Chained (front ++ id :: back))
    (distinct : (front ++ id :: back).Nodup) :
    (arena.detach front.getLast? back.head? id).Chained (front ++ back) := by
  intro other pair found
  rw [neighbours?_detach] at found
  obtain ⟨old, before, rfl⟩ := Option.map_eq_some_iff.mp found
  have left : (front ++ back).Nodup :=
    distinct.sublist (List.Sublist.append_left (List.sublist_cons_self id back) front)
  rw [chained other old before, neighboursIn_append_cons distinct]
  by_cases same : other = id
  · have absent : id ∉ front ++ back :=
      (List.nodup_cons.mp (List.perm_middle.nodup_iff.mp distinct)).1
    rw [if_pos same, same, neighboursIn_of_notMem absent]
  · rw [if_neg same, if_neg same, neighboursIn]
    congr 1
    · split
      · rename_i first
        exact (behind?_reverse_append left first).symm
      · rfl
    · split
      · rename_i last
        exact (behind?_append left last).symm
      · rfl

/-- To replace an instruction is to take it out and to put the other one into the gap. -/
theorem swap (chained : arena.Chained (front ++ id :: back))
    (distinct : (front ++ id :: back).Nodup) (fresh : other ∉ front ++ id :: back) :
    ((arena.attach front.getLast? back.head? other).update id Instruction.unlink).Chained
      (front ++ other :: back) := by
  obtain ⟨absent, left⟩ := List.nodup_cons.mp (List.perm_middle.nodup_iff.mp distinct)
  have widened : (front ++ other :: back).Nodup := by
    refine List.perm_middle.nodup_iff.mpr (List.nodup_cons.mpr ⟨fun member => fresh ?_, left⟩)
    exact List.mem_append.mpr ((List.mem_append.mp member).imp_right (List.mem_cons_of_mem id))
  refine ((chained.detach distinct).attach widened).of_neighbours?_eq ?_
  have last : front.getLast? ≠ some id := fun last =>
    absent (List.mem_append_left back (List.mem_of_getLast? last))
  have first : back.head? ≠ some id := fun first =>
    absent (List.mem_append_right front (List.mem_of_head? first))
  have apart : id ≠ other := fun same => fresh (by simp [same])
  funext third
  rw [neighbours?_unlink, neighbours?_attach, neighbours?_attach, neighbours?_detach, Option.map_map,
    Option.map_map]
  refine Option.map_congr fun pair _ => ?_
  by_cases same : third = id
  · subst same
    simp [first, last, apart]
  · simp only [Function.comp_apply, if_neg same, if_neg (Ne.symm same)]
    split_ifs <;> rfl

theorem push (chained : arena.Chained order) (code : Opcode) (operand : Operand)
    (created : ∀ id ∈ order, id.index < arena.size) :
    Chained (Array.push arena { code, operand }) order := by
  intro id pair found
  rw [neighbours?, Array.getElem?_push] at found
  split at found
  · rename_i last
    cases found
    refine (neighboursIn_of_notMem fun member => ?_).symm
    exact Nat.lt_irrefl _ (last ▸ created id member)
  · exact chained id pair found

end Chained
end Arena

end CilProfiler

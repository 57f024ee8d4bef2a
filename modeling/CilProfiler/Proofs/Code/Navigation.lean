import CilProfiler.Proofs.Code.Changes

/-! # Navigation

Whoever follows the links of a list sees its code order: from the first instruction onwards, from
the last one backwards, and around every position. An instruction that is not linked leads nowhere
and has no position.
-/

namespace CilProfiler

/-- Following steps from an instruction visits these instructions, one after another, and ends. -/
inductive Walk (step : InstrId → Option InstrId) : Option InstrId → List InstrId → Prop where
  | stop : Walk step none []
  | visit {id : InstrId} {rest : List InstrId} (onwards : Walk step (step id) rest) :
      Walk step (some id) (id :: rest)

theorem Walk.unique {step : InstrId → Option InstrId} {start : Option InstrId}
    {visited other : List InstrId} (walk : Walk step start visited)
    (walk' : Walk step start other) : visited = other := by
  induction walk generalizing other with
  | stop =>
      cases walk'
      rfl
  | visit onwards ih =>
      cases walk' with
      | visit onwards' => rw [ih onwards']

section Order

variable {order : List InstrId} {id : InstrId} {position : Nat}

theorem walk_behind? (distinct : order.Nodup) : Walk (behind? order) order.head? order := by
  suffices every : ∀ back front, order = front ++ back → Walk (behind? order) back.head? back from
    every order [] rfl
  intro back
  induction back with
  | nil => exact fun _ _ => .stop
  | cons id rest ih =>
      intro front split
      have next : behind? order id = rest.head? := by
        rw [split, behind?_append_cons (split ▸ distinct), if_pos rfl]
      exact .visit (next ▸ ih (front ++ [id]) (by simp [split]))

/-- The neighbours of an instruction stand at the positions next to its own. -/
theorem neighboursIn_getElem? (distinct : order.Nodup) (there : order[position]? = some id) :
    neighboursIn order id =
      (if position = 0 then none else order[position - 1]?, order[position + 1]?) := by
  obtain ⟨inside, rfl⟩ := List.getElem?_eq_some_iff.mp there
  have split : order.take position ++ order[position] :: order.drop (position + 1) = order := by
    rw [List.getElem_cons_drop, List.take_append_drop]
  have known := neighboursIn_append_cons (split.symm ▸ distinct) order[position]
  rw [split, if_pos rfl, List.head?_drop, List.getLast?_take] at known
  rw [known]
  have before : order[position - 1]? ≠ none := by
    rw [Ne, List.getElem?_eq_none_iff]
    omega
  cases front : order[position - 1]? with
  | none => exact absurd front before
  | some previous => rfl

end Order

namespace InstructionList

variable {list : InstructionList} {id : InstrId} {item : Instruction} {position : Nat}

/-- The link of an instruction to the one behind it. -/
def next? (list : InstructionList) (id : InstrId) : Option InstrId :=
  (list.get? id).bind (·.next)

/-- The link of an instruction to the one in front of it. -/
def previous? (list : InstructionList) (id : InstrId) : Option InstrId :=
  (list.get? id).bind (·.previous)

namespace Consistent

theorem links_eq (consistent : list.Consistent) (found : list.get? id = some item) :
    (item.previous, item.next) = neighboursIn list.order id := by
  refine consistent.chained id _ ?_
  rw [Arena.neighbours?, show list.arena[id.index]? = some item from found, Option.map_some]

theorem linked_iff (consistent : list.Consistent) (found : list.get? id = some item) :
    item.linked ↔ id ∈ list.order := by
  rw [consistent.ordered.mem_iff, Arena.isLinked,
    show list.arena[id.index]? = some item from found, Option.any_some]

theorem links?_eq (consistent : list.Consistent) (id : InstrId) :
    (list.previous? id, list.next? id) = neighboursIn list.order id := by
  cases found : list.get? id with
  | some item => rw [previous?, next?, found, ← consistent.links_eq found]; rfl
  | none =>
      have absent : id ∉ list.order := by
        intro member
        obtain ⟨item, there⟩ := consistent.ordered.get?_of_mem member
        rw [found] at there
        cases there
      rw [previous?, next?, found, neighboursIn_of_notMem absent]
      rfl

theorem walk_next? (consistent : list.Consistent) : Walk list.next? list.first? list.order := by
  have step : list.next? = behind? list.order :=
    funext fun id => (Prod.mk.inj (consistent.links?_eq id)).2
  rw [step]
  exact walk_behind? consistent.ordered.nodup

theorem walk_previous? (consistent : list.Consistent) :
    Walk list.previous? list.last? list.order.reverse := by
  have step : list.previous? = behind? list.order.reverse :=
    funext fun id => (Prod.mk.inj (consistent.links?_eq id)).1
  rw [step, last?, ← List.head?_reverse]
  exact walk_behind? ((List.reverse_perm _).nodup_iff.mpr consistent.ordered.nodup)

theorem position?_eq_some (consistent : list.Consistent) (there : list.at? position = some id) :
    list.position? id = some position := by
  obtain ⟨inside, rfl⟩ := List.getElem?_eq_some_iff.mp there
  rw [position?, List.findIdx?_eq_some_iff_getElem]
  refine ⟨inside, beq_self_eq_true _, fun earlier before same => ?_⟩
  have equal := (List.getElem_inj consistent.ordered.nodup).mp (eq_of_beq same)
  exact Nat.ne_of_lt before equal

theorem position?_eq_iff (consistent : list.Consistent) (there : list.at? position = some id)
    {other : InstrId} : list.position? other = some position ↔ id = other := by
  constructor
  · intro located
    rw [position?, List.findIdx?_eq_some_iff_getElem] at located
    obtain ⟨inside, same, -⟩ := located
    rw [at?, List.getElem?_eq_getElem inside] at there
    exact (Option.some.inj there).symm.trans (eq_of_beq same)
  · rintro rfl
    exact consistent.position?_eq_some there

end Consistent

theorem lt_length_of_position? (located : list.position? id = some position) :
    position < list.length := by
  rw [position?, List.findIdx?_eq_some_iff_getElem] at located
  exact located.1

theorem position?_eq_none (absent : id ∉ list.order) : list.position? id = none := by
  rw [position?, List.findIdx?_eq_none_iff]
  intro other member
  exact beq_false_of_ne fun same => absent (same ▸ member)

/-- After any edits, the order names each linked instruction once and nothing else, and each of them
    is linked to the instructions at the positions next to its own; the others have no links. The
    links lead through the whole order, in both directions, and end there, and positions are found
    again. -/
theorem Reachable.navigation (reachable : list.Reachable) :
    list.order.Nodup ∧ (∀ id ∈ list.order, id.index < list.arena.size) ∧
      (∀ id item, list.get? id = some item → (item.linked ↔ id ∈ list.order)) ∧
      list.ForallLinked (fun position _ item =>
        item.previous = (if position = 0 then none else list.at? (position - 1)) ∧
          item.next = list.at? (position + 1)) ∧
      (∀ id item, list.get? id = some item → item.linked = false →
        item.previous = none ∧ item.next = none) ∧
      (∀ visited, Walk list.next? list.first? visited ↔ visited = list.order) ∧
      (∀ visited, Walk list.previous? list.last? visited ↔ visited = list.order.reverse) ∧
      (∀ position < list.length, (list.at? position).bind list.position? = some position) ∧
      ∀ id, (∀ item, list.get? id = some item → item.linked = false) → list.position? id = none := by
  have consistent := reachable.consistent
  refine ⟨consistent.ordered.nodup, fun id => consistent.created,
    fun id item => consistent.linked_iff, fun position id item linked => ?_,
    fun id item found unlinked => ?_, fun visited => ?_, fun visited => ?_,
    fun position inside => ?_, fun id unlinked => ?_⟩
  · have links := consistent.links_eq linked.2
    rw [neighboursIn_getElem? consistent.ordered.nodup linked.1, Prod.mk.injEq] at links
    exact links
  · have absent : id ∉ list.order := by
      rw [← consistent.linked_iff found, unlinked]
      exact Bool.false_ne_true
    have links := consistent.links_eq found
    rw [neighboursIn_of_notMem absent, Prod.mk.injEq] at links
    exact links
  · exact ⟨fun walk => walk.unique consistent.walk_next?, fun same => same ▸ consistent.walk_next?⟩
  · exact ⟨fun walk => walk.unique consistent.walk_previous?,
      fun same => same ▸ consistent.walk_previous?⟩
  · obtain ⟨id, there⟩ : ∃ id, list.at? position = some id :=
      ⟨_, List.getElem?_eq_getElem inside⟩
    rw [there, Option.bind_some, consistent.position?_eq_some there]
  · refine position?_eq_none fun member => ?_
    obtain ⟨item, found⟩ := consistent.ordered.get?_of_mem member
    have linked := (consistent.linked_iff found).mpr member
    rw [unlinked item found] at linked
    cases linked

/-- An instruction is exchanged and linked again at the end, another one is taken out, and two edits
    are refused. -/
def rearrangingEdits : List Edit := [
  .push .nop .none,
  .push .pop .none,
  .push .ret .none,
  .create .ldcI4S (.int8 (-1)),
  .replace 1 ⟨3⟩,
  .insert 5 ⟨1⟩,
  .append ⟨1⟩,
  .append ⟨9⟩,
  .remove 0]

theorem rearrangingEdits_navigation :
    let list := empty.edits rearrangingEdits
    list.order = [⟨3⟩, ⟨2⟩, ⟨1⟩] ∧
      Walk list.next? (some ⟨3⟩) [⟨3⟩, ⟨2⟩, ⟨1⟩] ∧ Walk list.previous? (some ⟨1⟩) [⟨1⟩, ⟨2⟩, ⟨3⟩] ∧
      list.position? ⟨2⟩ = some 1 ∧ list.position? ⟨0⟩ = none := by
  intro list
  have order : list.order = [⟨3⟩, ⟨2⟩, ⟨1⟩] := by decide +kernel
  have unlinked : ∀ item, list.get? ⟨0⟩ = some item → item.linked = false := by
    intro item found
    have there : (list.get? ⟨0⟩).map (·.linked) = some false := by decide +kernel
    rw [found] at there
    exact Option.some.inj there
  obtain ⟨-, -, -, -, -, onwards, backwards, found, lost⟩ :=
    Reachable.navigation (⟨rearrangingEdits, rfl⟩ : list.Reachable)
  have forth := (onwards list.order).mpr rfl
  have back := (backwards list.order.reverse).mpr rfl
  have place := found 1 (by rw [length, order]; decide)
  rw [first?, order] at forth
  rw [last?, order] at back
  rw [at?, order] at place
  exact ⟨order, forth, back, place, lost ⟨0⟩ unlinked⟩

end InstructionList
end CilProfiler

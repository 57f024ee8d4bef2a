import CilProfiler.Counter
import CilProfiler.Proofs.Trace.SlotLayout
import Mathlib.Data.Nat.ModEq
import Mathlib.Order.Lattice.Nat

/-! # Growth of slot tables

A table that has no slot for a handle tries one length after the other, with no last one to stop at.
The search ends all the same, and not far away: two handles share a slot only if the length divides
their difference, so that any length above the largest difference keeps all of them apart. A counter
of 64 bits is wide enough for that.
-/

namespace CilProfiler
namespace SlotTable

variable {α : Type} {table : SlotTable α} {handle : Handle} {advance other : Nat → Nat}
  {keys : List Nat} {length last width : Nat}

/-- A search from a length on, and the length that it ends at: the counter is advanced, and the
    search goes on as long as some keys share a slot. -/
inductive Search (advance : Nat → Nat) (keys : List Nat) : Nat → Nat → Prop where
  | found {length : Nat} (apart : separates (advance length) keys = true) :
      Search advance keys length (advance length)
  | later {length last : Nat} (shared : separates (advance length) keys = false)
      (rest : Search advance keys (advance length) last) : Search advance keys length last

/-- A counter of 64 bits, which starts anew behind its last number. -/
def countOn (length : Nat) : Nat :=
  (length + 1) % Count.bound

/-- The search passes over the lengths at which keys share a slot, and over no other one. -/
theorem Search.isLeast (search : Search (· + 1) keys length last) :
    IsLeast {width | length < width ∧ (keys.map (· % width)).Nodup} last := by
  induction search with
  | @found length apart =>
      exact ⟨⟨Nat.lt_succ_self length, (separates_iff (Nat.succ_pos length) keys).mp apart⟩,
        fun width wide => wide.1⟩
  | @later length last shared rest ih =>
      refine ⟨⟨Nat.lt_of_succ_lt ih.1.1, ih.1.2⟩, fun width ⟨wide, apart⟩ => ?_⟩
      rcases Nat.eq_or_lt_of_le (Nat.succ_le_of_lt wide) with rfl | wider
      · rw [(separates_iff (Nat.succ_pos length) keys).mpr apart] at shared
        cases shared
      · exact ih.2 ⟨wider, apart⟩

/-- Two counters that agree up to the end of a search come to the same end. -/
theorem Search.congr (search : Search (· + 1) keys length last)
    (same : ∀ width, width < last → other width = width + 1) : Search other keys length last := by
  induction search with
  | @found length apart =>
      have next := same length (Nat.lt_succ_self length)
      rw [← next] at apart ⊢
      exact .found apart
  | @later length last shared rest ih =>
      have next := same length (Nat.lt_of_succ_lt rest.isLeast.1.1)
      refine .later (next ▸ shared) ?_
      rw [next]
      exact ih same

/-- Keys that differ are separated above all of them at the latest, so that the search ends. -/
theorem search_separatingLength {bound : Nat} (nodup : keys.Nodup) (below : ∀ key ∈ keys, key < bound)
    (length : Nat) : Search (· + 1) keys length (separatingLength keys bound (length + 1)) := by
  by_cases apart : separates (length + 1) keys = true
  · rw [separatingLength, if_pos (.inr apart)]
    exact .found apart
  · have inside : length + 1 < bound := by
      by_contra above
      refine apart ((separates_iff (Nat.succ_pos length) keys).mpr ?_)
      have same : keys.map (· % (length + 1)) = keys.map id := List.map_congr_left fun key member =>
        Nat.mod_eq_of_lt (Nat.lt_of_lt_of_le (below key member) (Nat.not_lt.mp above))
      rwa [same, List.map_id]
    rw [separatingLength, if_neg (not_or.mpr ⟨Nat.not_le.mpr inside, apart⟩)]
    exact .later (Bool.eq_false_iff.mpr apart) (search_separatingLength nodup below (length + 1))
termination_by bound - length

theorem Placed.search_grownWidth (placed : table.Placed) (absent : table.get? handle = none) :
    Search (· + 1) (table.growthKeys handle) table.width (table.grownWidth handle) :=
  search_separatingLength (placed.nodup_growthKeys absent)
    (fun _ member => lt_of_mem_growthKeys member) table.width

/-- The table grows to the smallest longer length at which all of the handles are apart. -/
theorem Placed.isLeast_grownWidth (placed : table.Placed) (absent : table.get? handle = none) :
    IsLeast {width | table.width < width ∧ KeptApart (insert handle table.stored) width}
      (table.grownWidth handle) := by
  simp only [placed.keptApart_insert_iff absent]
  exact (placed.search_grownWidth absent).isLeast

section Spread

variable {handles : Set Handle} {first second : Handle} {spread : Nat}

/-- How far the handles are from each other. -/
def differences (handles : Set Handle) : Set Nat :=
  {difference | ∃ first ∈ handles, ∃ second ∈ handles, first.raw - second.raw = difference}

theorem lt_bound_of_mem_differences (member : spread ∈ differences handles) :
    spread + 1 < Count.bound := by
  obtain ⟨first, _, second, _, rfl⟩ := member
  have below : first.raw < Count.bound := first.raw_lt
  have above := first.raw_pos
  have above' := second.raw_pos
  omega

/-- Two of the handles are further from each other than any others. -/
theorem exists_isGreatest_differences (member : handle ∈ handles) :
    ∃ spread, IsGreatest (differences handles) spread := by
  have filled : (differences handles).Nonempty := ⟨_, handle, member, handle, member, rfl⟩
  have bounded : BddAbove (differences handles) :=
    ⟨Count.bound, fun _ there => Nat.le_of_lt (Nat.lt_of_succ_lt (lt_bound_of_mem_differences there))⟩
  exact ⟨_, Nat.sSup_mem filled bounded, fun _ there => le_csSup bounded there⟩

/-- Two numbers with one remainder are a whole length from each other at least. -/
theorem le_difference_of_shared (shared : first.raw % width = second.raw % width)
    (before : first.raw < second.raw) : width ≤ second.raw - first.raw :=
  Nat.le_of_dvd (Nat.sub_pos_of_lt before)
    ((Nat.modEq_iff_dvd' (Nat.le_of_lt before)).mp shared)

theorem keptApart_of_spread_lt (greatest : IsGreatest (differences handles) spread)
    (wide : spread < width) : KeptApart handles width := by
  intro first member second member' different shared
  rcases Nat.lt_trichotomy first.raw second.raw with before | same | behind
  · have far := le_difference_of_shared shared before
    have near := greatest.2 ⟨second, member', first, member, rfl⟩
    omega
  · exact different (raw_injective same)
  · have far := le_difference_of_shared shared.symm behind
    have near := greatest.2 ⟨first, member, second, member', rfl⟩
    omega

end Spread

theorem Placed.grownWidth_le (placed : table.Placed) (absent : table.get? handle = none) {spread : Nat}
    (greatest : IsGreatest (differences (insert handle table.stored)) spread) :
    table.grownWidth handle ≤ max (table.width + 1) (spread + 1) :=
  (placed.isLeast_grownWidth absent).2
    ⟨Nat.lt_of_lt_of_le (Nat.lt_succ_self _) (Nat.le_max_left ..),
      keptApart_of_spread_lt greatest (Nat.lt_of_lt_of_le (Nat.lt_succ_self _) (Nat.le_max_right ..))⟩

/-- The slot of the new handle is left for it. -/
theorem Placed.slot?_grow_self (placed : table.Placed) (absent : table.get? handle = none) :
    (table.grow handle).slot? ((table.grow handle).slotIndex handle) = none := by
  rw [Option.eq_none_iff_forall_ne_some]
  rintro ⟨stored, value⟩ there
  obtain rfl := collides_eq_false.mp (placed.collides_grow absent) stored value there
  obtain ⟨_, found⟩ := (placed.slot?_grow absent).mp there
  rw [absent] at found
  cases found

theorem Placed.findOrInsert_of_collides (placed : table.Placed) (collides : table.collides handle = true)
    (initial : α) :
    table.findOrInsert handle initial = ⟨initial, true, (table.grow handle).put handle initial⟩ := by
  rw [placed.findOrInsert_of_none (get?_of_collides collides), SlotTable.roomFor, if_pos collides]

/-- A handle that collides makes any table grow, whatever the requests that brought it there. One pass
    of marks decides whether a length keeps the handles apart. The search ends at the smallest longer
    length that does, which is no further than one more than the largest difference of two handles or
    one more than the old width; so a counter of 64 bits comes there without starting anew. In the grown
    table the slot of the new handle is free, and it is stored there. -/
theorem growth_ends (length : Nat) (requests : List (TableRequest α)) (handle : Handle) :
    let table := (TableRequest.serve SlotTable.answer (withLength length) requests).2
    let handles := insert handle table.stored
    let keys := table.growthKeys handle
    let grown := table.grow handle
    table.collides handle = true →
      (∀ key, key ∈ keys ↔ ∃ other ∈ handles, other.raw = key) ∧
      (∀ width, 0 < width → (separates width keys = true ↔ KeptApart handles width)) ∧
      Search (· + 1) keys table.width grown.width ∧
      IsLeast {width | table.width < width ∧ KeptApart handles width} grown.width ∧
      (∃ spread, IsGreatest (differences handles) spread ∧
        grown.width ≤ max (table.width + 1) (spread + 1)) ∧
      (table.width + 1 < Count.bound →
        grown.width < Count.bound ∧ Search countOn keys table.width grown.width) ∧
      grown.slot? (grown.slotIndex handle) = none ∧
      ∀ initial, table.findOrInsert handle initial = ⟨initial, true, grown.put handle initial⟩ := by
  intro table handles keys grown collides
  have placed : table.Placed := ((holds_withLength length).serve requests).2.placed
  have absent := get?_of_collides collides
  have wide : grown.width = table.grownWidth handle := width_grow table handle
  have search := placed.search_grownWidth absent
  obtain ⟨spread, greatest⟩ := exists_isGreatest_differences (Set.mem_insert handle table.stored)
  have near := placed.grownWidth_le absent greatest
  have few := lt_bound_of_mem_differences greatest.1
  rw [← wide] at search near
  refine ⟨fun key => placed.mem_growthKeys, fun width pos => ?_, search,
    wide ▸ placed.isLeast_grownWidth absent, ⟨spread, greatest, near⟩, fun room => ?_,
    placed.slot?_grow_self absent, placed.findOrInsert_of_collides collides⟩
  · rw [separates_iff pos, placed.keptApart_insert_iff absent]
  · have inside : grown.width < Count.bound := by omega
    refine ⟨inside, search.congr fun width before => Nat.mod_eq_of_lt ?_⟩
    exact Nat.lt_of_le_of_lt (Nat.succ_le_of_lt before) inside

/-- Three handles: the third one falls onto the slot of the first, in a table that has grown before. -/
theorem competingRequests_growth_ends :
    let table := (TableRequest.serve SlotTable.answer (withLength 0)
      (competingRequests { raw := 4 } { raw := 6 } { raw := 9 })).2
    let handle : Handle := { raw := 10 }
    table.collides handle = true ∧ table.width = 3 ∧ (table.grow handle).width = 5 ∧
      Search countOn (table.growthKeys handle) 3 5 ∧
      IsLeast {width | 3 < width ∧ KeptApart (insert handle table.stored) width} 5 ∧
      (table.grow handle).slot? 0 = none := by
  intro table handle
  have collides : table.collides handle = true := by decide +kernel
  have width : table.width = 3 := by decide +kernel
  have grown : (table.grow handle).width = 5 := by decide +kernel
  obtain ⟨-, -, -, least, -, counts, free, -⟩ := growth_ends 0 _ handle collides
  obtain ⟨-, search⟩ := counts (by decide +kernel)
  rw [width, grown] at search
  rw [width, grown] at least
  rw [show (table.grow handle).slotIndex handle = 0 by decide +kernel] at free
  exact ⟨collides, width, grown, search, least, free⟩

end SlotTable
end CilProfiler

import CilProfiler.Trace.SlotTable
import Mathlib.Data.List.Nodup

/-! # Slot tables as maps

A table is used through what it answers for a handle. Every handle sits in the slot of its own, so
that two handles never compete for one slot and a table with more slots can take them all over.
Growing changes no answer, and storing changes the answer for the stored handle only.
-/

namespace CilProfiler
namespace SlotTable

variable {α : Type} {table : SlotTable α} {handle other : Handle} {value : α} {index : Nat}

/-- Each stored handle is in its own slot. -/
def Placed (table : SlotTable α) : Prop :=
  ∀ index handle value, table.slot? index = some (handle, value) → index = table.slotIndex handle

theorem slotIndex_lt (table : SlotTable α) (handle : Handle) : table.slotIndex handle < table.width :=
  Nat.mod_lt _ table.slots_pos

theorem get?_eq_some :
    table.get? handle = some value ↔ table.slot? (table.slotIndex handle) = some (handle, value) := by
  unfold get?
  split
  · rename_i stored held there
    rw [there]
    split
    · rename_i same
      simp [same]
    · rename_i different
      simp [different]
  · rename_i free
    simp [free]

theorem collides_eq_false :
    table.collides handle = false ↔
      ∀ stored value, table.slot? (table.slotIndex handle) = some (stored, value) → stored = handle := by
  unfold collides
  cases table.slot? (table.slotIndex handle) with
  | none => simp
  | some entry => simp [Prod.ext_iff]

theorem get?_of_collides (collides : table.collides handle = true) : table.get? handle = none := by
  rw [Option.eq_none_iff_forall_ne_some]
  intro value found
  rw [get?_eq_some] at found
  simp [SlotTable.collides, found] at collides

theorem mem_entries : (handle, value) ∈ table.entries ↔ ∃ index, table.slot? index = some (handle, value) := by
  simp only [entries, List.mem_filterMap, Array.mem_toList_iff, Array.mem_iff_getElem?, slot?]
  constructor
  · rintro ⟨slot, ⟨index, there⟩, same⟩
    exact ⟨index, by rw [there]; exact same⟩
  · rintro ⟨index, there⟩
    refine ⟨_, ⟨index, ?_⟩, rfl⟩
    exact Option.join_eq_some_iff.mp there

namespace Placed

theorem slot?_eq_some (placed : table.Placed) :
    table.slot? index = some (handle, value) ↔
      index = table.slotIndex handle ∧ table.get? handle = some value := by
  constructor
  · intro there
    have same := placed index handle value there
    exact ⟨same, get?_eq_some.mpr (same ▸ there)⟩
  · rintro ⟨rfl, found⟩
    exact get?_eq_some.mp found

theorem mem_entries (placed : table.Placed) :
    (handle, value) ∈ table.entries ↔ table.get? handle = some value := by
  rw [SlotTable.mem_entries]
  constructor
  · rintro ⟨index, there⟩
    exact (placed.slot?_eq_some.mp there).2
  · intro found
    exact ⟨_, get?_eq_some.mp found⟩

/-- Entries are listed in the order of their slots. -/
theorem pairwise_entries (placed : table.Placed) :
    table.entries.Pairwise fun a b => table.slotIndex a.1 < table.slotIndex b.1 := by
  rw [entries, List.pairwise_filterMap, List.pairwise_iff_getElem]
  intro i j inside inside' before entry first entry' second
  have held : table.slot? i = some entry := by
    rw [slot?, ← Array.getElem?_toList, List.getElem?_eq_getElem inside]
    simpa using first
  have held' : table.slot? j = some entry' := by
    rw [slot?, ← Array.getElem?_toList, List.getElem?_eq_getElem inside']
    simpa using second
  rw [← placed i entry.1 entry.2 held, ← placed j entry'.1 entry'.2 held']
  exact before

/-- No handle is stored twice. -/
theorem nodup_entries (placed : table.Placed) : (table.entries.map Prod.fst).Nodup := by
  rw [List.Nodup, List.pairwise_map]
  refine placed.pairwise_entries.imp fun {a b} before same => ?_
  rw [same] at before
  exact Nat.lt_irrefl _ before

end Placed

@[simp] theorem width_put (table : SlotTable α) (handle : Handle) (value : α) :
    (table.put handle value).width = table.width :=
  Array.size_setIfInBounds

@[simp] theorem slotIndex_put (table : SlotTable α) (handle : Handle) (value : α) :
    (table.put handle value).slotIndex other = table.slotIndex other := by
  rw [slotIndex, width_put, slotIndex]

theorem slot?_put (table : SlotTable α) (handle : Handle) (value : α) (index : Nat) :
    (table.put handle value).slot? index =
      if index = table.slotIndex handle then some (handle, value) else table.slot? index := by
  simp only [slot?, put, Array.getElem?_setIfInBounds]
  by_cases same : table.slotIndex handle = index
  · have inside : table.slotIndex handle < table.slots.size := table.slotIndex_lt handle
    simp [same, same ▸ inside]
  · simp [same, Ne.symm same]

theorem get?_put (free : table.collides handle = false) (value : α) :
    (table.put handle value).get? other = if other = handle then some value else table.get? other := by
  apply Option.ext
  intro found
  rw [get?_eq_some, slotIndex_put, slot?_put]
  by_cases same : other = handle
  · simp [same]
  · rw [if_neg same]
    by_cases shared : table.slotIndex other = table.slotIndex handle
    · -- The slot was free or held `handle`, so that it had no value for `other` either.
      simp only [shared, if_true, Option.some.injEq, Prod.mk.injEq, Ne.symm same, false_and, false_iff]
      intro before
      rw [get?_eq_some, shared] at before
      exact same (collides_eq_false.mp free other found before)
    · rw [if_neg shared, get?_eq_some]

theorem Placed.put (placed : table.Placed) (handle : Handle) (value : α) :
    (table.put handle value).Placed := by
  intro index stored held there
  rw [slot?_put] at there
  rw [slotIndex_put]
  split at there
  · rename_i here
    cases there
    exact here
  · exact placed index stored held there

/-- Storing entries that share no slot, neither with each other nor with what was there. -/
theorem slot?_foldl_put (entries : List (Handle × α))
    (distinct : (entries.map fun entry => table.slotIndex entry.1).Nodup)
    (free : ∀ entry ∈ entries, table.slot? (table.slotIndex entry.1) = none) :
    (entries.foldl (fun grown entry => grown.put entry.1 entry.2) table).slot? index =
        some (handle, value) ↔
      table.slot? index = some (handle, value) ∨
        index = table.slotIndex handle ∧ (handle, value) ∈ entries := by
  induction entries generalizing table with
  | nil => simp
  | cons entry rest ih =>
      obtain ⟨first, held⟩ := entry
      simp only [List.map_cons, List.nodup_cons, List.mem_map, not_exists, not_and] at distinct
      have apart : ∀ entry ∈ rest, table.slotIndex entry.1 ≠ table.slotIndex first := distinct.1
      rw [List.foldl_cons, ih (by simpa using distinct.2)]
      · rw [slot?_put, slotIndex_put]
        by_cases here : index = table.slotIndex first
        · subst here
          rw [if_pos rfl, free (first, held) (List.mem_cons_self ..)]
          constructor
          · rintro (same | ⟨shared, member⟩)
            · cases same
              exact .inr ⟨rfl, List.mem_cons_self ..⟩
            · exact absurd shared.symm (apart _ member)
          · rintro (absent | ⟨shared, member⟩)
            · cases absent
            · rcases List.mem_cons.mp member with same | member
              · cases same
                exact .inl rfl
              · exact absurd shared.symm (apart _ member)
        · rw [if_neg here]
          refine or_congr Iff.rfl (and_congr_right fun there => ?_)
          simp only [List.mem_cons, Prod.mk.injEq, iff_or_self]
          rintro ⟨rfl, _⟩
          exact absurd there here
      · intro entry member
        rw [slotIndex_put, slot?_put, if_neg (apart entry member)]
        exact free entry (List.mem_cons_of_mem _ member)

theorem slot?_withLength (length index : Nat) : (withLength length : SlotTable α).slot? index = none := by
  simp only [slot?, withLength, Array.getElem?_replicate]
  split <;> rfl

theorem width_withLength (length : Nat) : (withLength length : SlotTable α).width = max length 1 :=
  Array.size_replicate

theorem placed_withLength (length : Nat) : (withLength length : SlotTable α).Placed := by
  intro index handle value there
  rw [slot?_withLength] at there
  cases there

theorem get?_withLength (length : Nat) (handle : Handle) :
    (withLength length : SlotTable α).get? handle = none := by
  rw [Option.eq_none_iff_forall_ne_some]
  intro value found
  rw [get?_eq_some, slot?_withLength] at found
  cases found

theorem get?_empty (handle : Handle) : (empty : SlotTable α).get? handle = none :=
  get?_withLength initialLength handle

theorem marksDistinct_iff {length : Nat} (pos : 0 < length) (keys : List Nat) {taken : Array Bool}
    (size : taken.size = length) :
    marksDistinct length taken keys = true ↔
      (keys.map (· % length)).Nodup ∧ ∀ key ∈ keys, taken[key % length]? ≠ some true := by
  induction keys generalizing taken with
  | nil => simp [marksDistinct]
  | cons key rest ih =>
      have inside : key % length < taken.size := by rw [size]; exact Nat.mod_lt _ pos
      simp only [marksDistinct, List.map_cons, List.nodup_cons, List.mem_map, not_exists, not_and,
        List.forall_mem_cons]
      split
      · rename_i marked
        simp [marked]
      · rename_i unmarked
        rw [ih (by rw [Array.size_setIfInBounds, size])]
        have split_ : ∀ other, (taken.setIfInBounds (key % length) true)[other % length]? ≠ some true ↔
            other % length ≠ key % length ∧ taken[other % length]? ≠ some true := by
          intro other
          rw [Array.getElem?_setIfInBounds]
          by_cases same : key % length = other % length
          · simp [same, same ▸ inside]
          · simp [same, Ne.symm same]
        simp only [split_, unmarked, not_false_iff, true_and, ne_eq]
        constructor
        · rintro ⟨nodup, rest⟩
          exact ⟨⟨fun other member => (rest other member).1, nodup⟩, fun other member => (rest other member).2⟩
        · rintro ⟨⟨apart, nodup⟩, rest⟩
          exact ⟨nodup, fun other member => ⟨apart other member, rest other member⟩⟩

theorem separates_iff {length : Nat} (pos : 0 < length) (keys : List Nat) :
    separates length keys = true ↔ (keys.map (· % length)).Nodup := by
  rw [separates, marksDistinct_iff pos keys Array.size_replicate]
  refine and_iff_left fun key _ => ?_
  rw [Array.getElem?_replicate]
  split <;> simp

/-- The search ends at a length that separates the keys, at the latest above all of them. -/
theorem separates_separatingLength {keys : List Nat} {bound length : Nat} (nodup : keys.Nodup)
    (below : ∀ key ∈ keys, key < bound) (pos : 0 < length) :
    (keys.map (· % separatingLength keys bound length)).Nodup := by
  fun_induction separatingLength keys bound length with
  | case1 length found =>
      rcases found with above | found
      · have same : keys.map (· % length) = keys.map id :=
          List.map_congr_left fun key member => Nat.mod_eq_of_lt (Nat.lt_of_lt_of_le (below key member) above)
        rwa [same, List.map_id]
      · exact (separates_iff pos keys).mp found
  | case2 length _ ih => exact ih (Nat.succ_pos length)

theorem le_separatingLength (keys : List Nat) (bound length : Nat) :
    length ≤ separatingLength keys bound length := by
  fun_induction separatingLength keys bound length with
  | case1 length found => exact Nat.le_refl length
  | case2 length _ ih => exact Nat.le_of_succ_le ih

/-- Keys that have to be kept apart when a handle comes to a table that has no slot for it. -/
def growthKeys (table : SlotTable α) (handle : Handle) : List Nat :=
  table.entries.map (·.1.raw) ++ [handle.raw]

/-- Width of the table after it has grown for a handle. -/
def grownWidth (table : SlotTable α) (handle : Handle) : Nat :=
  separatingLength (table.growthKeys handle) ((table.growthKeys handle).foldl max 0 + 1)
    (table.width + 1)

theorem grow_eq (table : SlotTable α) (handle : Handle) :
    table.grow handle = table.entries.foldl (fun grown entry => grown.put entry.1 entry.2)
      (withLength (table.grownWidth handle)) := rfl

theorem width_withLength_grownWidth (table : SlotTable α) (handle : Handle) :
    (withLength (table.grownWidth handle) : SlotTable α).width = table.grownWidth handle := by
  rw [width_withLength, Nat.max_eq_left]
  exact Nat.le_trans (Nat.succ_pos _) (le_separatingLength _ _ (table.width + 1))

theorem width_grow (table : SlotTable α) (handle : Handle) :
    (table.grow handle).width = table.grownWidth handle := by
  suffices kept : ∀ (entries : List (Handle × α)) (start : SlotTable α),
      (entries.foldl (fun grown entry => grown.put entry.1 entry.2) start).width = start.width by
    rw [grow_eq, kept, width_withLength_grownWidth]
  intro entries
  induction entries with
  | nil => exact fun start => rfl
  | cons entry rest ih =>
      intro start
      rw [List.foldl_cons, ih, width_put]

/-- The search for a width ends above all keys at the latest. -/
theorem lt_of_mem_growthKeys {key : Nat} (member : key ∈ table.growthKeys handle) :
    key < (table.growthKeys handle).foldl max 0 + 1 := by
  rw [List.foldl_max]
  cases greatest : (table.growthKeys handle).max? with
  | none => exact absurd (List.max?_eq_none_iff.mp greatest) (List.ne_nil_of_mem member)
  | some top =>
      have le := (List.max?_eq_some_iff.mp greatest).2 key member
      exact Nat.lt_succ_of_le (Nat.le_trans le (Nat.le_max_right 0 top))

theorem raw_injective {first second : Handle} (same : first.raw = second.raw) : first = second := by
  cases first
  cases second
  cases same
  rfl

namespace Placed

theorem nodup_growthKeys (placed : table.Placed) (absent : table.get? handle = none) :
    (table.growthKeys handle).Nodup := by
  have stored : (table.entries.map (·.1.raw)).Nodup := by
    have raws := placed.nodup_entries.map fun _ _ same => raw_injective same
    rwa [List.map_map] at raws
  refine List.nodup_append.mpr ⟨stored, List.nodup_singleton _, ?_⟩
  intro raw member new last
  obtain ⟨⟨other, value⟩, inside, rfl⟩ := List.mem_map.mp member
  rw [List.mem_singleton.mp last]
  intro same
  have same : other = handle := raw_injective same
  rw [placed.mem_entries, same, absent] at inside
  cases inside

/-- In the grown table all handles have slots of their own. -/
theorem separates_grownWidth (placed : table.Placed) (absent : table.get? handle = none) :
    ((table.growthKeys handle).map (· % table.grownWidth handle)).Nodup := by
  exact separates_separatingLength (placed.nodup_growthKeys absent)
    (fun _ member => lt_of_mem_growthKeys member) (Nat.succ_pos _)

theorem slot?_grow (placed : table.Placed) (absent : table.get? handle = none) {stored : Handle} :
    (table.grow handle).slot? index = some (stored, value) ↔
      index = (table.grow handle).slotIndex stored ∧ table.get? stored = some value := by
  have slots : ∀ other : Handle, (withLength (table.grownWidth handle) : SlotTable α).slotIndex other =
      (table.grow handle).slotIndex other := by
    intro other
    rw [slotIndex, slotIndex, width_grow, width_withLength_grownWidth]
  rw [← slots, ← placed.mem_entries, grow_eq, slot?_foldl_put, slot?_withLength]
  · simp
  · have distinct := placed.separates_grownWidth absent
    simp only [growthKeys, List.map_append, List.map_map] at distinct
    simp only [slotIndex, width_withLength_grownWidth]
    exact (List.nodup_append.mp distinct).1
  · exact fun entry _ => slot?_withLength _ _

/-- Growing keeps every handle in its place and every answer as it was. -/
theorem grow (placed : table.Placed) (absent : table.get? handle = none) :
    (table.grow handle).Placed :=
  fun _ _ _ there => ((placed.slot?_grow absent).mp there).1

theorem get?_grow (placed : table.Placed) (absent : table.get? handle = none) :
    (table.grow handle).get? other = table.get? other := by
  apply Option.ext
  intro found
  rw [get?_eq_some, placed.slot?_grow absent]
  simp

theorem collides_grow (placed : table.Placed) (absent : table.get? handle = none) :
    (table.grow handle).collides handle = false := by
  rw [collides_eq_false]
  intro stored value there
  obtain ⟨shared, found⟩ := (placed.slot?_grow absent).mp there
  have distinct := placed.separates_grownWidth absent
  simp only [growthKeys, List.map_append, List.map_map] at distinct
  have apart := (List.nodup_append.mp distinct).2.2
  have member := placed.mem_entries.mpr found
  exfalso
  refine apart (stored.raw % table.grownWidth handle) (List.mem_map.mpr ⟨_, member, rfl⟩) _
    (List.mem_singleton.mpr rfl) ?_
  rw [slotIndex, slotIndex, width_grow] at shared
  exact shared.symm

end Placed

/-- The table that has a slot for a handle. -/
def roomFor (table : SlotTable α) (handle : Handle) : SlotTable α :=
  if table.collides handle then table.grow handle else table

/-- A table has room for what it holds. -/
theorem roomFor_of_some (found : table.get? handle = some value) : table.roomFor handle = table := by
  unfold roomFor
  split
  · rename_i collides
    rw [get?_of_collides collides] at found
    cases found
  · rfl

/-- A table grows only if another handle is in the way. -/
theorem width_roomFor (table : SlotTable α) (handle : Handle) :
    (table.roomFor handle).width = table.width ∨
      table.collides handle = true ∧ (table.roomFor handle).width = table.grownWidth handle := by
  unfold roomFor
  split
  · rename_i collides
    exact .inr ⟨collides, width_grow table handle⟩
  · exact .inl rfl

namespace Placed

theorem roomFor (placed : table.Placed) (handle : Handle) : (table.roomFor handle).Placed := by
  unfold SlotTable.roomFor
  split
  · rename_i collides
    exact placed.grow (get?_of_collides collides)
  · exact placed

theorem get?_roomFor (placed : table.Placed) (handle : Handle) :
    (table.roomFor handle).get? other = table.get? other := by
  unfold SlotTable.roomFor
  split
  · rename_i collides
    exact placed.get?_grow (get?_of_collides collides)
  · rfl

theorem collides_roomFor (placed : table.Placed) (handle : Handle) :
    (table.roomFor handle).collides handle = false := by
  unfold SlotTable.roomFor
  split
  · rename_i collides
    exact placed.collides_grow (get?_of_collides collides)
  · rename_i free
    exact Bool.eq_false_iff.mpr free

variable {initial : α}

theorem findOrInsert_of_some (placed : table.Placed) (found : table.get? handle = some value) :
    table.findOrInsert handle initial = ⟨value, false, table.roomFor handle⟩ := by
  rw [← placed.get?_roomFor handle, SlotTable.roomFor] at found
  simp only [findOrInsert, found]
  rfl

theorem findOrInsert_of_none (placed : table.Placed) (absent : table.get? handle = none) :
    table.findOrInsert handle initial =
      ⟨initial, true, (table.roomFor handle).put handle initial⟩ := by
  rw [← placed.get?_roomFor handle, SlotTable.roomFor] at absent
  simp only [findOrInsert, absent]
  rfl

/-- Asking for a handle answers what is stored for it, or else stores and answers the initial
    value. -/
theorem findOrInsert_value (placed : table.Placed) (handle : Handle) (initial : α) :
    (table.findOrInsert handle initial).value = (table.get? handle).getD initial := by
  cases found : table.get? handle with
  | none => rw [placed.findOrInsert_of_none found]; rfl
  | some value => rw [placed.findOrInsert_of_some found]; rfl

/-- An initial value is stored exactly for a handle that had none. -/
theorem findOrInsert_fresh (placed : table.Placed) (handle : Handle) (initial : α) :
    (table.findOrInsert handle initial).fresh = (table.get? handle).isNone := by
  cases found : table.get? handle with
  | none => rw [placed.findOrInsert_of_none found]; rfl
  | some value => rw [placed.findOrInsert_of_some found]; rfl

theorem width_findOrInsert (placed : table.Placed) (handle : Handle) (initial : α) :
    (table.findOrInsert handle initial).table.width = (table.roomFor handle).width := by
  cases found : table.get? handle with
  | none => rw [placed.findOrInsert_of_none found, width_put]
  | some value => rw [placed.findOrInsert_of_some found]

theorem get?_findOrInsert (placed : table.Placed) (handle : Handle) (initial : α) :
    (table.findOrInsert handle initial).table.get? other =
      if other = handle then some ((table.get? handle).getD initial) else table.get? other := by
  cases found : table.get? handle with
  | none =>
      rw [placed.findOrInsert_of_none found, get?_put (placed.collides_roomFor handle),
        placed.get?_roomFor]
      rfl
  | some value =>
      rw [placed.findOrInsert_of_some found, placed.get?_roomFor]
      split
      · rename_i same
        rw [same, found]
        rfl
      · rfl

theorem findOrInsert (placed : table.Placed) (handle : Handle) (initial : α) :
    (table.findOrInsert handle initial).table.Placed := by
  cases found : table.get? handle with
  | none =>
      rw [placed.findOrInsert_of_none found]
      exact (placed.roomFor handle).put handle initial
  | some value =>
      rw [placed.findOrInsert_of_some found]
      exact placed.roomFor handle

end Placed

end SlotTable
end CilProfiler

import CilProfiler.Proofs.Trace.SlotRequests
import Mathlib.Data.Set.Pairwise.Basic
import Mathlib.Order.Bounds.Basic

/-! # Layout of slot tables

How a table is laid out depends on its first length and on the handles that it stores, and on
nothing else: it has as few slots as keep them apart. A table grows step by step, each time for one
handle more, but no step passes over a width that would do later. A width that is too small for
some of the handles is too small for all of them.
-/

namespace CilProfiler
namespace SlotTable

variable {α β : Type} {table next : SlotTable α} {map : HandleMap α} {handle : Handle} {value : α}
  {least width index : Nat}

/-- Handles that a table stores. -/
def stored (table : SlotTable α) : Set Handle :=
  {handle | (table.get? handle).isSome}

@[simp] theorem mem_stored : handle ∈ table.stored ↔ (table.get? handle).isSome :=
  Iff.rfl

/-- No two of the handles share one of the slots. -/
def KeptApart (handles : Set Handle) (width : Nat) : Prop :=
  handles.Pairwise fun a b => a.raw % width ≠ b.raw % width

/-- The table is as narrow as can be: from its first length on there is no smaller width that keeps
    its handles apart. -/
def Tight (table : SlotTable α) (least : Nat) : Prop :=
  IsLeast {width | least ≤ width ∧ KeptApart table.stored width} table.width

theorem keptApart_width (table : SlotTable α) : KeptApart table.stored table.width := by
  intro a found b found' apart shared
  obtain ⟨value, found⟩ := Option.isSome_iff_exists.mp found
  obtain ⟨value', found'⟩ := Option.isSome_iff_exists.mp found'
  have slot : table.slotIndex a = table.slotIndex b := shared
  rw [get?_eq_some] at found found'
  rw [slot, found'] at found
  cases found
  exact apart rfl

namespace Placed

theorem mem_growthKeys (placed : table.Placed) {key : Nat} :
    key ∈ table.growthKeys handle ↔ ∃ other ∈ insert handle table.stored, other.raw = key := by
  simp only [growthKeys, List.mem_append, List.mem_singleton, List.mem_map, Set.mem_insert_iff,
    mem_stored, Option.isSome_iff_exists, ← placed.mem_entries]
  constructor
  · rintro (⟨entry, member, rfl⟩ | rfl)
    · exact ⟨entry.1, .inr ⟨entry.2, member⟩, rfl⟩
    · exact ⟨handle, .inl rfl, rfl⟩
  · rintro ⟨other, rfl | ⟨value, member⟩, rfl⟩
    · exact .inr rfl
    · exact .inl ⟨(other, value), member, rfl⟩

/-- Widths that keep a new handle apart as well are those that separate the keys for which the
    table grows. -/
theorem keptApart_insert_iff (placed : table.Placed) (absent : table.get? handle = none) :
    KeptApart (insert handle table.stored) width ↔
      ((table.growthKeys handle).map (· % width)).Nodup := by
  rw [List.nodup_map_iff_inj_on (placed.nodup_growthKeys absent)]
  constructor
  · intro apart first there second there' shared
    obtain ⟨a, member, rfl⟩ := placed.mem_growthKeys.mp there
    obtain ⟨b, member', rfl⟩ := placed.mem_growthKeys.mp there'
    by_contra different
    exact apart member member' (fun same => different (congrArg Handle.raw same)) shared
  · intro injective a member b member' different shared
    have there := placed.mem_growthKeys.mpr ⟨a, member, rfl⟩
    have there' := placed.mem_growthKeys.mpr ⟨b, member', rfl⟩
    exact different (raw_injective (injective _ there _ there' shared))

end Placed

/-- The search passes over no width that separates the keys. -/
theorem not_nodup_of_lt_separatingLength {keys : List Nat} {bound length : Nat}
    (searched : length ≤ width) (before : width < separatingLength keys bound length)
    (pos : 0 < length) : ¬ (keys.map (· % width)).Nodup := by
  fun_induction separatingLength keys bound length with
  | case1 length found => exact absurd before (Nat.not_lt.mpr searched)
  | case2 length failed ih =>
      rcases Nat.eq_or_lt_of_le searched with rfl | later
      · intro nodup
        exact failed (.inr ((separates_iff pos keys).mpr nodup))
      · exact ih later before (Nat.succ_pos length)

/-- Asking for a handle stores it. -/
theorem Placed.stored_findOrInsert (placed : table.Placed) (handle : Handle) (initial : α) :
    (table.findOrInsert handle initial).table.stored = insert handle table.stored := by
  ext other
  rw [Set.mem_insert_iff, mem_stored, mem_stored, placed.get?_findOrInsert]
  by_cases same : other = handle <;> simp [same]

theorem tight_withLength (length : Nat) : (withLength length : SlotTable α).Tight (max length 1) := by
  rw [Tight, width_withLength]
  refine ⟨⟨le_refl _, fun a found => ?_⟩, fun width wide => wide.1⟩
  rw [mem_stored, get?_withLength] at found
  cases found

/-- A table is tight if it is no wider than its handles force it to be. -/
theorem tight_of_le (wide : least ≤ table.width)
    (narrow : ∀ width, least ≤ width → KeptApart table.stored width → table.width ≤ width) :
    table.Tight least :=
  ⟨⟨wide, table.keptApart_width⟩, fun width other => narrow width other.1 other.2⟩

/-- The handle that is in the way takes the slot of the new one. -/
theorem Placed.not_keptApart_of_collides (placed : table.Placed)
    (collides : table.collides handle = true) :
    ¬ KeptApart (insert handle table.stored) table.width := by
  intro apart
  rw [← Bool.not_eq_false, collides_eq_false] at collides
  push Not at collides
  obtain ⟨other, value, there, different⟩ := collides
  obtain ⟨shared, found⟩ := placed.slot?_eq_some.mp there
  have member : other ∈ table.stored := by rw [mem_stored, found]; rfl
  exact apart (Set.mem_insert handle _) (Set.mem_insert_of_mem handle member)
    (Ne.symm different) shared

/-- Storing one handle more in a table that has been given room for it. -/
theorem Tight.insert (tight : table.Tight least) (placed : table.Placed)
    (handles : next.stored = insert handle table.stored)
    (roomy : next.width = (table.roomFor handle).width) : next.Tight least := by
  have narrow : ∀ width, least ≤ width → KeptApart next.stored width → table.width ≤ width := by
    intro width wide apart
    rw [handles] at apart
    exact tight.2 ⟨wide, apart.mono (Set.subset_insert handle table.stored)⟩
  rcases table.width_roomFor handle with same | ⟨collides, grown⟩
  · rw [same] at roomy
    exact tight_of_le (roomy ▸ tight.1.1) (roomy ▸ narrow)
  · rw [grown] at roomy
    have longer : table.width < next.width := roomy ▸ le_separatingLength _ _ _
    refine tight_of_le (Nat.le_trans tight.1.1 (Nat.le_of_lt longer)) fun width wide apart => ?_
    have reached := narrow width wide apart
    rw [handles] at apart
    have wider : table.width ≠ width := by
      rintro rfl
      exact placed.not_keptApart_of_collides collides apart
    have separated := (placed.keptApart_insert_iff (get?_of_collides collides)).mp apart
    rw [roomy]
    by_contra shorter
    exact not_nodup_of_lt_separatingLength (Nat.lt_of_le_of_ne reached wider) (Nat.not_le.mp shorter)
      (Nat.succ_pos _) separated

namespace Holds

theorem stored_update (holds : table.Holds map)
    (updated : next.Holds (Function.update map handle (some value))) :
    next.stored = insert handle table.stored := by
  ext other
  rw [Set.mem_insert_iff, mem_stored, mem_stored, updated.get?, holds.get?, Function.update_apply]
  by_cases same : other = handle <;> simp [same]

theorem tight_answer (holds : table.Holds map) (tight : table.Tight least)
    (request : TableRequest α) : (table.answer request).2.Tight least := by
  have answered := (holds.answer request).2
  cases request with
  | look handle => exact tight
  | ask handle initial =>
      exact tight.insert holds.placed (holds.stored_update answered)
        (holds.placed.width_findOrInsert handle initial)
  | rewrite handle initial change =>
      exact tight.insert holds.placed (holds.stored_update answered)
        ((width_put ..).trans (holds.placed.width_findOrInsert handle initial))

theorem tight_serve (holds : table.Holds map) (tight : table.Tight least)
    (requests : List (TableRequest α)) :
    (TableRequest.serve SlotTable.answer table requests).2.Tight least := by
  induction requests generalizing table map with
  | nil => exact tight
  | cons request rest ih => exact ih (holds.answer request).2 (holds.tight_answer tight request)

end Holds

namespace Placed

theorem slotHandles_getElem (placed : table.Placed) (inside : index < table.slotHandles.length) :
    table.slotHandles[index] = some handle ↔
      index = table.slotIndex handle ∧ handle ∈ table.stored := by
  have there : index < table.slots.size := by simpa [slotHandles] using inside
  have slot : table.slot? index = table.slots[index] := by
    rw [slot?, Array.getElem?_eq_getElem there, Option.join_some]
  simp only [slotHandles, List.getElem_map, Array.getElem_toList, ← slot, Option.map_eq_some_iff,
    Prod.exists, exists_and_right, exists_eq_right, placed.slot?_eq_some, exists_and_left, mem_stored,
    Option.isSome_iff_exists]

/-- Where handles are in their own slots, the slots follow from the width and the handles. -/
theorem slotHandles_eq {other : SlotTable β} (placed : table.Placed) (placed' : other.Placed)
    (wide : other.width = table.width) (handles : other.stored = table.stored) :
    other.slotHandles = table.slotHandles := by
  apply List.ext_getElem
  · simpa [slotHandles, width] using wide
  · intro index inside inside'
    apply Option.ext
    intro handle
    rw [placed.slotHandles_getElem, placed'.slotHandles_getElem, handles, slotIndex, slotIndex, wide]

end Placed

/-- The width follows from the first length and the handles. -/
theorem Tight.width_eq {other : SlotTable β} (tight : table.Tight least)
    (tight' : other.Tight least) (handles : other.stored = table.stored) :
    other.width = table.width := by
  rw [Tight, handles] at tight'
  exact tight'.unique tight

theorem map_fst_entries (table : SlotTable α) :
    table.entries.map Prod.fst = table.slotHandles.filterMap id := by
  rw [entries, slotHandles, List.map_filterMap, List.filterMap_map]
  rfl

/-- A table is exactly as wide as its first length and its handles ask for, whatever the requests
    that brought it there. Two tables of the same first length that store the same handles have the
    same slots and list their handles in the same order. -/
theorem layout_canonical (length : Nat) (requests : List (TableRequest α)) :
    let table := (TableRequest.serve SlotTable.answer (withLength length) requests).2
    (∀ handle, handle ∈ table.stored ↔ handle ∈ TableRequest.stored requests) ∧
      IsLeast {width | max length 1 ≤ width ∧ KeptApart table.stored width} table.width ∧
      ∀ {β : Type} (others : List (TableRequest β)),
        (∀ handle, handle ∈ TableRequest.stored others ↔ handle ∈ TableRequest.stored requests) →
        let other := (TableRequest.serve SlotTable.answer (withLength length) others).2
        other.width = table.width ∧ other.slotHandles = table.slotHandles ∧
          other.entries.map Prod.fst = table.entries.map Prod.fst := by
  intro table
  have served : ∀ {β : Type} (requests : List (TableRequest β)),
      let table := (TableRequest.serve SlotTable.answer (withLength length) requests).2
      table.Placed ∧ table.Tight (max length 1) ∧
        ∀ handle, handle ∈ table.stored ↔ handle ∈ TableRequest.stored requests := by
    intro β requests table
    have holds := ((holds_withLength length).serve requests).2
    refine ⟨holds.placed, (holds_withLength length).tight_serve (tight_withLength length) requests, ?_⟩
    intro handle
    have found := HandleMap.empty.isSome_serve requests handle
    rw [mem_stored, holds.get?, found]
    simp [HandleMap.empty]
  obtain ⟨placed, tight, handles⟩ := served requests
  refine ⟨handles, tight, fun others same => ?_⟩
  obtain ⟨placed', tight', handles'⟩ := served others
  have stored := Set.ext fun handle =>
    ((handles' handle).trans (same handle)).trans (handles handle).symm
  have wide := tight.width_eq tight' stored
  have slots := placed.slotHandles_eq placed' wide stored
  exact ⟨wide, slots, by rw [map_fst_entries, map_fst_entries, slots]⟩

/-- The handles of `competingRequests` in the other order, one of them asked for twice. -/
def reorderedRequests (first second other : Handle) : List (TableRequest String) := [
  .ask second "b",
  .ask first "a",
  .look other,
  .rewrite second "" (· ++ "c")]

theorem reorderedRequests_layout :
    let requests := competingRequests { raw := 4 } { raw := 6 } { raw := 9 }
    let others := reorderedRequests { raw := 4 } { raw := 6 } { raw := 9 }
    let table := (TableRequest.serve SlotTable.answer (withLength 0) requests).2
    let other := (TableRequest.serve SlotTable.answer (withLength 0) others).2
    (∀ handle, handle ∈ TableRequest.stored others ↔ handle ∈ TableRequest.stored requests) ∧
      other.width = table.width ∧ other.slotHandles = table.slotHandles ∧
      other.slotHandles = [some { raw := 6 }, some { raw := 4 }, none] := by
  intro requests others table other
  have same : ∀ first second third handle,
      handle ∈ TableRequest.stored (reorderedRequests first second third) ↔
        handle ∈ TableRequest.stored (competingRequests first second third) := by
    intro first second third handle
    simp [TableRequest.stored, TableRequest.stored?, reorderedRequests, competingRequests, or_comm]
  obtain ⟨-, -, layout⟩ := layout_canonical 0 requests
  obtain ⟨wide, slots, -⟩ := layout others (same _ _ _)
  exact ⟨same _ _ _, wide, slots, by decide +kernel⟩

end SlotTable
end CilProfiler

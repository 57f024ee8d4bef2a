import CilProfiler.Proofs.Trace.SlotTable
import Mathlib.Data.List.Dedup
import Mathlib.Logic.Function.Basic

/-! # Slot tables serve requests like maps

A table is asked for values and written to, request after request. It answers as a map from
handles to values would, whatever its first length and however often it has grown in between: a
request changes what is held for its own handle and for no other. What the slots add to the map is
an order of the entries, and a width that grows when two handles compete for a slot.
-/

namespace CilProfiler

/-- What is asked of a table. -/
inductive TableRequest (α : Type) where
  /-- Value of a handle. -/
  | look (handle : Handle)
  /-- Value of a handle; `initial` is made and stored for a handle that has none. -/
  | ask (handle : Handle) (initial : α)
  /-- The same, and the value that is held is then written anew. -/
  | rewrite (handle : Handle) (initial : α) (change : α → α)

structure TableAnswer (α : Type) where
  value : Option α
  /-- An initial value was made. -/
  made : Bool

namespace TableRequest

variable {α σ : Type}

def handle : TableRequest α → Handle
  | .look handle => handle
  | .ask handle _ => handle
  | .rewrite handle _ _ => handle

/-- The handle that is stored behind the request in any case. -/
def stored? : TableRequest α → Option Handle
  | .look _ => none
  | .ask handle _ => some handle
  | .rewrite handle _ _ => some handle

/-- Handles that some of the requests store, each once. -/
def stored (requests : List (TableRequest α)) : List Handle :=
  (requests.filterMap stored?).dedup

/-- Answers to a list of requests, and the state behind the last one. -/
def serve (answer : σ → TableRequest α → TableAnswer α × σ) (state : σ) :
    List (TableRequest α) → List (TableAnswer α) × σ
  | [] => ([], state)
  | request :: rest =>
      let (first, next) := answer state request
      let (answers, last) := serve answer next rest
      (first :: answers, last)

end TableRequest

/-- What is held for each handle. -/
abbrev HandleMap (α : Type) := Handle → Option α

variable {α : Type}

def HandleMap.empty : HandleMap α :=
  fun _ => none

def HandleMap.answer (map : HandleMap α) : TableRequest α → TableAnswer α × HandleMap α
  | .look handle => (⟨map handle, false⟩, map)
  | .ask handle initial =>
      let held := (map handle).getD initial
      (⟨some held, (map handle).isNone⟩, Function.update map handle (some held))
  | .rewrite handle initial change =>
      let held := (map handle).getD initial
      (⟨some held, (map handle).isNone⟩, Function.update map handle (some (change held)))

/-- A map holds a value for the handles that were stored and for no other ones. -/
theorem HandleMap.isSome_serve (map : HandleMap α) (requests : List (TableRequest α))
    (handle : Handle) :
    ((TableRequest.serve answer map requests).2 handle).isSome ↔
      (map handle).isSome ∨ handle ∈ TableRequest.stored requests := by
  rw [TableRequest.stored, List.mem_dedup]
  induction requests generalizing map with
  | nil => simp [TableRequest.serve]
  | cons request rest ih =>
      simp only [TableRequest.serve, ih]
      cases request with
      | look other => simp [answer, TableRequest.stored?]
      | ask other initial | rewrite other initial change =>
          by_cases same : handle = other <;> simp [answer, TableRequest.stored?, same]

namespace SlotTable

def answer (table : SlotTable α) : TableRequest α → TableAnswer α × SlotTable α
  | .look handle => (⟨table.get? handle, false⟩, table)
  | .ask handle initial =>
      let found := table.findOrInsert handle initial
      (⟨some found.value, found.fresh⟩, found.table)
  | .rewrite handle initial change =>
      let found := table.findOrInsert handle initial
      (⟨some found.value, found.fresh⟩, found.table.put handle (change found.value))

/-- A table holds what a map holds. -/
structure Holds (table : SlotTable α) (map : HandleMap α) : Prop where
  placed : table.Placed
  get? : ∀ handle, table.get? handle = map handle

theorem holds_withLength (length : Nat) : (withLength length : SlotTable α).Holds .empty where
  placed := placed_withLength length
  get? := get?_withLength length

variable {table : SlotTable α} {map : HandleMap α}

theorem collides_of_some {handle : Handle} {value : α} (found : table.get? handle = some value) :
    table.collides handle = false := by
  by_contra collides
  rw [get?_of_collides (by simpa using collides)] at found
  cases found

/-- Only a request that stores a handle changes the width, and only if another handle is in its
    way. -/
theorem width_answer (placed : table.Placed) (request : TableRequest α) :
    (table.answer request).2.width = table.width ∨
      table.collides request.handle = true ∧
        (table.answer request).2.width = table.grownWidth request.handle := by
  cases request with
  | look handle => exact .inl rfl
  | ask handle initial =>
      have width : (table.answer (.ask handle initial)).2.width = (table.roomFor handle).width :=
        placed.width_findOrInsert handle initial
      rw [width]
      exact table.width_roomFor handle
  | rewrite handle initial change =>
      have width : (table.answer (.rewrite handle initial change)).2.width =
          (table.roomFor handle).width :=
        (width_put ..).trans (placed.width_findOrInsert handle initial)
      rw [width]
      exact table.width_roomFor handle

namespace Holds

theorem findOrInsert (holds : table.Holds map) (handle : Handle) (initial : α) :
    (table.findOrInsert handle initial).table.Holds
      (Function.update map handle (some ((map handle).getD initial))) where
  placed := holds.placed.findOrInsert handle initial
  get? other := by
    rw [holds.placed.get?_findOrInsert, holds.get?, holds.get?, Function.update_apply]

/-- Writing to a handle that has a value. -/
theorem put (holds : table.Holds map) {handle : Handle} {held : α} (found : map handle = some held)
    (value : α) : (table.put handle value).Holds (Function.update map handle (some value)) where
  placed := holds.placed.put handle value
  get? other := by
    have stored : table.get? handle = some held := by rw [holds.get?, found]
    rw [get?_put (collides_of_some stored), holds.get?, Function.update_apply]

/-- One request: table and map give the same answer, and the table holds what the map holds. -/
theorem answer (holds : table.Holds map) (request : TableRequest α) :
    (table.answer request).1 = (map.answer request).1 ∧
      (table.answer request).2.Holds (map.answer request).2 := by
  cases request with
  | look handle =>
      simp only [SlotTable.answer, HandleMap.answer, holds.get?]
      exact ⟨trivial, holds⟩
  | ask handle initial =>
      simp only [SlotTable.answer, HandleMap.answer, holds.placed.findOrInsert_value,
        holds.placed.findOrInsert_fresh, holds.get?]
      exact ⟨trivial, holds.findOrInsert handle initial⟩
  | rewrite handle initial change =>
      simp only [SlotTable.answer, HandleMap.answer, holds.placed.findOrInsert_value,
        holds.placed.findOrInsert_fresh, holds.get?]
      have asked := holds.findOrInsert handle initial
      have written := asked.put (Function.update_self ..) (change ((map handle).getD initial))
      rw [Function.update_idem] at written
      exact ⟨trivial, written⟩

/-- A whole list of requests, one after another. -/
theorem serve (holds : table.Holds map) (requests : List (TableRequest α)) :
    (TableRequest.serve SlotTable.answer table requests).1 =
        (TableRequest.serve HandleMap.answer map requests).1 ∧
      (TableRequest.serve SlotTable.answer table requests).2.Holds
        (TableRequest.serve HandleMap.answer map requests).2 := by
  induction requests generalizing table map with
  | nil => exact ⟨rfl, holds⟩
  | cons request rest ih =>
      obtain ⟨same, next⟩ := holds.answer request
      obtain ⟨answers, last⟩ := ih next
      exact ⟨by simp only [TableRequest.serve, same, answers], last⟩

/-- A request leaves what is held for other handles alone. -/
theorem get?_answer_of_ne (holds : table.Holds map) {request : TableRequest α} {other : Handle}
    (apart : other ≠ request.handle) : (table.answer request).2.get? other = table.get? other := by
  rw [(holds.answer request).2.get?, holds.get?]
  cases request with
  | look handle => rfl
  | ask handle initial | rewrite handle initial change => exact Function.update_of_ne apart ..

end Holds

/-- Whatever is asked of a table of any length, it answers like a map. Each stored handle is in its
    own slot, the entries are the stored handles with what the map holds for them, each once and in
    the order of the slots. One more request changes nothing that is held for other handles; the
    table never becomes shorter, and it becomes longer only where another handle is in the way. -/
theorem serve_refines (length : Nat) (requests : List (TableRequest α)) :
    let run := TableRequest.serve SlotTable.answer (withLength length) requests
    let table := run.2
    let map := (TableRequest.serve HandleMap.answer .empty requests).2
    let stored := TableRequest.stored requests
    run.1 = (TableRequest.serve HandleMap.answer .empty requests).1 ∧
      (∀ index handle value, table.slot? index = some (handle, value) →
        index = handle.raw % table.width) ∧
      (∀ handle, table.get? handle = map handle ∧ ((map handle).isSome ↔ handle ∈ stored)) ∧
      table.length = stored.length ∧
      (table.entries.map Prod.fst).Perm stored ∧
      (∀ handle value, (handle, value) ∈ table.entries ↔ map handle = some value) ∧
      table.entries.Pairwise (fun a b => a.1.raw % table.width < b.1.raw % table.width) ∧
      ∀ request, let next := (table.answer request).2
        (∀ other, other ≠ request.handle → next.get? other = table.get? other) ∧
        table.width ≤ next.width ∧
        (next.width ≠ table.width → ∃ other value,
          table.slot? (request.handle.raw % table.width) = some (other, value) ∧
            other ≠ request.handle) := by
  intro run table map stored
  obtain ⟨answers, holds⟩ := (holds_withLength length).serve requests
  have held : ∀ handle, (map handle).isSome ↔ handle ∈ stored := by
    intro handle
    have found := HandleMap.empty.isSome_serve requests handle
    simpa [HandleMap.empty] using found
  have entries : ∀ handle value, (handle, value) ∈ table.entries ↔ map handle = some value := by
    intro handle value
    rw [holds.placed.mem_entries, holds.get?]
  have handles : (table.entries.map Prod.fst).Perm stored := by
    refine (List.perm_ext_iff_of_nodup holds.placed.nodup_entries (List.nodup_dedup _)).mpr ?_
    intro handle
    refine Iff.trans ?_ (held handle)
    rw [Option.isSome_iff_exists, List.mem_map]
    simpa using exists_congr (entries handle)
  refine ⟨answers, holds.placed, fun handle => ⟨holds.get? handle, held handle⟩, ?_, handles, entries,
    holds.placed.pairwise_entries, fun request => ⟨fun other => holds.get?_answer_of_ne, ?_, ?_⟩⟩
  · rw [SlotTable.length, ← handles.length_eq, List.length_map]
  · rcases width_answer holds.placed request with same | ⟨_, grown⟩
    · exact Nat.le_of_eq same.symm
    · rw [grown]
      exact Nat.le_of_succ_le (le_separatingLength _ _ (table.width + 1))
  · intro changed
    rcases width_answer holds.placed request with same | ⟨collides, _⟩
    · exact absurd same changed
    · by_contra alone
      push Not at alone
      rw [collides_eq_false.mpr alone] at collides
      cases collides

/-- Two handles, a value that is written anew and a look-up of a handle that is not stored. -/
def competingRequests (first second other : Handle) : List (TableRequest Nat) := [
  .ask first 10,
  .ask second 20,
  .rewrite first 0 (· + 1),
  .look other,
  .ask second 30]

/-- The two handles share a slot of the first table. -/
theorem competingRequests_serve :
    let requests := competingRequests { raw := 4 } { raw := 6 } { raw := 9 }
    let table := (TableRequest.serve SlotTable.answer (withLength 0) requests).2
    table.length = 2 ∧ table.get? { raw := 4 } = some 11 ∧ table.get? { raw := 9 } = none ∧
      table.width ≤ (table.answer (.ask { raw := 10 } 40)).2.width ∧
      (table.answer (.ask { raw := 10 } 40)).2.get? { raw := 6 } = some 20 := by
  intro requests table
  obtain ⟨-, -, holds, length, -, -, -, more⟩ := serve_refines 0 requests
  have next := more (.ask { raw := 10 } 40)
  refine ⟨length.trans (by decide), ?_, ?_, next.2.1, ?_⟩
  · exact (holds _).1.trans (by decide)
  · exact (holds _).1.trans (by decide)
  · rw [next.1 { raw := 6 } (by decide)]
    exact (holds _).1.trans (by decide)

end SlotTable
end CilProfiler

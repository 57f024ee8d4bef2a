import CilProfiler.Trace.Handle
import CilProfiler.Log

/-! # Slot tables

A slot table keeps each handle in the slot given by its remainder modulo the number
of slots, so that a look-up is one remainder and one comparison. No slot holds two handles: when
a new handle falls onto a slot that another one holds, the table grows to the smallest length at
which all of its handles and the new one have slots of their own. It grows for no other reason
and never shrinks.
-/

namespace CilProfiler

/-- Collision-free table from call handles to values. -/
structure SlotTable (α : Type) where
  slots : Array (Option (Handle × α))
  slots_pos : 0 < slots.size

namespace SlotTable

variable {α : Type}

def withLength (length : Nat) : SlotTable α where
  slots := Array.replicate (max length 1) none
  slots_pos := by rw [Array.size_replicate]; omega

def initialLength : Nat := 1

def empty : SlotTable α :=
  withLength initialLength

instance : Inhabited (SlotTable α) :=
  ⟨empty⟩

def width (table : SlotTable α) : Nat :=
  table.slots.size

def slotIndex (table : SlotTable α) (handle : Handle) : Nat :=
  handle.raw % table.width

def slot? (table : SlotTable α) (index : Nat) : Option (Handle × α) :=
  table.slots[index]?.join

def get? (table : SlotTable α) (handle : Handle) : Option α :=
  match table.slot? (table.slotIndex handle) with
  | some (stored, value) => if stored = handle then some value else none
  | none => none

/-- The slot of the handle is held by a different one. -/
def collides (table : SlotTable α) (handle : Handle) : Bool :=
  (table.slot? (table.slotIndex handle)).any (·.1 != handle)

def entries (table : SlotTable α) : List (Handle × α) :=
  table.slots.toList.filterMap id

def slotHandles (table : SlotTable α) : List (Option Handle) :=
  table.slots.toList.map (·.map Prod.fst)

def length (table : SlotTable α) : Nat :=
  table.entries.length

def isEmpty (table : SlotTable α) : Bool :=
  table.slots.all (·.isNone)

/-- Mark the slots of keys one after another; `false` as soon as a slot is marked already. -/
def marksDistinct (length : Nat) (taken : Array Bool) : List Nat → Bool
  | [] => true
  | key :: rest =>
    if taken[key % length]? = some true then false
    else marksDistinct length (taken.setIfInBounds (key % length) true) rest

/-- No two of the keys fall into one of `length` slots. -/
def separates (length : Nat) (keys : List Nat) : Bool :=
  marksDistinct length (Array.replicate length false) keys

/-- Smallest length from `length` on that separates the keys. The search ends at `bound`, which
    lies above every key: from there on each key is its own remainder. -/
def separatingLength (keys : List Nat) (bound length : Nat) : Nat :=
  if bound ≤ length ∨ separates length keys then length
  else separatingLength keys bound (length + 1)
termination_by bound - length

def put (table : SlotTable α) (handle : Handle) (value : α) : SlotTable α where
  slots := table.slots.setIfInBounds (table.slotIndex handle) (some (handle, value))
  slots_pos := by rw [Array.size_setIfInBounds]; exact table.slots_pos

/-- The smallest longer table in which the stored handles and the new one have slots of their
    own; the new one is not stored yet. -/
def grow (table : SlotTable α) (handle : Handle) : SlotTable α :=
  let keys := table.entries.map (·.1.raw) ++ [handle.raw]
  let bound := keys.foldl max 0 + 1
  let length := separatingLength keys bound (table.width + 1)
  table.entries.foldl (fun grown entry => grown.put entry.1 entry.2) (withLength length)

structure Found (α : Type) where
  value : α
  /-- The handle was not stored before. -/
  fresh : Bool
  table : SlotTable α

/-- Value of a handle; `initial` is stored for a handle that has none. -/
def findOrInsert (table : SlotTable α) (handle : Handle) (initial : α) : Found α :=
  let roomy := if table.collides handle then table.grow handle else table
  match roomy.get? handle with
  | some value => ⟨value, false, roomy⟩
  | none => ⟨initial, true, roomy.put handle initial⟩

def growthReport (before after : SlotTable α) : List LogLine :=
  if after.width = before.width then []
  else
    [⟨.debug, "Rebuilt handle table: " ++ after.length.repr ++ " handles in "
      ++ after.width.repr ++ " slots"⟩]

end SlotTable
end CilProfiler

import CilProfiler.Code.Error

/-! # Instruction lists

Instructions of one method body live in an arena and are addressed by handles, so that branch
operands stay valid when instructions move. An instruction is created unlinked and linked
afterwards; linked instructions know their neighbours and their byte offset.

Order, links and offsets say the same thing three times. Every edit repairs the links next to
the edited position and lays out the offsets from there on; nothing before it moves.
-/

namespace CilProfiler

structure Instruction where
  code : Opcode
  operand : Operand
  /-- Byte offset in the linked code; zero while unlinked. -/
  offset : Nat := 0
  previous : Option InstrId := none
  next : Option InstrId := none
  linked : Bool := false
  deriving Repr, DecidableEq

namespace Instruction

def token? (item : Instruction) : Option Token :=
  item.operand.token?

/-- Branch targets named by the operand; empty for what is no branch. -/
def targets (item : Instruction) : List InstrId :=
  item.operand.targets

def size (item : Instruction) : Nat :=
  item.code.size + item.operand.size item.code.operandType

def unlink (item : Instruction) : Instruction :=
  { item with offset := 0, previous := none, next := none, linked := false }

def link (previous next : Option InstrId) (item : Instruction) : Instruction :=
  { item with previous, next, linked := true }

end Instruction

/-- Every instruction created for one body, linked or not. -/
abbrev Arena := Array Instruction

namespace Arena

def update (arena : Arena) (id : InstrId) (change : Instruction → Instruction) : Arena :=
  arena.modify id.index change

def setNext (arena : Arena) (id next : Option InstrId) : Arena :=
  match id with
  | none => arena
  | some id => arena.update id ({ · with next })

def setPrevious (arena : Arena) (id previous : Option InstrId) : Arena :=
  match id with
  | none => arena
  | some id => arena.update id ({ · with previous })

def layOut (arena : Arena) (offset : Nat) : List InstrId → Arena
  | [] => arena
  | id :: rest =>
    match arena[id.index]? with
    | none => arena.layOut offset rest
    | some item => (arena.update id ({ · with offset })).layOut (offset + item.size) rest

end Arena

/-- Ordered, doubly linked instructions of one method body. -/
structure InstructionList where
  arena : Arena := #[]
  /-- Linked instructions, in code order. -/
  order : List InstrId := []
  deriving Repr, DecidableEq

namespace InstructionList

def empty : InstructionList := {}

def get? (list : InstructionList) (id : InstrId) : Option Instruction :=
  list.arena[id.index]?

def length (list : InstructionList) : Nat :=
  list.order.length

def at? (list : InstructionList) (index : Nat) : Option InstrId :=
  list.order[index]?

def position? (list : InstructionList) (id : InstrId) : Option Nat :=
  list.order.findIdx? (· == id)

def first? (list : InstructionList) : Option InstrId :=
  list.order.head?

def last? (list : InstructionList) : Option InstrId :=
  list.order.getLast?

def items (list : InstructionList) : List (InstrId × Instruction) :=
  list.order.filterMap fun id => (list.get? id).map (id, ·)

def codeSize (list : InstructionList) : Nat :=
  list.items.foldr (fun (_, item) size => item.size + size) 0

def requireUnlinked (list : InstructionList) (id : InstrId) : Except EditError Unit :=
  match list.get? id with
  | none => .error (.unknownInstruction id)
  | some item => if item.linked then .error (.alreadyLinked id) else .ok ()

/-- Handle of the linked instruction at a position that has to exist. -/
def requireLinked (list : InstructionList) (index : Nat) : Except EditError InstrId :=
  match list.at? index with
  | none => .error (.outOfRange index list.length)
  | some id => .ok id

/-- Offset at which the code from a position on starts: the end of the instruction before. -/
def startOffset (list : InstructionList) : Nat → Nat
  | 0 => 0
  | before + 1 =>
    match (list.at? before).bind list.get? with
    | none => 0
    | some item => item.offset + item.size

/-- Lay out the offsets again from a position on. -/
def layOutFrom (list : InstructionList) (index : Nat) : InstructionList :=
  { list with arena := list.arena.layOut (list.startOffset index) (list.order.drop index) }

/-- Create an unlinked instruction. Its operand has to fit the opcode, and its branch targets
    have to exist already; they need not be linked. -/
def create (list : InstructionList) (code : Opcode) (operand : Operand) :
    Except EditError (InstrId × InstructionList) := do
  operand.check code
  match operand.targets.find? (list.arena.size ≤ ·.index) with
  | some target => .error (.unknownTarget target)
  | none => .ok (⟨list.arena.size⟩, { list with arena := list.arena.push { code, operand } })

def append (list : InstructionList) (id : InstrId) : Except EditError InstructionList := do
  list.requireUnlinked id
  let previous := list.last?
  let arena := (list.arena.setNext previous (some id)).update id (Instruction.link previous none)
  return { arena, order := list.order ++ [id] : InstructionList }.layOutFrom list.length

def push (list : InstructionList) (code : Opcode) (operand : Operand) :
    Except EditError (InstrId × InstructionList) := do
  let (id, list) ← list.create code operand
  return (id, ← list.append id)

/-- Link an unlinked instruction before the one at a position; the position one past the last
    appends. -/
def insert (list : InstructionList) (index : Nat) (id : InstrId) :
    Except EditError InstructionList := do
  list.requireUnlinked id
  if list.length < index then
    .error (.outOfRange index list.length)
  else
    match list.at? index with
    | none => list.append id
    | some current =>
      let previous := (list.get? current).bind (·.previous)
      let arena :=
        ((list.arena.setNext previous (some id)).setPrevious (some current) (some id)).update id
          (Instruction.link previous (some current))
      return { arena, order := list.order.insertIdx index id : InstructionList }.layOutFrom index

/-- Put an unlinked instruction in the place of the one at a position, which becomes unlinked and
    is returned. -/
def replace (list : InstructionList) (index : Nat) (id : InstrId) :
    Except EditError (InstrId × InstructionList) := do
  list.requireUnlinked id
  let current ← list.requireLinked index
  let previous := (list.get? current).bind (·.previous)
  let next := (list.get? current).bind (·.next)
  let arena :=
    (((list.arena.setNext previous (some id)).setPrevious next (some id)).update id
      (Instruction.link previous next)).update current Instruction.unlink
  return (current,
    { arena, order := list.order.set index id : InstructionList }.layOutFrom index)

def remove (list : InstructionList) (index : Nat) :
    Except EditError (InstrId × InstructionList) := do
  let current ← list.requireLinked index
  let previous := (list.get? current).bind (·.previous)
  let next := (list.get? current).bind (·.next)
  let arena :=
    ((list.arena.setNext previous next).setPrevious next previous).update current Instruction.unlink
  return (current,
    { arena, order := list.order.eraseIdx index : InstructionList }.layOutFrom index)

end InstructionList
end CilProfiler

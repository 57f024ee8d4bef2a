import CilProfiler.Signature.Cursor

/-! # Parsing signature blobs

A method signature starts with its calling convention and its parameter count; the return type
and the parameter types follow. Types are walked over and not kept: only how many values a call
takes and whether it gives one back is asked for. A blob that announces more parameters than it
encodes is refused, and bytes after the last parameter are not read.

Types nest in each other up to a fixed depth. A function pointer type holds a whole signature,
whose types are two levels further down.
-/

namespace CilProfiler

/-- What follows the first byte of an encoded type. -/
inductive ElementKind where
  /-- Nothing. -/
  | simple
  /-- A token or an index of a generic parameter. -/
  | indexed
  /-- The element type of a pointer, reference, vector or pinned local. -/
  | wrapper
  /-- A token, and the type that the custom modifier applies to. -/
  | modifier
  /-- The generic type, the number of its arguments, and the arguments. -/
  | genericInstance
  /-- The element type, the rank, and two counted lists: sizes and lower bounds. -/
  | array
  /-- A whole method signature. -/
  | functionPointer
  deriving Repr, DecidableEq

def ElementKind.ofByte? (byte : UInt8) : Option ElementKind :=
  if 0x01 ≤ byte ∧ byte ≤ 0x0E then some .simple
  else if byte ∈ [0x16, 0x18, 0x19, 0x1C] then some .simple
  else if byte ∈ [0x11, 0x12, 0x13, 0x1E] then some .indexed
  else if byte ∈ [0x0F, 0x10, 0x1D, 0x45] then some .wrapper
  else if byte ∈ [0x1F, 0x20] then some .modifier
  else if byte = 0x15 then some .genericInstance
  else if byte = 0x14 then some .array
  else if byte = 0x1B then some .functionPointer
  else none

namespace Reader

/-- Element type that stands for no return value. -/
def void : UInt8 := 0x01

/-- Byte in front of the first parameter of the variable part; it is no parameter itself. -/
def sentinel : UInt8 := 0x41

def maxNesting : Nat := 64

/-- Walk over custom modifiers, each followed by a token. -/
def walkModifiers (cursor : Cursor) : Except BlobError (Unit × Cursor) :=
  match _there : cursor.rest with
  | [] => .error (.truncated cursor.position)
  | lead :: rest =>
    if ElementKind.ofByte? lead = some .modifier then
      match _taken : compressed ⟨cursor.position + 1, rest⟩ with
      | .error reason => .error reason
      | .ok (_, after) => walkModifiers after
    else .ok ((), cursor)
termination_by cursor.rest.length
decreasing_by
  have shorter : after.rest.length < rest.length := compressed_rest _taken
  simp only [_there, List.length_cons]
  omega

/-- Take the next byte if it is the given one, and tell whether it was. -/
def accept (expected : UInt8) : Reader Bool := do
  let next ← peek
  if next = expected then
    let _ ← byte
    return true
  else
    return false

/-- Read a method signature; `walkType` walks over a type nested in it. -/
def methodShape (walkType : Reader Unit) : Reader CallShape := do
  let convention ← byte
  if 0x05 < convention &&& 0x0F then
    fail (.notAMethodSignature convention)
  else
    if convention &&& 0x10 ≠ 0 then
      let _ ← compressed
    let paramCount ← compressed
    walkModifiers
    let isVoid ← accept void
    unless isVoid do
      walkType
    times
      (do
        let _ ← accept sentinel
        walkType)
      paramCount
    return {
      hasThis := convention &&& 0x20 ≠ 0
      explicitThis := convention &&& 0x40 ≠ 0
      paramCount
      hasReturn := !isVoid }

def walkCounted : Reader Unit := do
  let count ← compressed
  times (do let _ ← compressed) count

def walkType (depth : Nat) : Reader Unit := do
  let start ← position
  if maxNesting < depth then
    fail (.nestingTooDeep start)
  else
    let element ← byte
    match ElementKind.ofByte? element with
    | none => fail (.unknownElementType element start)
    | some .simple => return
    | some .indexed =>
      let _ ← compressed
    | some .wrapper => walkType (depth + 1)
    | some .modifier =>
      let _ ← compressed
      walkType (depth + 1)
    | some .genericInstance =>
      walkType (depth + 1)
      let count ← compressed
      times (walkType (depth + 1)) count
    | some .array =>
      walkType (depth + 1)
      let _ ← compressed
      walkCounted
      walkCounted
    | some .functionPointer =>
      let _ ← methodShape (walkType (depth + 2))
termination_by maxNesting + 1 - depth

end Reader

def CallShape.parse (blob : List UInt8) : Except BlobError CallShape :=
  if blob = [] then .error .empty
  else Prod.fst <$> Reader.methodShape (Reader.walkType 1) ⟨0, blob⟩

end CilProfiler

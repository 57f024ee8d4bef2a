import CilProfiler.Signature.Basic

/-! # Reading a signature blob

A cursor is a position in a blob together with the bytes that follow it. Readers take bytes
from the front; what they need beyond the end of the blob is reported at the end.
-/

namespace CilProfiler

/-- Position in a blob and the bytes from there on. -/
structure Cursor where
  position : Nat
  rest : List UInt8
  deriving Repr, DecidableEq

/-- A reader takes bytes from the cursor or fails. -/
abbrev Reader := StateT Cursor (Except BlobError)

namespace Reader

def position : Reader Nat := fun cursor =>
  .ok (cursor.position, cursor)

def fail {α : Type} (reason : BlobError) : Reader α := fun _ =>
  .error reason

/-- The next byte, left in place. -/
def peek : Reader UInt8 := fun cursor =>
  match cursor.rest with
  | [] => .error (.truncated cursor.position)
  | byte :: _ => .ok (byte, cursor)

def byte : Reader UInt8 := fun cursor =>
  match cursor.rest with
  | [] => .error (.truncated cursor.position)
  | byte :: rest => .ok (byte, ⟨cursor.position + 1, rest⟩)

/-- Take a compressed unsigned integer. The lead byte's top bits give the width: one byte with
    seven bits, two with fourteen, or four with twenty nine, the high bits first. -/
def compressed : Reader Nat := do
  let start ← position
  let lead ← byte
  if lead < 0x80 then
    return lead.toNat
  else if lead < 0xC0 then
    let b1 ← byte
    return lead.toNat % 0x40 * 0x100 + b1.toNat
  else if lead < 0xE0 then
    let b1 ← byte
    let b2 ← byte
    let b3 ← byte
    return ((lead.toNat % 0x20 * 0x100 + b1.toNat) * 0x100 + b2.toNat) * 0x100 + b3.toNat
  else
    fail (.invalidCompressedInteger lead start)

def times (read : Reader Unit) : Nat → Reader Unit
  | 0 => pure ()
  | count + 1 => do
    read
    times read count

end Reader

/-- A sequence of two readers succeeds through a cursor between them. -/
theorem Reader.bind_eq_ok {α β : Type} {first : Reader α} {next : α → Reader β}
    {cursor after : Cursor} {value : β} (taken : (first >>= next) cursor = .ok (value, after)) :
    ∃ a middle, first cursor = .ok (a, middle) ∧ next a middle = .ok (value, after) := by
  change (first cursor >>= fun p => next p.1 p.2) = _ at taken
  cases h : first cursor with
  | error e => rw [h] at taken; cases taken
  | ok p => rw [h] at taken; exact ⟨p.1, p.2, rfl, taken⟩

theorem Reader.byte_rest {cursor after : Cursor} {lead : UInt8}
    (taken : Reader.byte cursor = .ok (lead, after)) :
    cursor.rest.length = after.rest.length + 1 := by
  unfold Reader.byte at taken
  split at taken
  · contradiction
  · rename_i rest there
    cases taken
    simp [there]

theorem Reader.compressed_rest {cursor after : Cursor} {value : Nat}
    (taken : Reader.compressed cursor = .ok (value, after)) :
    after.rest.length < cursor.rest.length := by
  unfold Reader.compressed at taken
  obtain ⟨start, c0, h0, taken⟩ := bind_eq_ok taken
  cases h0
  obtain ⟨lead, c1, h1, taken⟩ := bind_eq_ok taken
  have s1 := byte_rest h1
  split at taken
  · cases taken; omega
  · split at taken
    · obtain ⟨b1, c2, h2, taken⟩ := bind_eq_ok taken
      have s2 := byte_rest h2
      cases taken; omega
    · split at taken
      · obtain ⟨b1, c2, h2, taken⟩ := bind_eq_ok taken
        obtain ⟨b2, c3, h3, taken⟩ := bind_eq_ok taken
        obtain ⟨b3, c4, h4, taken⟩ := bind_eq_ok taken
        have s2 := byte_rest h2
        have s3 := byte_rest h3
        have s4 := byte_rest h4
        cases taken; omega
      · cases taken

end CilProfiler

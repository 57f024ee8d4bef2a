import CilProfiler.Proofs.Signature.Prefixes

/-! # Records of parser runs

The parser once more, with a record of what it does on the way: each byte that it takes, each reader
that it calls and at which depth, and each pass of a loop whose count the blob announces. The record
is kept whether the run succeeds or fails. Without its record a run is that of the parser.
-/

namespace CilProfiler

inductive ReadEvent where
  /-- A byte has been taken. -/
  | byte
  /-- A compressed integer begins. -/
  | integer
  /-- A type begins. -/
  | type (depth : Nat)
  /-- A method signature begins. -/
  | signature (depth : Nat)
  /-- A pass of a counted loop is complete. -/
  | pass
  deriving Repr, DecidableEq

/-- Something that happened while the cursor was at a position. -/
structure Recorded where
  position : Nat
  event : ReadEvent
  deriving Repr, DecidableEq

abbrev ReadRecord := List Recorded

/-- A run of a reader, with its record. -/
structure Recording (α : Type) where
  record : ReadRecord
  outcome : Except BlobError (α × Cursor)

/-- A reader that keeps a record. -/
def Recorder (α : Type) : Type :=
  Cursor → Recording α

namespace Recorder

instance : Monad Recorder where
  pure value := fun cursor => ⟨[], .ok (value, cursor)⟩
  bind first next := fun cursor =>
    let start := first cursor
    match start.outcome with
    | .error reason => ⟨start.record, .error reason⟩
    | .ok (value, middle) =>
      let rest := next value middle
      ⟨start.record ++ rest.record, rest.outcome⟩

/-- A reader of which nothing is recorded. -/
def quiet {α : Type} (read : Reader α) : Recorder α := fun cursor =>
  ⟨[], read cursor⟩

def note (event : ReadEvent) : Recorder Unit := fun cursor =>
  ⟨[⟨cursor.position, event⟩], .ok ((), cursor)⟩

variable {α β : Type} {first : Recorder α} {next : α → Recorder β} {read : Reader α}
  {next' : α → Reader β} {cursor middle : Cursor}

theorem bind_of_ok {value : α} (done : (first cursor).outcome = .ok (value, middle)) :
    (first >>= next) cursor =
      ⟨(first cursor).record ++ (next value middle).record, (next value middle).outcome⟩ := by
  simp only [bind, done]

theorem bind_of_error {reason : BlobError} (failed : (first cursor).outcome = .error reason) :
    (first >>= next) cursor = ⟨(first cursor).record, .error reason⟩ := by
  simp only [bind, failed]

/-- Without its record, a run of the recorder is one of the reader. -/
def Records (recorder : Recorder α) (read : Reader α) : Prop :=
  ∀ cursor, (recorder cursor).outcome = read cursor

theorem records_quiet (read : Reader α) : (quiet read).Records read :=
  fun _ => rfl

theorem records_pure (value : α) : (pure value : Recorder α).Records (pure value) :=
  fun _ => rfl

theorem Records.bind (start : first.Records read) (rest : ∀ value, (next value).Records (next' value)) :
    (first >>= next).Records (read >>= next') := by
  intro cursor
  cases outcome : read cursor with
  | error reason =>
      rw [bind_of_error ((start cursor).trans outcome), Reader.bind_of_error outcome]
  | ok taken =>
      rw [bind_of_ok ((start cursor).trans outcome), Reader.bind_of_ok outcome]
      exact rest taken.1 taken.2

/-- A note does not show in the outcome. -/
theorem Records.noted {recorder : Recorder α} (records : recorder.Records read) (event : ReadEvent) :
    (note event >>= fun _ => recorder).Records read :=
  fun cursor => records cursor

theorem Records.ite {passed : Prop} [Decidable passed] {yes no : Recorder α} {yes' no' : Reader α}
    (left : yes.Records yes') (right : no.Records no') :
    (if passed then yes else no).Records (if passed then yes' else no') := by
  split
  · exact left
  · exact right

def byte : Recorder UInt8 := do
  let lead ← quiet Reader.byte
  note .byte
  return lead

def compressed : Recorder Nat := do
  note .integer
  let start ← quiet Reader.position
  let lead ← byte
  if lead < 0x80 then
    return lead.toNat
  else if lead < 0xC0 then
    let b1 ← byte
    return lead.toNat % 0x40 * 0x100 + b1.toNat
  else if lead < 0xE0 then
    let b1 ← byte
    let b2 ← byte
    let b3 ← byte
    return ((lead.toNat % 0x20 * 0x100 + b1.toNat) * 0x100 + b2.toNat) * 0x100 + b3.toNat
  else
    quiet (Reader.fail (.invalidCompressedInteger lead start))

def skip : Recorder Unit := do
  let _ ← compressed

/-- One pass of a loop. -/
def pass (read : Recorder Unit) : Recorder Unit := do
  read
  note .pass

def times (read : Recorder Unit) : Nat → Recorder Unit
  | 0 => pure ()
  | count + 1 => do
    pass read
    times read count

def accept (expected : UInt8) : Recorder Bool := do
  let next ← quiet Reader.peek
  if next = expected then
    let _ ← byte
    return true
  else
    return false

theorem records_byte : byte.Records Reader.byte := by
  intro cursor
  have start := records_quiet Reader.byte cursor
  cases taken : Reader.byte cursor with
  | error reason => rw [byte, bind_of_error (start.trans taken)]
  | ok result =>
      rw [byte, bind_of_ok (start.trans taken)]
      rfl

theorem records_compressed : compressed.Records Reader.compressed :=
  .noted (.bind (records_quiet _) fun _ => .bind records_byte fun _ =>
    .ite (records_pure _) <| .ite (.bind records_byte fun _ => records_pure _) <|
    .ite (.bind records_byte fun _ => .bind records_byte fun _ => .bind records_byte fun _ =>
      records_pure _) (records_quiet _)) .integer

theorem records_skip : skip.Records (do let _ ← Reader.compressed) :=
  records_compressed.bind fun _ => records_pure _

theorem records_accept (expected : UInt8) : (accept expected).Records (Reader.accept expected) :=
  (records_quiet _).bind fun _ => .ite (records_byte.bind fun _ => records_pure _) (records_pure _)

theorem Records.pass {walk : Recorder Unit} {walk' : Reader Unit} (records : walk.Records walk') :
    walk.pass.Records walk' := by
  intro cursor
  cases outcome : walk' cursor with
  | error reason => rw [Recorder.pass, bind_of_error ((records cursor).trans outcome)]
  | ok taken => rw [Recorder.pass, bind_of_ok ((records cursor).trans outcome)]; rfl

theorem Records.times {walk : Recorder Unit} {walk' : Reader Unit} (records : walk.Records walk')
    (count : Nat) : (walk.times count).Records (walk'.times count) := by
  induction count with
  | zero => exact records_pure ()
  | succ count ih => exact records.pass.bind fun _ => ih

/-- A custom modifier: its first byte and its token. -/
def modifier : Recorder Unit := do
  let _ ← byte
  skip

theorem records_modifier (position : Nat) (lead : UInt8) (rest : List UInt8) :
    (modifier ⟨position, lead :: rest⟩).outcome =
      (do let _ ← Reader.compressed : Reader Unit) ⟨position + 1, rest⟩ :=
  records_byte.bind (fun _ => records_skip) _

theorem modifier_rest {cursor after : Cursor} (taken : (modifier cursor).outcome = .ok ((), after)) :
    after.rest.length < cursor.rest.length := by
  obtain ⟨position, rest⟩ := cursor
  cases rest with
  | nil => cases taken
  | cons lead rest =>
      rw [records_modifier] at taken
      obtain ⟨value, middle, read, same⟩ := Reader.bind_eq_ok taken
      cases same
      exact Nat.lt_succ_of_lt (Reader.compressed_rest read)

def modifiers : Recorder Unit := fun cursor =>
  match cursor.rest with
  | [] => ⟨[], .error (.truncated cursor.position)⟩
  | lead :: _ =>
    if ElementKind.ofByte? lead = some .modifier then
      let start := modifier cursor
      match _taken : start.outcome with
      | .error reason => ⟨start.record, .error reason⟩
      | .ok (_, after) =>
        let rest := modifiers after
        ⟨start.record ++ rest.record, rest.outcome⟩
    else ⟨[], .ok ((), cursor)⟩
termination_by cursor => cursor.rest.length
decreasing_by exact modifier_rest _taken

theorem modifiers_modifier {position : Nat} {lead : UInt8}
    (named : ElementKind.ofByte? lead = some .modifier) (rest : List UInt8) :
    modifiers ⟨position, lead :: rest⟩ =
      (modifier >>= fun _ => modifiers) ⟨position, lead :: rest⟩ := by
  rw [modifiers]
  simp only [if_pos named]
  split
  · rename_i failed
    exact (bind_of_error failed).symm
  · rename_i taken
    rw [bind_of_ok taken]

theorem modifiers_plain {position : Nat} {lead : UInt8}
    (plain : ElementKind.ofByte? lead ≠ some .modifier) (rest : List UInt8) :
    modifiers ⟨position, lead :: rest⟩ = ⟨[], .ok ((), ⟨position, lead :: rest⟩)⟩ := by
  rw [modifiers]
  simp only [if_neg plain]

theorem records_modifiers (cursor : Cursor) :
    (modifiers cursor).outcome = Reader.walkModifiers cursor := by
  obtain ⟨position, rest⟩ := cursor
  cases rest with
  | nil => rw [modifiers, Reader.walkModifiers]
  | cons lead rest =>
      by_cases named : ElementKind.ofByte? lead = some .modifier
      · rw [modifiers_modifier named, Reader.walkModifiers_modifier named]
        have token := records_modifier position lead rest
        cases read : Reader.compressed ⟨position + 1, rest⟩ with
        | error reason =>
            rw [Reader.bind_of_error read] at token
            rw [bind_of_error token, Reader.bind_of_error read]
        | ok taken =>
            rw [Reader.bind_of_ok read] at token
            rw [bind_of_ok token, Reader.bind_of_ok read]
            have shorter : taken.2.rest.length < rest.length := Reader.compressed_rest read
            exact records_modifiers taken.2
      · rw [modifiers_plain named, Reader.walkModifiers_plain named]
termination_by cursor.rest.length
decreasing_by exact Nat.lt_succ_of_lt shorter

def generics (convention : UInt8) : Recorder Unit :=
  if convention &&& 0x10 ≠ 0 then skip else pure ()

def result (walk : Recorder Unit) : Recorder Bool := do
  modifiers
  let isVoid ← accept Reader.void
  unless isVoid do
    walk
  return isVoid

def parameter (walk : Recorder Unit) : Recorder Unit := do
  let _ ← accept Reader.sentinel
  walk

/-- A signature at a depth; `walk` is the reader of the types in it. -/
def signature (depth : Nat) (walk : Recorder Unit) : Recorder CallShape := do
  note (.signature depth)
  let convention ← byte
  if 0x05 < convention &&& 0x0F then
    quiet (Reader.fail (.notAMethodSignature convention))
  else
    generics convention
    let paramCount ← compressed
    let isVoid ← result walk
    times (parameter walk) paramCount
    return {
      hasThis := convention &&& 0x20 ≠ 0
      explicitThis := convention &&& 0x40 ≠ 0
      paramCount
      hasReturn := !isVoid }

def counted : Recorder Unit := do
  let count ← compressed
  times skip count

/-- What follows the first byte of a type at a depth; `nested` and `deeper` read the types one and two
    levels further down. -/
def operand (depth : Nat) (nested deeper : Recorder Unit) : ElementKind → Recorder Unit
  | .simple => pure ()
  | .indexed => skip
  | .wrapper => nested
  | .modifier => do
    let _ ← compressed
    nested
  | .genericInstance => do
    nested
    let count ← compressed
    times nested count
  | .array => do
    nested
    let _ ← compressed
    counted
    counted
  | .functionPointer => do
    let _ ← signature (depth + 1) deeper

def type (depth : Nat) : Recorder Unit := do
  note (.type depth)
  let start ← quiet Reader.position
  if Reader.maxNesting < depth then
    quiet (Reader.fail (.nestingTooDeep start))
  else
    let element ← byte
    match ElementKind.ofByte? element with
    | none => quiet (Reader.fail (.unknownElementType element start))
    | some kind => operand depth (type (depth + 1)) (type (depth + 2)) kind
termination_by Reader.maxNesting + 1 - depth

theorem records_generics (convention : UInt8) :
    (generics convention).Records (Reader.generics convention) :=
  .ite records_skip (records_pure ())

theorem records_counted : counted.Records Reader.walkCounted :=
  records_compressed.bind fun count => records_skip.times count

section Nested

variable {walk : Recorder Unit} {walk' : Reader Unit} (records : walk.Records walk')

include records

theorem records_result : (result walk).Records (Reader.result walk') := by
  refine Records.bind records_modifiers fun _ => (records_accept _).bind fun isVoid => ?_
  cases isVoid with
  | true => exact (records_pure ()).bind fun _ => records_pure _
  | false => exact records.bind fun _ => records_pure _

theorem records_signature (depth : Nat) : (signature depth walk).Records (Reader.methodShape walk') := by
  rw [Reader.methodShape_eq]
  exact .noted (.bind records_byte fun convention => .ite (records_quiet _) <|
    .bind (records_generics convention) fun _ => .bind records_compressed fun count =>
    .bind (records_result records) fun _ =>
    .bind (((records_accept _).bind fun _ => records).times count) fun _ => records_pure _) _

end Nested

theorem records_operand {depth : Nat} {nested deeper : Recorder Unit}
    (near : nested.Records (Reader.walkType (depth + 1)))
    (far : deeper.Records (Reader.walkType (depth + 2))) (kind : ElementKind) :
    (operand depth nested deeper kind).Records (Reader.walkOperand depth kind) := by
  cases kind with
  | simple => exact records_pure ()
  | indexed => exact records_skip
  | wrapper => exact near
  | modifier => exact records_compressed.bind fun _ => near
  | genericInstance => exact near.bind fun _ => records_compressed.bind fun count => near.times count
  | array =>
      exact near.bind fun _ => records_compressed.bind fun _ => records_counted.bind
        fun _ => records_counted
  | functionPointer => exact (records_signature far _).bind fun _ => records_pure ()

theorem records_type (depth : Nat) : (type depth).Records (Reader.walkType depth) := by
  rw [type, Reader.walkType_eq]
  refine .noted (.bind (records_quiet _) fun start => ?_) _
  by_cases deep : Reader.maxNesting < depth
  · rw [if_pos deep, if_pos deep]
    exact records_quiet _
  · rw [if_neg deep, if_neg deep]
    refine .bind records_byte fun element => ?_
    cases ElementKind.ofByte? element with
    | none => exact records_quiet _
    | some kind => exact records_operand (records_type (depth + 1)) (records_type (depth + 2)) kind
termination_by Reader.maxNesting + 1 - depth

end Recorder

namespace CallShape

/-- The run of the parser on a blob. -/
def recording (blob : List UInt8) : Recording CallShape :=
  if blob = [] then ⟨[], .error .empty⟩ else Recorder.signature 0 (Recorder.type 1) ⟨0, blob⟩

theorem outcome_recording (blob : List UInt8) :
    Prod.fst <$> (recording blob).outcome = parse blob := by
  unfold recording
  split
  · rename_i empty
    rw [parse, if_pos empty]
    rfl
  · rename_i filled
    rw [parse_eq filled, read, Recorder.records_signature (Recorder.records_type 1)]

end CallShape
end CilProfiler

import CilProfiler.Proofs.Signature.Record
import Mathlib.Tactic.Common

/-! # Progress of the parser

Counts in a blob are not trusted: a parser that is told of half a billion parameters reads them one by
one and stops at the end of the blob. Each call of a reader and each pass of a counted loop is paid
with a byte of its own, so that no run makes more calls or passes than there are bytes, whatever the
blob announces. Only the call in which a run ends may stand there without a byte.
-/

namespace CilProfiler

/-- Depth of the type or signature that begins. -/
def ReadEvent.depth? : ReadEvent → Option Nat
  | .type depth | .signature depth => some depth
  | _ => none

def ReadEvent.isCall : ReadEvent → Bool
  | .integer | .type _ | .signature _ => true
  | _ => false

namespace ReadRecord

/-- Calls of readers. -/
def calls (record : ReadRecord) : Nat :=
  record.countP (·.event.isCall)

/-- Complete passes of loops. -/
def passes (record : ReadRecord) : Nat :=
  record.countP (·.event == .pass)

variable (record more : ReadRecord)

@[simp] theorem calls_append : calls (record ++ more) = record.calls + more.calls :=
  List.countP_append

@[simp] theorem passes_append : passes (record ++ more) = record.passes + more.passes :=
  List.countP_append

end ReadRecord

/-- What happens is within the blob and not too deep. -/
def Within (cursor : Cursor) (record : ReadRecord) : Prop :=
  ∀ entry ∈ record, entry.position ≤ cursor.position + cursor.rest.length ∧
    ∀ depth ∈ entry.event.depth?, depth ≤ 66

/-- A run from the cursor pays for its calls and passes with the bytes that it takes, and leaves bytes
    for a further call or pass. Where it fails, the byte at which it does so is missing. -/
structure Recording.Paid {α : Type} (run : Recording α) (cursor : Cursor) (call loop : Nat) : Prop where
  within : Within cursor run.record
  taken : ∀ value after, run.outcome = .ok (value, after) →
    ∃ bytes, cursor.Takes bytes after ∧ run.record.calls + call ≤ bytes.length ∧
      run.record.passes + loop ≤ bytes.length
  failed : ∀ reason, run.outcome = .error reason →
    run.record.calls + call ≤ cursor.rest.length + 1 ∧
      run.record.passes + loop ≤ cursor.rest.length + 1

theorem within_nil (cursor : Cursor) : Within cursor [] :=
  fun _ member => absurd member List.not_mem_nil

/-- Bytes and passes are at no depth. -/
theorem within_singleton {cursor : Cursor} {entry : Recorded}
    (inside : entry.position ≤ cursor.position + cursor.rest.length)
    (flat : entry.event.depth? = none) : Within cursor [entry] := by
  refine List.forall_mem_singleton.mpr ⟨inside, fun depth deep => ?_⟩
  rw [flat] at deep
  cases deep

theorem within_append {cursor : Cursor} {record more : ReadRecord} (start : Within cursor record)
    (rest : Within cursor more) : Within cursor (record ++ more) :=
  fun entry member => (List.mem_append.mp member).elim (start entry) (rest entry)

/-- What is within the rest of a blob is within the blob. -/
theorem Within.behind {cursor middle : Cursor} {bytes : List UInt8} {record : ReadRecord}
    (within : Within middle record) (takes : cursor.Takes bytes middle) : Within cursor record := by
  intro entry member
  obtain ⟨inside, shallow⟩ := within entry member
  refine ⟨?_, shallow⟩
  rwa [takes.position, Nat.add_assoc, ← List.length_append, ← takes.rest] at inside

namespace Recording

variable {α : Type} {cursor after : Cursor} {record : ReadRecord} {bytes : List UInt8} {call loop : Nat}

theorem paid_ok {value : α} (within : Within cursor record) (takes : cursor.Takes bytes after)
    (called : record.calls + call ≤ bytes.length) (passed : record.passes + loop ≤ bytes.length) :
    Paid ⟨record, .ok (value, after)⟩ cursor call loop where
  within := within
  taken value after done := by
    cases done
    exact ⟨bytes, takes, called, passed⟩
  failed reason failed := by cases failed

theorem paid_error {reason : BlobError} (within : Within cursor record)
    (called : record.calls + call ≤ cursor.rest.length + 1)
    (passed : record.passes + loop ≤ cursor.rest.length + 1) :
    Paid (⟨record, .error reason⟩ : Recording α) cursor call loop where
  within := within
  taken value after done := by cases done
  failed _ _ := ⟨called, passed⟩

end Recording

namespace Recorder

open Recording (paid_ok paid_error)

variable {α β : Type} {recorder first : Recorder α} {next : α → Recorder β} {walk : Recorder Unit}
  {cursor : Cursor} {call loop c l depth : Nat}

def Paid (recorder : Recorder α) (call loop : Nat) : Prop :=
  ∀ cursor, (recorder cursor).Paid cursor call loop

/-- What the first reader leaves is left behind the second one. -/
theorem paid_bind (start : (first cursor).Paid cursor call loop)
    (rest : ∀ value middle, (first cursor).outcome = .ok (value, middle) →
      (next value middle).Paid middle c l) :
    ((first >>= next) cursor).Paid cursor call loop := by
  cases outcome : (first cursor).outcome with
  | error reason =>
      rw [bind_of_error outcome]
      obtain ⟨called, passed⟩ := start.failed reason outcome
      exact paid_error start.within called passed
  | ok result =>
      rw [bind_of_ok outcome]
      obtain ⟨bytes, takes, called, passed⟩ := start.taken _ _ outcome
      have paid := rest _ _ outcome
      have length := congrArg List.length takes.rest
      rw [List.length_append] at length
      refine ⟨within_append start.within (paid.within.behind takes), fun value after done => ?_,
        fun reason failed => ?_⟩
      · obtain ⟨bytes', takes', called', passed'⟩ := paid.taken value after done
        refine ⟨bytes ++ bytes', Cursor.takes_append.mpr ⟨_, takes, takes'⟩, ?_⟩
        simp only [ReadRecord.calls_append, ReadRecord.passes_append, List.length_append]
        omega
      · have := paid.failed reason failed
        simp only [ReadRecord.calls_append, ReadRecord.passes_append]
        omega

/-- A reader pays for being called with its first byte. -/
theorem paid_noted {event : ReadEvent} (paid : (recorder cursor).Paid cursor 1 loop)
    (called : event.isCall = true) (shallow : ∀ depth ∈ event.depth?, depth ≤ 66) :
    ((note event >>= fun _ => recorder) cursor).Paid cursor 0 loop := by
  have run : (note event >>= fun _ => recorder) cursor =
      ⟨⟨cursor.position, event⟩ :: (recorder cursor).record, (recorder cursor).outcome⟩ := rfl
  have calls : ∀ record : ReadRecord,
      ReadRecord.calls (⟨cursor.position, event⟩ :: record) = record.calls + 1 :=
    fun record => List.countP_cons_of_pos called
  have passes : ∀ record : ReadRecord,
      ReadRecord.passes (⟨cursor.position, event⟩ :: record) = record.passes := by
    intro record
    refine List.countP_cons_of_neg fun same => ?_
    obtain rfl : event = .pass := eq_of_beq same
    cases called
  rw [run]
  refine ⟨?_, fun value after done => ?_, fun reason failed => ?_⟩
  · exact List.forall_mem_cons.mpr ⟨⟨Nat.le_add_right _ _, shallow⟩, paid.within⟩
  · obtain ⟨bytes, takes, called, passed⟩ := paid.taken value after done
    simp only [calls, passes]
    exact ⟨bytes, takes, by omega, passed⟩
  · have := paid.failed reason failed
    simp only [calls, passes]
    omega

theorem Paid.bind (start : first.Paid call loop) (rest : ∀ value, (next value).Paid c l) :
    (first >>= next).Paid call loop :=
  fun cursor => paid_bind (start cursor) fun value middle _ => rest value middle

/-- Bytes that are left need not be spent. -/
theorem Paid.weaken (paid : recorder.Paid call loop) (fewer : c ≤ call) (fewer' : l ≤ loop) :
    recorder.Paid c l := by
  intro cursor
  refine ⟨(paid cursor).within, fun value after done => ?_, fun reason failed => ?_⟩
  · obtain ⟨bytes, takes, called, passed⟩ := (paid cursor).taken value after done
    exact ⟨bytes, takes, by omega, by omega⟩
  · have := (paid cursor).failed reason failed
    omega

theorem Paid.free (paid : recorder.Paid call loop) : recorder.Paid 0 0 :=
  paid.weaken (Nat.zero_le call) (Nat.zero_le loop)

theorem pure_paid (value : α) : (pure value : Recorder α).Paid 0 0 := fun cursor =>
  paid_ok (within_nil cursor) (Cursor.takes_nil.mpr rfl) (Nat.le_refl 0) (Nat.le_refl 0)

theorem fail_paid (reason : BlobError) : (quiet (Reader.fail reason) : Recorder α).Paid 1 1 :=
  fun cursor => paid_error (within_nil cursor) (Nat.le_add_left 1 _) (Nat.le_add_left 1 _)

theorem byte_paid : byte.Paid 1 1
  | ⟨_, []⟩ => paid_error (within_nil _) (Nat.le_refl 1) (Nat.le_refl 1)
  | ⟨position, lead :: rest⟩ =>
      have takes : Cursor.Takes ⟨position, lead :: rest⟩ [lead] ⟨position + 1, rest⟩ := ⟨rfl, rfl⟩
      have behind := Nat.add_le_add_left (Nat.succ_le_of_lt (Nat.succ_pos rest.length)) position
      paid_ok (within_singleton behind rfl) takes (Nat.le_refl 1) (Nat.le_refl 1)

theorem compressed_paid : compressed.Paid 0 1 := by
  intro cursor
  refine paid_noted (byte_paid.bind (c := 0) (l := 0) (fun lead => ?_) cursor) rfl nofun
  split
  · exact pure_paid _
  · split
    · exact (byte_paid.bind fun _ => pure_paid _).free
    · split
      · exact (byte_paid.bind fun _ => byte_paid.bind fun _ => byte_paid.bind fun _ => pure_paid _).free
      · exact (fail_paid _).free

theorem skip_paid : skip.Paid 0 1 :=
  compressed_paid.bind fun _ => pure_paid ()

theorem Paid.pass (paid : walk.Paid call 1) : walk.pass.Paid call 0 := by
  intro cursor
  cases outcome : (walk cursor).outcome with
  | error reason =>
      rw [Recorder.pass, bind_of_error outcome]
      obtain ⟨called, passed⟩ := (paid cursor).failed reason outcome
      exact paid_error (paid cursor).within called (Nat.le_of_succ_le passed)
  | ok result =>
      rw [Recorder.pass, bind_of_ok outcome]
      obtain ⟨bytes, takes, called, passed⟩ := (paid cursor).taken _ _ outcome
      have here : Within result.2 [⟨result.2.position, .pass⟩] :=
        within_singleton (Nat.le_add_right _ _) rfl
      refine paid_ok (within_append (paid cursor).within (here.behind takes)) takes ?_ ?_
      · rwa [ReadRecord.calls_append]
      · rwa [ReadRecord.passes_append]

theorem Paid.times (paid : walk.Paid 0 1) (count : Nat) : (walk.times count).Paid 0 0 := by
  induction count with
  | zero => exact pure_paid ()
  | succ count ih => exact paid.pass.bind fun _ => ih

theorem accept_cons (expected lead : UInt8) (position : Nat) (rest : List UInt8) :
    accept expected ⟨position, lead :: rest⟩ =
      if lead = expected then (byte >>= fun _ => pure true) ⟨position, lead :: rest⟩
      else ⟨[], .ok (false, ⟨position, lead :: rest⟩)⟩ := by
  change (if lead = expected then do
      let _ ← byte
      return true
    else
      return false : Recorder Bool) ⟨position, lead :: rest⟩ = _
  split <;> rfl

theorem accept_paid (expected : UInt8) : (accept expected).Paid 0 0
  | ⟨position, []⟩ => paid_error (within_nil _) (Nat.zero_le 1) (Nat.zero_le 1)
  | ⟨position, lead :: rest⟩ => by
      rw [accept_cons]
      split
      · exact (byte_paid.bind fun _ => pure_paid true).free _
      · exact pure_paid false _

theorem modifier_paid : modifier.Paid 1 1 :=
  byte_paid.bind fun _ => skip_paid

theorem modifiers_paid (cursor : Cursor) : (modifiers cursor).Paid cursor 0 0 := by
  obtain ⟨position, rest⟩ := cursor
  cases rest with
  | nil =>
      rw [modifiers]
      exact paid_error (within_nil _) (Nat.zero_le 1) (Nat.zero_le 1)
  | cons lead rest =>
      by_cases named : ElementKind.ofByte? lead = some .modifier
      · rw [modifiers_modifier named]
        refine paid_bind (c := 0) (l := 0) (modifier_paid.free _) fun _ middle taken => ?_
        have shorter := modifier_rest taken
        exact modifiers_paid middle
      · rw [modifiers_plain named]
        exact pure_paid () _
termination_by cursor.rest.length
decreasing_by exact shorter

theorem counted_paid : counted.Paid 0 1 :=
  compressed_paid.bind fun count => skip_paid.times count

theorem generics_paid (convention : UInt8) : (generics convention).Paid 0 0 := by
  unfold generics
  split
  · exact skip_paid.free
  · exact pure_paid ()

section Nested

variable (walks : walk.Paid 0 1)

include walks

theorem result_paid : (result walk).Paid 0 0 := by
  refine Paid.bind modifiers_paid fun _ => (accept_paid Reader.void).bind (c := 0) (l := 0)
    fun isVoid => ?_
  cases isVoid with
  | true => exact (pure_paid ()).bind fun _ => pure_paid _
  | false => exact (walks.bind fun _ => pure_paid _).free

/-- The byte in front of a parameter pays for no pass. -/
theorem parameter_paid : (parameter walk).Paid 0 1
  | ⟨position, []⟩ => paid_error (within_nil _) (Nat.zero_le 1) (Nat.le_refl 1)
  | ⟨position, lead :: rest⟩ => by
      have looked := accept_cons Reader.sentinel lead position rest
      split at looked
      · have start : (accept Reader.sentinel ⟨position, lead :: rest⟩).Paid ⟨position, lead :: rest⟩ 0 1 := by
          rw [looked]
          exact ((byte_paid.bind fun _ => pure_paid true).weaken (Nat.zero_le 1) (Nat.le_refl 1)) _
        exact paid_bind start fun _ middle _ => walks middle
      · have plain : parameter walk ⟨position, lead :: rest⟩ = walk ⟨position, lead :: rest⟩ := by
          rw [parameter, bind_of_ok (congrArg Recording.outcome looked), looked]
          rfl
        rw [plain]
        exact walks _

theorem signature_paid (shallow : depth ≤ 66) : (signature depth walk).Paid 0 1 := by
  intro cursor
  refine paid_noted (byte_paid.bind (c := 0) (l := 0) (fun convention => ?_) cursor) rfl ?_
  · split
    · exact (fail_paid _).free
    · exact (generics_paid convention).bind fun _ => compressed_paid.bind fun count =>
        (result_paid walks).bind fun _ => ((parameter_paid walks).times count).bind fun _ => pure_paid _
  · rintro other ⟨⟩
    exact shallow

end Nested

theorem operand_paid {nested deeper : Recorder Unit} (near : nested.Paid 0 1) (far : deeper.Paid 0 1)
    (shallow : depth + 1 ≤ 66) (kind : ElementKind) : (operand depth nested deeper kind).Paid 0 0 := by
  cases kind with
  | simple => exact pure_paid ()
  | indexed => exact skip_paid.free
  | wrapper => exact near.free
  | modifier => exact (compressed_paid.bind fun _ => near).free
  | genericInstance =>
      exact (near.bind fun _ => compressed_paid.bind fun count => near.times count).free
  | array =>
      exact (near.bind fun _ => compressed_paid.bind fun _ => counted_paid.bind
        fun _ => counted_paid).free
  | functionPointer => exact ((signature_paid far shallow).bind fun _ => pure_paid ()).free

/-- Types call each other up to two levels below the deepest one that is read. -/
theorem type_paid {depth : Nat} (shallow : depth ≤ 66) : (type depth).Paid 0 1 := by
  intro cursor
  have opens : ∀ other ∈ (ReadEvent.type depth).depth?, other ≤ 66 := by
    rintro other ⟨⟩
    exact shallow
  rw [type]
  refine paid_noted ?_ rfl opens
  change ((if _ then _ else _ : Recorder Unit) cursor).Paid cursor 1 1
  split
  · exact fail_paid _ cursor
  · rename_i nested
    have level : depth ≤ 64 := Nat.not_lt.mp nested
    have near : depth + 1 ≤ 66 := by omega
    have far : depth + 2 ≤ 66 := by omega
    refine byte_paid.bind (c := 0) (l := 0) (fun element => ?_) cursor
    split
    · exact (fail_paid _).free
    · rename_i kind _
      exact operand_paid (type_paid near) (type_paid far) near kind
termination_by 67 - depth

end Recorder

theorem Compressed.length_bytes_pos (form : Compressed) : 0 < form.bytes.length := by
  cases form with
  | short | medium | long => exact Nat.succ_pos _

namespace Derivation

variable {depth count : Nat}

/-- A parameter takes a byte at least. -/
theorem le_length_parameters (derivation : Derivation (.parameters depth count)) :
    count ≤ derivation.bytes.length := by
  induction count with
  | zero => exact Nat.zero_le _
  | succ count ih =>
      cases derivation with
      | moreParameters sentinel first rest =>
          obtain ⟨element, tail, head, _⟩ := first.type_bytes
          have few := ih rest
          simp only [bytes, head, List.length_append, List.length_cons]
          omega

/-- Convention, count and result take a byte each, beside the parameters. -/
theorem paramCount_add_three_le (derivation : Derivation (.signature depth)) :
    derivation.shape.paramCount + 3 ≤ derivation.bytes.length := by
  cases derivation with
  | signature convention method generics generic count modifiers result parameters =>
      obtain ⟨next, tail, head⟩ := result.result_bytes
      have counted := count.length_bytes_pos
      have few := parameters.le_length_parameters
      simp only [shape, bytes, head, List.length_append, List.length_cons]
      omega

end Derivation

namespace Reader

variable {α : Type} {cursor after : Cursor} {bytes : List UInt8}

/-- A reader that succeeds has moved on, and not beyond the end of the blob. -/
def Advances (read : Reader α) : Prop :=
  ∀ cursor value after, read cursor = .ok (value, after) →
    cursor.position < after.position ∧ after.position ≤ cursor.position + cursor.rest.length

theorem advance_of_takes (takes : cursor.Takes bytes after) (filled : 0 < bytes.length) :
    cursor.position < after.position ∧ after.position ≤ cursor.position + cursor.rest.length := by
  rw [takes.position, takes.rest, List.length_append]
  omega

theorem compressed_advances : compressed.Advances := by
  intro cursor value after taken
  obtain ⟨form, takes, _⟩ := form_of_compressed taken
  exact advance_of_takes takes form.length_bytes_pos

theorem walkType_advances (depth : Nat) : (walkType depth).Advances := by
  intro cursor value after taken
  obtain ⟨derivation, takes⟩ := (walkType_walks depth cursor after).mp taken
  obtain ⟨element, tail, head, _⟩ := derivation.type_bytes
  exact advance_of_takes takes (by rw [head]; exact Nat.succ_pos _)

theorem methodShape_advances (depth : Nat) : (methodShape (walkType (depth + 1))).Advances := by
  intro cursor shape after taken
  obtain ⟨derivation, takes, _⟩ := (methodShape_eq_ok (walkType_walks (depth + 1))).mp taken
  have long := derivation.paramCount_add_three_le
  exact advance_of_takes takes (by omega)

end Reader

namespace CallShape

variable {blob : List UInt8}

theorem recording_paid (filled : blob ≠ []) : (recording blob).Paid ⟨0, blob⟩ 0 1 := by
  rw [recording, if_neg filled]
  exact Recorder.signature_paid (Recorder.type_paid (by decide)) (by decide) ⟨0, blob⟩

theorem within_recording (blob : List UInt8) : Within ⟨0, blob⟩ (recording blob).record := by
  by_cases filled : blob ≠ []
  · exact (recording_paid filled).within
  · rw [recording, if_pos (not_not.mp filled)]
    exact within_nil _

/-- The first byte pays for no pass, and a run that fails for want of a byte ends there. -/
theorem calls_passes_recording (blob : List UInt8) :
    (recording blob).record.calls ≤ blob.length + 1 ∧ (recording blob).record.passes ≤ blob.length := by
  by_cases filled : blob ≠ []
  · have paid := recording_paid filled
    cases outcome : (recording blob).outcome with
    | error reason =>
        obtain ⟨called, passed⟩ := paid.failed reason outcome
        exact ⟨called, Nat.le_of_succ_le_succ passed⟩
    | ok result =>
        obtain ⟨bytes, takes, called, passed⟩ := paid.taken _ _ outcome
        have length : blob.length = bytes.length + result.2.rest.length :=
          (congrArg List.length takes.rest).trans List.length_append
        omega
  · rw [recording, if_pos (not_not.mp filled)]
    exact ⟨Nat.zero_le _, Nat.zero_le _⟩

theorem paramCount_le_of_parse {shape : CallShape} (parsed : parse blob = .ok shape) :
    shape.paramCount + 3 ≤ blob.length := by
  obtain ⟨after, taken⟩ := parse_eq_ok_iff.mp parsed
  obtain ⟨derivation, takes, rfl⟩ := (Reader.methodShape_eq_ok (Reader.walkType_walks 1)).mp taken
  have length : blob.length = derivation.bytes.length + after.rest.length :=
    (congrArg List.length takes.rest).trans List.length_append
  have long := derivation.paramCount_add_three_le
  omega

/-- Every run of the parser comes to an end after no more calls than there are bytes, and one. It
    never leaves the blob and never goes deeper than two levels below the deepest type that is read.
    Each reader that succeeds has moved on. All loops together complete no more passes than there are
    bytes, whatever counts are announced, and the count of an accepted signature is one of parameters
    that are there. -/
theorem parse_progress (blob : List UInt8) :
    let run := recording blob
    Prod.fst <$> run.outcome = parse blob ∧
      (∀ entry ∈ run.record, entry.position ≤ blob.length ∧
        ∀ depth ∈ entry.event.depth?, depth ≤ 66) ∧
      run.record.calls ≤ blob.length + 1 ∧
      run.record.passes ≤ blob.length ∧
      Reader.compressed.Advances ∧
      (∀ depth, (Reader.walkType depth).Advances) ∧
      (∀ depth, (Reader.methodShape (Reader.walkType (depth + 1))).Advances) ∧
      ∀ shape, parse blob = .ok shape → shape.paramCount + 3 ≤ blob.length := by
  intro run
  obtain ⟨called, passed⟩ := calls_passes_recording blob
  refine ⟨outcome_recording blob, fun entry member => ?_, called, passed, Reader.compressed_advances,
    Reader.walkType_advances, Reader.methodShape_advances, fun shape => paramCount_le_of_parse⟩
  obtain ⟨inside, shallow⟩ := within_recording blob entry member
  rw [Nat.zero_add] at inside
  exact ⟨inside, shallow⟩

/-- A pointer, and function pointers in each other behind it, each the result of the next one. -/
def nestedBlob : List UInt8 :=
  [0x00, 0x00, 0x0F] ++ (List.replicate 32 [0x1B, 0x00, 0x00]).flatten ++ [0x08]

/-- As many parameters as a count can announce, and none of them. -/
def boastfulBlob : List UInt8 := [0x00, 0xDF, 0xFF, 0xFF, 0xFF, 0x01]

/-- Two parameters, the first of them with an array of sizes. -/
def sizedBlob : List UInt8 :=
  [0x00, 0x02, 0x01, 0x14, 0x08, 0x02, 0x02, 0x03, 0x04, 0x00, 0x0E]

theorem boastfulBlob_parse_progress :
    Reader.compressed ⟨1, boastfulBlob.drop 1⟩ = .ok (0x1FFFFFFF, ⟨5, [0x01]⟩) ∧
      1 < 5 ∧ parse boastfulBlob = .error (.truncated 6) ∧
      (recording boastfulBlob).record.passes ≤ 6 ∧
      parse sizedBlob = .ok { paramCount := 2 } ∧ 2 + 3 ≤ sizedBlob.length ∧
      (recording sizedBlob).record.passes = 4 ∧
      (∃ position, ⟨position, .type 66⟩ ∈ (recording nestedBlob).record) ∧
      ∀ entry ∈ (recording nestedBlob).record, ∀ depth ∈ entry.event.depth?, depth ≤ 66 := by
  have announced : Reader.compressed ⟨1, boastfulBlob.drop 1⟩ = .ok (0x1FFFFFFF, ⟨5, [0x01]⟩) := by
    decide +kernel
  have accepted : parse sizedBlob = .ok { paramCount := 2 } := by decide +kernel
  obtain ⟨-, -, -, few, advances, -⟩ := parse_progress boastfulBlob
  obtain ⟨-, -, -, -, -, -, -, there⟩ := parse_progress sizedBlob
  obtain ⟨-, within, -⟩ := parse_progress nestedBlob
  exact ⟨announced, (advances _ _ _ announced).1, by decide +kernel, few, accepted, there _ accepted,
    by decide +kernel, ⟨99, by decide +kernel⟩, fun entry member => (within entry member).2⟩

end CallShape
end CilProfiler

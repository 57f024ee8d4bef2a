import CilProfiler.Proofs.Signature.Acceptance
import CilProfiler.Proofs.Signature.Widths

/-! # Longer and shorter blobs

A reader looks at no byte before it needs it. What it takes is decided by the bytes up to where it
stops, so that more bytes behind a blob change nothing, unless the blob ended too early. It fails in
one of two ways: at the end of the blob, for want of a byte, or at a byte that it does not accept;
either way the error tells where.
-/

namespace CilProfiler

/-- The cursor in a blob that goes on. -/
def Cursor.extend (cursor : Cursor) (suffix : List UInt8) : Cursor :=
  ⟨cursor.position, cursor.rest ++ suffix⟩

/-- What a reader can find wrong with what follows a cursor. -/
inductive BlobError.RaisedAt (cursor : Cursor) : BlobError → Prop where
  | integer {lead : UInt8} {rest : List UInt8} (there : cursor.rest = lead :: rest)
      (invalid : 0xE0 ≤ lead) : RaisedAt cursor (.invalidCompressedInteger lead cursor.position)
  | convention {lead : UInt8} {rest : List UInt8} (there : cursor.rest = lead :: rest)
      (other : 0x05 < lead &&& 0x0F) : RaisedAt cursor (.notAMethodSignature lead)
  | element {lead : UInt8} {rest : List UInt8} (there : cursor.rest = lead :: rest)
      (unknown : ElementKind.ofByte? lead = none) :
      RaisedAt cursor (.unknownElementType lead cursor.position)
  | nesting : RaisedAt cursor (.nestingTooDeep cursor.position)

namespace Reader

variable {α β : Type} {read first : Reader α} {next : α → Reader β} {cursor middle : Cursor}

/-- What a reader does at a cursor is decided by the bytes that it gets to see. -/
inductive DecidedAt (read : Reader α) (cursor : Cursor) : Prop where
  /-- It takes bytes, whatever follows them. -/
  | taken {value : α} {bytes : List UInt8} {after : Cursor} (takes : cursor.Takes bytes after)
      (whole : read cursor = .ok (value, after))
      (longer : ∀ suffix, read (cursor.extend suffix) = .ok (value, after.extend suffix))
  /-- It comes to the end of the blob and needs another byte. -/
  | ended {bytes : List UInt8} {after : Cursor} (takes : cursor.Takes bytes after)
      (last : after.rest = []) (failed : read cursor = .error (.truncated after.position))
  /-- It comes to something wrong, whatever follows. -/
  | refused {reason : BlobError} {bytes : List UInt8} {after : Cursor}
      (takes : cursor.Takes bytes after) (raised : reason.RaisedAt after)
      (failed : read cursor = .error reason)
      (longer : ∀ suffix, read (cursor.extend suffix) = .error reason)

def Decided (read : Reader α) : Prop :=
  ∀ cursor, read.DecidedAt cursor

/-- A sequence is decided if the second reader is where the first one stops. -/
theorem DecidedAt.bind (start : first.DecidedAt cursor)
    (rest : ∀ value middle, first cursor = .ok (value, middle) → (next value).DecidedAt middle) :
    (first >>= next).DecidedAt cursor := by
  cases start with
  | @taken value bytes middle takes whole longer =>
      cases rest value middle whole with
      | @taken result bytes' after takes' whole' longer' =>
          have done : (first >>= next) cursor = .ok (result, after) := (bind_of_ok whole).trans whole'
          refine .taken (Cursor.takes_append.mpr ⟨middle, takes, takes'⟩) done fun suffix => ?_
          rw [bind_of_ok (longer suffix), longer']
      | ended takes' last failed =>
          refine .ended (Cursor.takes_append.mpr ⟨middle, takes, takes'⟩) last ?_
          rw [bind_of_ok whole, failed]
      | refused takes' raised failed longer' =>
          refine .refused (Cursor.takes_append.mpr ⟨middle, takes, takes'⟩) raised ?_ fun suffix => ?_
          · rw [bind_of_ok whole, failed]
          · rw [bind_of_ok (longer suffix), longer']
  | ended takes last failed => exact .ended takes last (bind_of_error failed)
  | refused takes raised failed longer =>
      exact .refused takes raised (bind_of_error failed) fun suffix => bind_of_error (longer suffix)

theorem Decided.bind (start : first.Decided) (rest : ∀ value, (next value).Decided) :
    (first >>= next).Decided :=
  fun cursor => (start cursor).bind fun value middle _ => rest value middle

/-- A reader that takes one byte and goes on is decided if what it goes on with is. -/
theorem DecidedAt.behind {read' : Reader α} {position : Nat} {lead : UInt8} {rest : List UInt8}
    (goesOn : ∀ rest, read ⟨position, lead :: rest⟩ = read' ⟨position + 1, rest⟩)
    (decided : read'.DecidedAt ⟨position + 1, rest⟩) : read.DecidedAt ⟨position, lead :: rest⟩ := by
  have takes {bytes after} (takes : Cursor.Takes ⟨position + 1, rest⟩ bytes after) :
      Cursor.Takes ⟨position, lead :: rest⟩ (lead :: bytes) after :=
    (Cursor.takes_cons_of_rest rfl).mpr ⟨rfl, takes⟩
  cases decided with
  | taken takes' whole longer =>
      exact .taken (takes takes') ((goesOn rest).trans whole) fun suffix =>
        (goesOn (rest ++ suffix)).trans (longer suffix)
  | ended takes' last failed => exact .ended (takes takes') last ((goesOn rest).trans failed)
  | refused takes' raised failed longer =>
      exact .refused (takes takes') raised ((goesOn rest).trans failed) fun suffix =>
        (goesOn (rest ++ suffix)).trans (longer suffix)

theorem DecidedAt.byte_bind {next : UInt8 → Reader α} {position : Nat} {lead : UInt8}
    {rest : List UInt8} (decided : (next lead).DecidedAt ⟨position + 1, rest⟩) :
    (byte >>= next).DecidedAt ⟨position, lead :: rest⟩ :=
  decided.behind fun _ => rfl

/-- A reader that wants a byte is decided at the end of the blob. -/
theorem decidedAt_end {position : Nat} (failed : read ⟨position, []⟩ = .error (.truncated position)) :
    read.DecidedAt ⟨position, []⟩ :=
  .ended (Cursor.takes_nil.mpr rfl) rfl failed

/-- A reader that sees something wrong in front of it is decided. -/
theorem decidedAt_refused {reason : BlobError} {position : Nat} {rest : List UInt8}
    (raised : reason.RaisedAt ⟨position, rest⟩)
    (failed : ∀ suffix, read ⟨position, rest ++ suffix⟩ = .error reason) :
    read.DecidedAt ⟨position, rest⟩ :=
  .refused (Cursor.takes_nil.mpr rfl) raised (by simpa using failed []) failed

theorem pure_decided (value : α) : (pure value : Reader α).Decided := fun _ =>
  .taken (Cursor.takes_nil.mpr rfl) rfl fun _ => rfl

theorem byte_decided : byte.Decided
  | ⟨_, []⟩ => decidedAt_end rfl
  | ⟨_, _ :: _⟩ => (pure_decided _ _).behind fun _ => rfl

theorem behindLead_decided (lead : UInt8) (width : Width) : (behindLead lead width).Decided := by
  cases width with
  | short => exact pure_decided _
  | medium => exact byte_decided.bind fun _ => pure_decided _
  | long =>
      exact byte_decided.bind fun _ => byte_decided.bind fun _ => byte_decided.bind fun _ =>
        pure_decided _

theorem compressed_decided : compressed.Decided
  | ⟨_, []⟩ => decidedAt_end rfl
  | ⟨position, lead :: rest⟩ => by
      have start := compressed_cons position lead
      cases announces : Width.announced? lead with
      | none =>
          exact decidedAt_refused (.integer rfl (Width.announced?_eq_none.mp announces)) fun suffix =>
            compressed_unannounced announces
      | some width =>
          rw [announces] at start
          exact (behindLead_decided lead width _).behind start

theorem skip_decided : (do let _ ← compressed : Reader Unit).Decided :=
  compressed_decided.bind fun _ => pure_decided _

theorem times_decided {walk : Reader Unit} (walks : walk.Decided) (count : Nat) :
    (times walk count).Decided := by
  induction count with
  | zero => exact pure_decided ()
  | succ count ih => exact walks.bind fun _ => ih

theorem walkCounted_decided : walkCounted.Decided :=
  compressed_decided.bind fun count => times_decided skip_decided count

theorem accept_decided (expected : UInt8) : (accept expected).Decided
  | ⟨_, []⟩ => decidedAt_end rfl
  | ⟨position, lead :: rest⟩ => by
      have looked : ∀ rest, accept expected ⟨position, lead :: rest⟩ = (if lead = expected then do
          let _ ← byte
          return true
        else
          return false : Reader Bool) ⟨position, lead :: rest⟩ := fun _ => rfl
      split at looked
      · exact (pure_decided true _).behind looked
      · exact .taken (Cursor.takes_nil.mpr rfl) (looked rest) fun suffix => looked (rest ++ suffix)

theorem walkModifiers_modifier {position : Nat} {lead : UInt8}
    (named : ElementKind.ofByte? lead = some .modifier) (rest : List UInt8) :
    walkModifiers ⟨position, lead :: rest⟩ =
      (compressed >>= fun _ => walkModifiers : Reader Unit) ⟨position + 1, rest⟩ := by
  rw [walkModifiers]
  simp only [if_pos named]
  split
  · rename_i failed
    exact (bind_of_error failed).symm
  · rename_i taken
    rw [bind_of_ok taken]

theorem walkModifiers_plain {position : Nat} {lead : UInt8}
    (plain : ElementKind.ofByte? lead ≠ some .modifier) (rest : List UInt8) :
    walkModifiers ⟨position, lead :: rest⟩ = .ok ((), ⟨position, lead :: rest⟩) := by
  rw [walkModifiers]
  simp only [if_neg plain]

theorem walkModifiers_decided (cursor : Cursor) : DecidedAt walkModifiers cursor := by
  obtain ⟨position, rest⟩ := cursor
  cases rest with
  | nil => exact decidedAt_end (by rw [walkModifiers])
  | cons lead rest =>
      by_cases named : ElementKind.ofByte? lead = some .modifier
      · refine DecidedAt.behind (walkModifiers_modifier named) ?_
        refine (compressed_decided _).bind fun _ middle taken => ?_
        have shorter : middle.rest.length < rest.length := compressed_rest taken
        exact walkModifiers_decided middle
      · exact .taken (Cursor.takes_nil.mpr rfl) (walkModifiers_plain named rest) fun suffix =>
          walkModifiers_plain named (rest ++ suffix)
termination_by cursor.rest.length

theorem generics_decided (convention : UInt8) : (generics convention).Decided := by
  unfold generics
  split
  · exact skip_decided
  · exact pure_decided ()

section Nested

variable {walk : Reader Unit} (walks : walk.Decided)

include walks

theorem result_decided : (result walk).Decided := by
  refine Decided.bind walkModifiers_decided fun _ => (accept_decided void).bind fun isVoid => ?_
  cases isVoid with
  | true => exact (pure_decided ()).bind fun _ => pure_decided _
  | false => exact walks.bind fun _ => pure_decided _

theorem parameters_decided (count : Nat) :
    (times (do let _ ← accept sentinel; walk) count).Decided :=
  times_decided ((accept_decided sentinel).bind fun _ => walks) count

theorem methodShape_decided : (methodShape walk).Decided
  | ⟨_, []⟩ => decidedAt_end rfl
  | ⟨position, convention :: rest⟩ => by
      rw [methodShape_eq]
      by_cases other : 0x05 < convention &&& 0x0F
      · refine decidedAt_refused (.convention rfl other) fun suffix => ?_
        change (if _ then _ else _ : Reader CallShape) _ = _
        rw [if_pos other]
        rfl
      · refine DecidedAt.byte_bind ?_
        rw [if_neg other]
        exact (generics_decided convention).bind (fun _ => compressed_decided.bind fun count =>
          (result_decided walks).bind fun _ => (parameters_decided walks count).bind fun _ =>
            pure_decided _) _

end Nested

theorem walkOperand_decided {depth : Nat} (walks : (walkType (depth + 1)).Decided)
    (deeper : (walkType (depth + 2)).Decided) (kind : ElementKind) : (walkOperand depth kind).Decided := by
  cases kind with
  | simple => exact pure_decided ()
  | indexed => exact skip_decided
  | wrapper => exact walks
  | modifier => exact compressed_decided.bind fun _ => walks
  | genericInstance =>
      exact walks.bind fun _ => compressed_decided.bind fun count => times_decided walks count
  | array =>
      exact walks.bind fun _ => compressed_decided.bind fun _ => walkCounted_decided.bind
        fun _ => walkCounted_decided
  | functionPointer => exact (methodShape_decided deeper).bind fun _ => pure_decided ()

theorem walkType_deep {depth : Nat} (deep : maxNesting < depth) (position : Nat) (rest : List UInt8) :
    walkType depth ⟨position, rest⟩ = .error (.nestingTooDeep position) := by
  rw [walkType_eq]
  simp only [if_pos deep]
  rfl

section Nesting

variable {depth position : Nat} (nested : depth ≤ maxNesting)

include nested

theorem walkType_end : walkType depth ⟨position, []⟩ = .error (.truncated position) := by
  rw [walkType_eq]
  simp only [if_neg (Nat.not_lt.mpr nested)]
  rfl

theorem walkType_unknown {element : UInt8} (unknown : ElementKind.ofByte? element = none)
    (rest : List UInt8) :
    walkType depth ⟨position, element :: rest⟩ = .error (.unknownElementType element position) := by
  rw [walkType_eq]
  simp only [if_neg (Nat.not_lt.mpr nested)]
  refine (bind_of_ok rfl).trans ((bind_of_ok rfl).trans ?_)
  simp only [unknown]
  rfl

theorem walkType_kind {element : UInt8} {kind : ElementKind}
    (named : ElementKind.ofByte? element = some kind) (rest : List UInt8) :
    walkType depth ⟨position, element :: rest⟩ = walkOperand depth kind ⟨position + 1, rest⟩ := by
  rw [walkType_eq]
  simp only [if_neg (Nat.not_lt.mpr nested)]
  refine (bind_of_ok rfl).trans ((bind_of_ok rfl).trans ?_)
  simp only [named]

end Nesting

theorem walkType_decided (depth : Nat) : (walkType depth).Decided := by
  rintro ⟨position, rest⟩
  by_cases deep : maxNesting < depth
  · exact decidedAt_refused .nesting fun suffix => walkType_deep deep position (rest ++ suffix)
  · have nested : depth ≤ maxNesting := Nat.not_lt.mp deep
    have operand := walkOperand_decided (walkType_decided (depth + 1)) (walkType_decided (depth + 2))
    cases rest with
    | nil => exact decidedAt_end (walkType_end nested)
    | cons element rest =>
        cases named : ElementKind.ofByte? element with
        | none =>
            exact decidedAt_refused (.element rfl named) fun suffix =>
              walkType_unknown nested named (rest ++ suffix)
        | some kind => exact (operand kind _).behind (walkType_kind nested named)
termination_by maxNesting + 1 - depth

namespace Decided

variable (decided : read.Decided)

include decided

/-- What is read up to its last byte is read again with more bytes behind. -/
theorem extend_of_ok {value : α} {after : Cursor} (whole : read cursor = .ok (value, after))
    (suffix : List UInt8) : read (cursor.extend suffix) = .ok (value, after.extend suffix) := by
  cases decided cursor with
  | taken takes whole' longer =>
      cases whole.symm.trans whole'
      exact longer suffix
  | ended takes last failed => cases whole.symm.trans failed
  | refused takes raised failed => cases whole.symm.trans failed

/-- Every part in front of what is read up to its last byte ends too early. -/
theorem truncated_of_ok {value : α} {front back : List UInt8} {position : Nat}
    (whole : read ⟨0, front ++ back⟩ = .ok (value, ⟨position, []⟩)) (proper : back ≠ []) :
    read ⟨0, front⟩ = .error (.truncated front.length) := by
  cases decided ⟨0, front⟩ with
  | @taken value' bytes after takes whole' longer =>
      have same := whole.symm.trans (longer back)
      simp only [Except.ok.injEq, Prod.mk.injEq, Cursor.extend, Cursor.mk.injEq] at same
      exact absurd (List.append_eq_nil_iff.mp same.2.2.symm).2 proper
  | @ended bytes after takes last failed =>
      have rest := takes.rest
      rw [last, List.append_nil] at rest
      rw [failed, takes.position, ← rest, Nat.zero_add]
  | refused takes raised failed longer => cases whole.symm.trans (longer back)

/-- A reader runs out of bytes at the end of the blob and nowhere else. -/
theorem position_of_truncated {position : Nat} (failed : read cursor = .error (.truncated position)) :
    position = cursor.position + cursor.rest.length := by
  cases decided cursor with
  | taken takes whole => cases failed.symm.trans whole
  | @ended bytes after takes last failed' =>
      cases failed.symm.trans failed'
      rw [takes.position, takes.rest, last, List.append_nil]
  | refused takes raised failed' =>
      cases failed.symm.trans failed'
      cases raised

/-- Any other failure has its reason in the blob and stays the same with more bytes behind. -/
theorem raised_of_error {reason : BlobError} (failed : read cursor = .error reason)
    (complete : ∀ position, reason ≠ .truncated position) :
    (∃ bytes after, cursor.Takes bytes after ∧ reason.RaisedAt after) ∧
      ∀ suffix, read (cursor.extend suffix) = .error reason := by
  cases decided cursor with
  | taken takes whole => cases failed.symm.trans whole
  | ended takes last failed' =>
      cases failed.symm.trans failed'
      exact absurd rfl (complete _)
  | refused takes raised failed' longer =>
      cases failed.symm.trans failed'
      exact ⟨⟨_, _, takes, raised⟩, longer⟩

end Decided
end Reader

/-- The byte behind a cursor stands in the blob at the cursor's position. -/
theorem Cursor.Takes.getElem?_position {blob bytes rest : List UInt8} {after : Cursor} {lead : UInt8}
    (takes : Takes ⟨0, blob⟩ bytes after) (there : after.rest = lead :: rest) :
    blob[after.position]? = some lead := by
  have split : blob = bytes ++ lead :: rest := takes.rest.trans (congrArg (bytes ++ ·) there)
  rw [takes.position, split, Nat.zero_add]
  simp

namespace CallShape

/-- The reader of a whole blob. -/
def read : Reader CallShape :=
  Reader.methodShape (Reader.walkType 1)

theorem read_decided : read.Decided :=
  Reader.methodShape_decided (Reader.walkType_decided 1)

variable {blob : List UInt8} {shape : CallShape} {reason : BlobError}

theorem parse_eq (nonempty : blob ≠ []) : parse blob = Prod.fst <$> read ⟨0, blob⟩ := by
  rw [parse, if_neg nonempty, read]

theorem parse_eq_ok_iff : parse blob = .ok shape ↔ ∃ after, read ⟨0, blob⟩ = .ok (shape, after) := by
  by_cases empty : blob = []
  · subst empty
    exact ⟨nofun, fun ⟨_, taken⟩ => by cases taken⟩
  · rw [parse_eq empty, Outcome.map_eq_ok]
    constructor
    · rintro ⟨⟨_, after⟩, taken, rfl⟩
      exact ⟨after, taken⟩
    · rintro ⟨after, taken⟩
      exact ⟨_, taken, rfl⟩

theorem parse_eq_error_iff (nonempty : blob ≠ []) :
    parse blob = .error reason ↔ read ⟨0, blob⟩ = .error reason := by
  rw [parse_eq nonempty]
  cases read ⟨0, blob⟩ with
  | ok taken => exact ⟨nofun, nofun⟩
  | error other => exact ⟨fun failed => by cases failed; rfl, fun failed => by cases failed; rfl⟩

/-- A signature is read from its own bytes alone, whatever is behind them. -/
theorem exists_bytes_of_read {after : Cursor} (taken : read ⟨0, blob⟩ = .ok (shape, after)) :
    ∃ bytes rest, blob = bytes ++ rest ∧ read ⟨0, bytes⟩ = .ok (shape, ⟨bytes.length, []⟩) := by
  obtain ⟨derivation, takes, shaped⟩ := (Reader.methodShape_eq_ok (Reader.walkType_walks 1)).mp taken
  have own : Cursor.Takes ⟨0, derivation.bytes⟩ derivation.bytes ⟨derivation.bytes.length, []⟩ :=
    ⟨(List.append_nil _).symm, (Nat.zero_add _).symm⟩
  exact ⟨derivation.bytes, after.rest, takes.rest,
    (Reader.methodShape_eq_ok (Reader.walkType_walks 1)).mpr ⟨derivation, own, shaped⟩⟩

theorem parse_append_of_ok (parsed : parse blob = .ok shape) (suffix : List UInt8) :
    parse (blob ++ suffix) = .ok shape := by
  obtain ⟨after, taken⟩ := parse_eq_ok_iff.mp parsed
  exact parse_eq_ok_iff.mpr ⟨_, read_decided.extend_of_ok taken suffix⟩

/-- A blob with a signature in front has a shortest part in front that has it. -/
theorem exists_consumed (parsed : parse blob = .ok shape) :
    ∃ consumed ≤ blob.length, parse (blob.take consumed) = .ok shape ∧
      ∀ length, 0 < length → length < consumed →
        parse (blob.take length) = .error (.truncated length) := by
  obtain ⟨after, taken⟩ := parse_eq_ok_iff.mp parsed
  obtain ⟨bytes, rest, rfl, own⟩ := exists_bytes_of_read taken
  refine ⟨bytes.length, by simp, ?_, fun length positive shorter => ?_⟩
  · rw [List.take_left]
    exact parse_eq_ok_iff.mpr ⟨_, own⟩
  · have size : (bytes.take length).length = length := List.length_take_of_le (Nat.le_of_lt shorter)
    have nonempty : bytes.take length ≠ [] := List.ne_nil_of_length_pos (by omega)
    have proper : bytes.drop length ≠ [] := List.ne_nil_of_length_pos (by rw [List.length_drop]; omega)
    rw [← List.take_append_drop length bytes] at own
    have truncated := read_decided.truncated_of_ok own proper
    rw [size] at truncated
    rw [List.take_append_of_le_length (Nat.le_of_lt shorter)]
    exact (parse_eq_error_iff nonempty).mpr truncated

theorem ne_nil_of_parse_error (failed : parse blob = .error reason) (filled : reason ≠ .empty) :
    blob ≠ [] := by
  rintro rfl
  cases failed
  exact filled rfl

/-- A failure that is not for want of bytes has its reason in the blob, and more bytes do not help. -/
theorem raised_of_parse_error (failed : parse blob = .error reason) (filled : reason ≠ .empty)
    (complete : ∀ position, reason ≠ .truncated position) :
    (∃ bytes after, Cursor.Takes ⟨0, blob⟩ bytes after ∧ reason.RaisedAt after) ∧
      ∀ suffix, parse (blob ++ suffix) = .error reason := by
  have nonempty := ne_nil_of_parse_error failed filled
  obtain ⟨raised, longer⟩ :=
    read_decided.raised_of_error ((parse_eq_error_iff nonempty).mp failed) complete
  exact ⟨raised, fun suffix =>
    (parse_eq_error_iff fun empty => nonempty (List.append_eq_nil_iff.mp empty).1).mpr (longer suffix)⟩

/-- The parser looks at no byte before it needs it. An accepted blob stays accepted with more bytes
    behind, and what is shorter than its signature ends too early. A blob that is refused for anything
    but its end stays refused. The reason names the byte: the end of the blob if there is none left,
    the one that is no integer or no type otherwise. -/
theorem parse_decided (blob : List UInt8) :
    (∀ shape, parse blob = .ok shape →
      (∀ suffix, parse (blob ++ suffix) = .ok shape) ∧
      ∃ consumed ≤ blob.length, parse (blob.take consumed) = .ok shape ∧
        ∀ length, 0 < length → length < consumed →
          parse (blob.take length) = .error (.truncated length)) ∧
    (∀ reason, parse blob = .error reason → reason ≠ .empty →
      (∀ position, reason ≠ .truncated position) → ∀ suffix, parse (blob ++ suffix) = .error reason) ∧
    (∀ position, parse blob = .error (.truncated position) → position = blob.length) ∧
    (∀ lead position, parse blob = .error (.invalidCompressedInteger lead position) →
      (∃ inside : position < blob.length, blob[position] = lead) ∧ 0xE0 ≤ lead) ∧
    (∀ element position, parse blob = .error (.unknownElementType element position) →
      ∃ inside : position < blob.length, blob[position] = element) ∧
    ∀ position, parse blob = .error (.nestingTooDeep position) → position ≤ blob.length := by
  refine ⟨fun shape parsed => ⟨parse_append_of_ok parsed, exists_consumed parsed⟩,
    fun reason failed filled complete => (raised_of_parse_error failed filled complete).2,
    fun position failed => ?_, fun lead position failed => ?_, fun element position failed => ?_,
    fun position failed => ?_⟩
  · have nonempty := ne_nil_of_parse_error failed nofun
    have last := read_decided.position_of_truncated ((parse_eq_error_iff nonempty).mp failed)
    rwa [Nat.zero_add] at last
  · obtain ⟨bytes, after, takes, raised⟩ := (raised_of_parse_error failed nofun nofun).1
    cases raised with
    | integer there invalid => exact ⟨List.getElem?_eq_some_iff.mp (takes.getElem?_position there), invalid⟩
  · obtain ⟨bytes, after, takes, raised⟩ := (raised_of_parse_error failed nofun nofun).1
    cases raised with
    | element there => exact List.getElem?_eq_some_iff.mp (takes.getElem?_position there)
  · obtain ⟨bytes, after, takes, raised⟩ := (raised_of_parse_error failed nofun nofun).1
    cases raised with
    | nesting =>
        have split : blob = bytes ++ after.rest := takes.rest
        rw [takes.position, split, List.length_append, Nat.zero_add]
        exact Nat.le_add_right _ _

/-- A method without result that takes an array of strings, and a byte behind its signature. -/
def arrayBlob : List UInt8 := [0x20, 0x01, 0x01, 0x1D, 0x0E, 0x99]

/-- A pointer to an unknown type. -/
def unknownBlob : List UInt8 := [0x00, 0x01, 0x01, 0x0F, 0xFF]

theorem arrayBlob_parse_decided :
    parse arrayBlob = .ok { hasThis := true, paramCount := 1 } ∧
      (∀ suffix, parse (arrayBlob ++ suffix) = .ok { hasThis := true, paramCount := 1 }) ∧
      parse (arrayBlob.take 4) = .error (.truncated 4) ∧ 4 = (arrayBlob.take 4).length ∧
      parse unknownBlob = .error (.unknownElementType 0xFF 4) ∧
      (∀ suffix, parse (unknownBlob ++ suffix) = .error (.unknownElementType 0xFF 4)) ∧
      ∃ inside : 4 < unknownBlob.length, unknownBlob[4] = 0xFF := by
  have accepted : parse arrayBlob = .ok { hasThis := true, paramCount := 1 } := by decide +kernel
  have short : parse (arrayBlob.take 4) = .error (.truncated 4) := by decide +kernel
  have refused : parse unknownBlob = .error (.unknownElementType 0xFF 4) := by decide +kernel
  obtain ⟨-, same, -, -, points, -⟩ := parse_decided unknownBlob
  exact ⟨accepted, ((parse_decided arrayBlob).1 _ accepted).1, short,
    (parse_decided (arrayBlob.take 4)).2.2.1 4 short, refused, same _ refused nofun nofun,
    points _ _ refused⟩

end CallShape
end CilProfiler

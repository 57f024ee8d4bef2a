import CilProfiler.Proofs.Signature.Compressed

/-! # Widths of compressed integers

An encoding of an unsigned integer is a word of one, two or four bytes: the number, and above it a
mark that tells the width. The mark stands in the top bits of the first byte, so that this byte
announces how many there are, or that no encoding starts with it. The reader takes the bytes of a
word and clears the mark. It fails for two reasons: at a first byte that announces no width, and at
the end of the blob, within a word or in front of it.
-/

namespace CilProfiler

namespace BigEndian

/-- The lowest bytes of a word, the highest of them first. -/
def bytes : (size word : Nat) → List UInt8
  | 0, _ => []
  | size + 1, word => .ofNat (word >>> (8 * size)) :: bytes size word

/-- Append a byte to a word. -/
def push (high : Nat) (low : UInt8) : Nat :=
  high <<< 8 ||| low.toNat

/-- The word that bytes make up. -/
def word (bytes : List UInt8) : Nat :=
  bytes.foldl push 0

/-- A byte is the lowest one of a number. -/
theorem ofNat_congr {number other : Nat} (same : number % 0x100 = other % 0x100) :
    UInt8.ofNat number = .ofNat other :=
  UInt8.toNat_inj.mp (by rw [UInt8.toNat_ofNat', UInt8.toNat_ofNat', same])

theorem length_bytes (size word : Nat) : (bytes size word).length = size := by
  induction size with
  | zero => rfl
  | succ size ih => exact congrArg Nat.succ ih

theorem push_shiftRight (word : Nat) : push (word >>> 8) (.ofNat word) = word := by
  have low : (UInt8.ofNat word).toNat = word % 0x100 := UInt8.toNat_ofNat'
  rw [push, low, ← Nat.shiftLeft_add_eq_or_of_lt (Nat.mod_lt word (by decide)), Nat.shiftLeft_eq,
    Nat.shiftRight_eq_div_pow]
  omega

/-- Bytes complete the word whose higher bytes are there already. -/
theorem foldl_push_bytes (size word : Nat) :
    (bytes size word).foldl push (word >>> (8 * size)) = word := by
  induction size with
  | zero => rfl
  | succ size ih =>
      rw [bytes, List.foldl_cons, Nat.mul_succ, Nat.shiftRight_add, push_shiftRight, ih]

theorem word_bytes {size word : Nat} (fits : word >>> (8 * size) = 0) :
    BigEndian.word (bytes size word) = word := by
  have complete := foldl_push_bytes size word
  rwa [fits] at complete

end BigEndian

/-- How many bytes an encoding takes. -/
inductive Width where
  | short
  | medium
  | long
  deriving Repr, DecidableEq

namespace Width

variable {width : Width} {number : Nat}

def size : Width → Nat
  | short => 1
  | medium => 2
  | long => 4

/-- Numbers below the limit leave the bits of the mark free. -/
def limit : Width → Nat
  | short => 0x80
  | medium => 0x4000
  | long => 0x20000000

/-- Top bits of the word: none of them set, the highest one, or the highest two. The bit below is
    clear. -/
def mark : Width → Nat
  | short => 0
  | medium => 0x8000
  | long => 0xC0000000

def encode (width : Width) (number : Nat) : List UInt8 :=
  BigEndian.bytes width.size (width.mark ||| number)

/-- The number in the word at the front of the bytes. -/
def payload (width : Width) (bytes : List UInt8) : Nat :=
  BigEndian.word (bytes.take width.size) &&& (width.limit - 1)

/-- The width that the first byte of an encoding announces. -/
def announced? (lead : UInt8) : Option Width :=
  if lead &&& 0x80 = 0 then some short
  else if lead &&& 0xC0 = 0x80 then some medium
  else if lead &&& 0xE0 = 0xC0 then some long
  else none

theorem size_injective {other : Width} (same : width.size = other.size) : width = other := by
  cases width <;> cases other <;> simp_all [size]

theorem limit_le (width : Width) : width.limit ≤ 0x20000000 := by
  cases width <;> decide

theorem length_encode : (width.encode number).length = width.size :=
  BigEndian.length_bytes width.size _

/-- The number does not reach up to the mark. -/
theorem mark_or (fits : number < width.limit) : width.mark ||| number = width.mark + number := by
  cases width with
  | short => exact (Nat.zero_or number).trans (Nat.zero_add number).symm
  | medium => exact (Nat.two_pow_add_eq_or_of_lt (i := 14) fits 2).symm
  | long => exact (Nat.two_pow_add_eq_or_of_lt (i := 29) fits 6).symm

/-- Clearing the mark is taking the remainder. -/
theorem and_limit (width : Width) (word : Nat) : word &&& (width.limit - 1) = word % width.limit := by
  cases width with
  | short => exact Nat.and_two_pow_sub_one_eq_mod word 7
  | medium => exact Nat.and_two_pow_sub_one_eq_mod word 14
  | long => exact Nat.and_two_pow_sub_one_eq_mod word 29

theorem mark_or_and (fits : number < width.limit) :
    (width.mark ||| number) &&& (width.limit - 1) = number := by
  have divides : width.mark % width.limit = 0 := by cases width <;> rfl
  rw [and_limit, mark_or fits, Nat.add_mod, divides, Nat.zero_add, Nat.mod_mod, Nat.mod_eq_of_lt fits]

/-- A word has no bits above its bytes. -/
theorem mark_or_shiftRight (fits : number < width.limit) :
    (width.mark ||| number) >>> (8 * width.size) = 0 := by
  rw [mark_or fits]
  refine Nat.shiftRight_eq_zero _ _ ?_
  cases width with
  | short | medium | long => simp only [mark, limit, size] at fits ⊢; omega

theorem payload_encode (fits : number < width.limit) (back : List UInt8) :
    width.payload (width.encode number ++ back) = number := by
  rw [payload, List.take_left' length_encode, encode,
    BigEndian.word_bytes (mark_or_shiftRight fits), mark_or_and fits]

/-- Marks divide the first bytes into ranges. -/
theorem announced?_eq (lead : UInt8) : announced? lead =
    if lead < 0x80 then some short
    else if lead < 0xC0 then some medium
    else if lead < 0xE0 then some long
    else none := by
  have ranges : ∀ byte : Fin 0x100, announced? (.ofFin byte) =
      if UInt8.ofFin byte < 0x80 then some short
      else if UInt8.ofFin byte < 0xC0 then some medium
      else if UInt8.ofFin byte < 0xE0 then some long
      else none := by decide +kernel
  exact ranges lead.toFin

theorem announced?_eq_none {lead : UInt8} : announced? lead = none ↔ 0xE0 ≤ lead := by
  rw [announced?_eq, ← UInt8.not_lt]
  grind

end Width

namespace Compressed

def width : Compressed → Width
  | .short .. => .short
  | .medium .. => .medium
  | .long .. => .long

variable (form : Compressed)

theorem value_lt_limit : form.value < form.width.limit := by
  cases form with
  | short number fits | medium number fits | long number fits => exact fits

/-- The bytes are those of the word with the mark. -/
theorem bytes_eq_encode : form.bytes = form.width.encode form.value := by
  rw [Width.encode, Width.mark_or form.value_lt_limit]
  cases form with
  | short number fits | medium number fits | long number fits =>
      simp only [bytes, width, value, Width.size, Width.mark, BigEndian.bytes,
        Nat.shiftRight_eq_div_pow, List.cons.injEq, and_true]
      and_intros <;> exact BigEndian.ofNat_congr (by omega)

theorem length_bytes : form.bytes.length = form.width.size := by
  rw [form.bytes_eq_encode, Width.length_encode]

end Compressed

/-- Numbers below the limit have an encoding of the width. -/
theorem Width.exists_form {width : Width} {number : Nat} (fits : number < width.limit) :
    ∃ form : Compressed, form.width = width ∧ form.value = number := by
  cases width with
  | short => exact ⟨.short number fits, rfl, rfl⟩
  | medium => exact ⟨.medium number fits, rfl, rfl⟩
  | long => exact ⟨.long number fits, rfl, rfl⟩

namespace Reader

variable {position : Nat} {lead : UInt8} {rest : List UInt8} {width : Width}

/-- Numbers are read from every encoding. -/
theorem compressed_encode {number : Nat} (fits : number < width.limit) (back : List UInt8) :
    compressed ⟨position, width.encode number ++ back⟩ = .ok (number, ⟨position + width.size, back⟩) := by
  obtain ⟨form, rfl, rfl⟩ := Width.exists_form fits
  refine compressed_of_form form ⟨?_, ?_⟩
  · rw [form.bytes_eq_encode]
  · rw [form.length_bytes]

/-- Nothing but encodings is read. -/
theorem encode_of_compressed {number : Nat} {after : Cursor}
    (taken : compressed ⟨position, rest⟩ = .ok (number, after)) :
    ∃ (width : Width) (back : List UInt8), number < width.limit ∧
      rest = width.encode number ++ back ∧ after = ⟨position + width.size, back⟩ := by
  obtain ⟨form, takes, rfl⟩ := form_of_compressed taken
  obtain ⟨moved, back⟩ := after
  have there := takes.rest
  have behind := takes.position
  rw [form.bytes_eq_encode] at there
  rw [form.length_bytes] at behind
  exact ⟨form.width, back, form.value_lt_limit, there, congrArg (Cursor.mk · back) behind⟩

/-- What is read behind the first byte. -/
def behindLead (lead : UInt8) : Width → Reader Nat
  | .short => return lead.toNat
  | .medium => do
    let b1 ← byte
    return lead.toNat % 0x40 * 0x100 + b1.toNat
  | .long => do
    let b1 ← byte
    let b2 ← byte
    let b3 ← byte
    return ((lead.toNat % 0x20 * 0x100 + b1.toNat) * 0x100 + b2.toNat) * 0x100 + b3.toNat

theorem compressed_cons (position : Nat) (lead : UInt8) (rest : List UInt8) :
    compressed ⟨position, lead :: rest⟩ =
      (Width.announced? lead).elim (fail (.invalidCompressedInteger lead position)) (behindLead lead)
        ⟨position + 1, rest⟩ := by
  rw [Width.announced?_eq]
  refine (bind_of_ok rfl).trans ((bind_of_ok rfl).trans ?_)
  split_ifs <;> rfl

theorem compressed_unannounced (announces : Width.announced? lead = none) :
    compressed ⟨position, lead :: rest⟩ = .error (.invalidCompressedInteger lead position) := by
  rw [compressed_cons, announces]
  rfl

/-- A number that is read from the announced bytes is the one below their mark. -/
theorem eq_payload_of_compressed {number : Nat} {back : List UInt8}
    (taken : compressed ⟨position, rest⟩ = .ok (number, ⟨position + width.size, back⟩)) :
    number = width.payload rest := by
  obtain ⟨other, back', fits, there, moved⟩ := encode_of_compressed taken
  have size : width.size = other.size := Nat.add_left_cancel (congrArg Cursor.position moved)
  obtain rfl : width = other := Width.size_injective size
  rw [there, Width.payload_encode fits]

/-- All bytes of the announced width are needed, and no more. -/
theorem compressed_announced (position : Nat) (rest : List UInt8)
    (announces : Width.announced? lead = some width) :
    (lead :: rest).length < width.size ∧
        compressed ⟨position, lead :: rest⟩ = .error (.truncated (position + (lead :: rest).length)) ∨
      width.size ≤ (lead :: rest).length ∧ ∃ number, compressed ⟨position, lead :: rest⟩ =
        .ok (number, ⟨position + width.size, (lead :: rest).drop width.size⟩) := by
  have read := compressed_cons position lead rest
  rw [announces] at read
  cases width with
  | short => exact .inr ⟨Nat.le_add_left 1 _, _, read⟩
  | medium =>
      cases rest with
      | nil => exact .inl ⟨(show 1 < 2 by decide), read⟩
      | cons b1 rest => exact .inr ⟨Nat.le_add_left 2 _, _, read⟩
  | long =>
      rcases rest with _ | ⟨b1, _ | ⟨b2, _ | ⟨b3, rest⟩⟩⟩
      · exact .inl ⟨(show 1 < 4 by decide), read⟩
      · exact .inl ⟨(show 2 < 4 by decide), read⟩
      · exact .inl ⟨(show 3 < 4 by decide), read⟩
      · exact .inr ⟨Nat.le_add_left 4 _, _, read⟩

theorem compressed_whole (announces : Width.announced? lead = some width)
    (whole : width.size ≤ (lead :: rest).length) :
    compressed ⟨position, lead :: rest⟩ =
      .ok (width.payload (lead :: rest), ⟨position + width.size, (lead :: rest).drop width.size⟩) := by
  obtain ⟨cut, -⟩ | ⟨-, number, read⟩ := compressed_announced position rest announces
  · exact absurd whole (Nat.not_le.mpr cut)
  · rw [read, eq_payload_of_compressed read]

theorem compressed_cut (announces : Width.announced? lead = some width)
    (cut : (lead :: rest).length < width.size) :
    compressed ⟨position, lead :: rest⟩ = .error (.truncated (position + (lead :: rest).length)) := by
  obtain ⟨-, read⟩ | ⟨whole, -⟩ := compressed_announced position rest announces
  · exact read
  · exact absurd cut (Nat.not_lt.mpr whole)

/-- A first byte that announces no width is reported where it stands. -/
theorem compressed_eq_invalid {found : UInt8} {reported : Nat} :
    compressed ⟨position, rest⟩ = .error (.invalidCompressedInteger found reported) ↔
      found ∈ rest.head? ∧ 0xE0 ≤ found ∧ reported = position := by
  constructor
  · intro failed
    cases rest with
    | nil => cases failed
    | cons lead rest =>
        cases announces : Width.announced? lead with
        | none =>
            cases (compressed_unannounced announces).symm.trans failed
            exact ⟨rfl, Width.announced?_eq_none.mp announces, rfl⟩
        | some width =>
            obtain ⟨-, read⟩ | ⟨-, number, read⟩ := compressed_announced position rest announces
            · cases read.symm.trans failed
            · cases read.symm.trans failed
  · rintro ⟨there, high, rfl⟩
    obtain ⟨rest, rfl⟩ := List.head?_eq_some_iff.mp there
    exact compressed_unannounced (Width.announced?_eq_none.mpr high)

/-- Bytes run out at the end of the blob, within the announced width or in front of it. -/
theorem compressed_eq_truncated {reported : Nat} :
    compressed ⟨position, rest⟩ = .error (.truncated reported) ↔
      (rest = [] ∨ ∃ lead ∈ rest.head?, ∃ width ∈ Width.announced? lead, rest.length < width.size) ∧
        reported = position + rest.length := by
  constructor
  · intro failed
    cases rest with
    | nil =>
        cases failed
        exact ⟨.inl rfl, rfl⟩
    | cons lead rest =>
        cases announces : Width.announced? lead with
        | none => cases (compressed_unannounced announces).symm.trans failed
        | some width =>
            obtain ⟨cut, read⟩ | ⟨-, number, read⟩ := compressed_announced position rest announces
            · cases read.symm.trans failed
              exact ⟨.inr ⟨lead, rfl, width, announces, cut⟩, rfl⟩
            · cases read.symm.trans failed
  · rintro ⟨rfl | ⟨lead, there, width, announces, cut⟩, rfl⟩
    · rfl
    · obtain ⟨rest, rfl⟩ := List.head?_eq_some_iff.mp there
      exact compressed_cut announces cut

/-- An encoding of any width gives back its number anywhere in a blob, whatever follows it, and the
    reader moves on by the width. Nothing else is read: the bytes taken are an encoding of the number
    that is answered, which is the one below the mark. A first byte that announces no width is reported
    at its own position; a blob that ends before the announced bytes do is reported at its end. -/
theorem compressed_decodes (front : List UInt8) :
    (∀ (width : Width) number back, number < width.limit →
      compressed ⟨front.length, width.encode number ++ back⟩ =
        .ok (number, ⟨front.length + width.size, back⟩)) ∧
    (∀ rest number after, compressed ⟨front.length, rest⟩ = .ok (number, after) →
      number < 0x20000000 ∧ ∃ (width : Width) (back : List UInt8), number < width.limit ∧
        rest = width.encode number ++ back ∧ after = ⟨front.length + width.size, back⟩) ∧
    (∀ lead rest width, Width.announced? lead = some width → width.size ≤ (lead :: rest).length →
      compressed ⟨front.length, lead :: rest⟩ = .ok (width.payload (lead :: rest),
        ⟨front.length + width.size, (lead :: rest).drop width.size⟩)) ∧
    (∀ rest lead position,
      compressed ⟨front.length, rest⟩ = .error (.invalidCompressedInteger lead position) ↔
        lead ∈ rest.head? ∧ 0xE0 ≤ lead ∧ position = front.length) ∧
    (∀ rest position, compressed ⟨front.length, rest⟩ = .error (.truncated position) ↔
      (rest = [] ∨ ∃ lead ∈ rest.head?, ∃ width ∈ Width.announced? lead, rest.length < width.size) ∧
        position = (front ++ rest).length) := by
  refine ⟨fun width number back fits => compressed_encode fits back, fun rest number after taken => ?_,
    fun lead rest width announces whole => compressed_whole announces whole,
    fun rest lead position => compressed_eq_invalid, fun rest position => ?_⟩
  · obtain ⟨width, back, fits, there, moved⟩ := encode_of_compressed taken
    exact ⟨Nat.lt_of_lt_of_le fits width.limit_le, width, back, fits, there, moved⟩
  · rw [List.length_append]
    exact compressed_eq_truncated

/-- Three hundred in four bytes, in front of a type. -/
def roomyCount : List UInt8 := [0xC0, 0x00, 0x01, 0x2C, 0x08]

/-- The same in two bytes. -/
def tightCount : List UInt8 := [0x81, 0x2C, 0x08]

theorem roomyCount_compressed_decodes :
    0x12C < Width.long.limit ∧ roomyCount = Width.long.encode 0x12C ++ [0x08] ∧
      compressed ⟨1, roomyCount⟩ = .ok (0x12C, ⟨5, [0x08]⟩) ∧
      compressed ⟨1, tightCount⟩ = .ok (0x12C, ⟨3, [0x08]⟩) ∧
      (∃ (width : Width) (back : List UInt8), 0x12C < width.limit ∧
        tightCount = width.encode 0x12C ++ back ∧
        (⟨3, [0x08]⟩ : Cursor) = ⟨1 + width.size, back⟩) ∧
      Width.announced? 0x81 = some .medium ∧ 2 ≤ tightCount.length ∧
      compressed ⟨1, tightCount⟩ = .ok (Width.medium.payload tightCount, ⟨3, [0x08]⟩) ∧
      Width.medium.payload tightCount = 0x12C ∧
      compressed ⟨1, [0xFF, 0x01]⟩ = .error (.invalidCompressedInteger 0xFF 1) ∧
      compressed ⟨1, [0xDF, 0xFF]⟩ = .error (.truncated 3) := by
  obtain ⟨reads, encoded, whole, invalid, truncated⟩ := compressed_decodes [0x00]
  have fits : 0x12C < Width.long.limit := by decide
  have taken : compressed ⟨1, tightCount⟩ = .ok (0x12C, ⟨3, [0x08]⟩) := by decide +kernel
  exact ⟨fits, rfl, reads .long 0x12C [0x08] fits, taken, (encoded _ _ _ taken).2, rfl, by decide,
    whole 0x81 [0x2C, 0x08] .medium rfl (by decide), rfl,
    (invalid [0xFF, 0x01] 0xFF 1).mpr ⟨rfl, by decide, rfl⟩,
    (truncated [0xDF, 0xFF] 3).mpr ⟨.inr ⟨0xDF, rfl, .long, rfl, by decide⟩, rfl⟩⟩

end Reader
end CilProfiler

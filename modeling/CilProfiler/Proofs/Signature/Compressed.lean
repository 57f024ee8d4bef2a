import CilProfiler.Signature.Cursor
import Mathlib.Tactic.Common

/-! # Compressed integers

The three encodings of an unsigned integer, and the bytes between two cursors. A reader is
described by the bytes that it takes for a value: it succeeds exactly if the blob goes on with such
bytes, and leaves the cursor behind them.
-/

namespace CilProfiler

/-- The bytes lie between the two cursors. -/
structure Cursor.Takes (cursor : Cursor) (bytes : List UInt8) (after : Cursor) : Prop where
  rest : cursor.rest = bytes ++ after.rest
  position : after.position = cursor.position + bytes.length

namespace Cursor

variable {cursor after : Cursor} {bytes front back : List UInt8} {lead : UInt8}

theorem takes_nil : cursor.Takes [] after ↔ after = cursor := by
  cases cursor
  cases after
  constructor
  · rintro ⟨rest, position⟩
    simp_all
  · rintro ⟨⟩
    exact ⟨rfl, rfl⟩

theorem takes_append :
    cursor.Takes (front ++ back) after ↔ ∃ middle, cursor.Takes front middle ∧ middle.Takes back after := by
  constructor
  · rintro ⟨rest, position⟩
    refine ⟨⟨cursor.position + front.length, back ++ after.rest⟩, ⟨?_, rfl⟩, rfl, ?_⟩
    · rw [rest, List.append_assoc]
    · rw [position, List.length_append, Nat.add_assoc]
  · rintro ⟨middle, first, second⟩
    refine ⟨?_, ?_⟩
    · rw [first.rest, second.rest, List.append_assoc]
    · rw [second.position, first.position, List.length_append, Nat.add_assoc]

theorem takes_cons :
    cursor.Takes (lead :: back) after ↔ ∃ middle, cursor.Takes [lead] middle ∧ middle.Takes back after :=
  show cursor.Takes ([lead] ++ back) after ↔ _ from takes_append

theorem takes_cons_of_rest {rest : List UInt8} {first : UInt8} (there : cursor.rest = lead :: rest) :
    cursor.Takes (first :: back) after ↔
      first = lead ∧ Takes ⟨cursor.position + 1, rest⟩ back after := by
  constructor
  · intro taken
    obtain ⟨same, behind⟩ := List.cons.inj (there.symm.trans taken.rest)
    refine ⟨same.symm, behind, ?_⟩
    rw [taken.position, List.length_cons, Nat.add_assoc, Nat.add_comm 1]
  · rintro ⟨rfl, taken⟩
    refine ⟨?_, ?_⟩
    · exact there.trans (congrArg (first :: ·) taken.rest)
    · rw [taken.position, List.length_cons, Nat.add_assoc, Nat.add_comm 1]

end Cursor

namespace Reader

variable {α β : Type} {cursor middle after : Cursor} {lead : UInt8} {first : Reader α}
  {next : α → Reader β}

theorem bind_of_ok {value : α} (done : first cursor = .ok (value, middle)) :
    (first >>= next) cursor = next value middle := by
  change (first cursor >>= fun pair => next pair.1 pair.2) = _
  rw [done]
  rfl

theorem bind_of_error {reason : BlobError} (failed : first cursor = .error reason) :
    (first >>= next) cursor = .error reason := by
  change (first cursor >>= fun pair => next pair.1 pair.2) = _
  rw [failed]
  rfl

theorem bind_eq_ok_iff {value : β} :
    (first >>= next) cursor = .ok (value, after) ↔
      ∃ a middle, first cursor = .ok (a, middle) ∧ next a middle = .ok (value, after) := by
  refine ⟨bind_eq_ok, ?_⟩
  rintro ⟨a, middle, here, there⟩
  exact (bind_of_ok here).trans there

theorem pure_eq_ok {value result : α} :
    (pure value : Reader α) cursor = .ok (result, after) ↔ value = result ∧ after = cursor := by
  change Except.ok (value, cursor) = .ok (result, after) ↔ _
  simp [eq_comm]

theorem byte_eq_ok : byte cursor = .ok (lead, after) ↔ cursor.Takes [lead] after := by
  obtain ⟨position, rest⟩ := cursor
  obtain ⟨position', rest'⟩ := after
  cases rest with
  | nil =>
      constructor
      · intro taken
        cases taken
      · rintro ⟨rest, _⟩
        cases rest
  | cons first rest =>
      constructor
      · intro taken
        cases taken
        exact ⟨rfl, rfl⟩
      · rintro ⟨same, moved⟩
        obtain ⟨rfl, rfl⟩ := List.cons.inj same
        cases moved
        rfl

end Reader

/-- An encoding of an unsigned integer in one, two or four bytes. Small numbers have several. -/
inductive Compressed where
  | short (number : Nat) (fits : number < 0x80)
  | medium (number : Nat) (fits : number < 0x4000)
  | long (number : Nat) (fits : number < 0x20000000)

namespace Compressed

def value : Compressed → Nat
  | .short number _ | .medium number _ | .long number _ => number

/-- The high bits come first, behind a mark of the width. -/
def bytes : Compressed → List UInt8
  | .short number _ => [.ofNat number]
  | .medium number _ => [.ofNat (0x80 + number / 0x100), .ofNat (number % 0x100)]
  | .long number _ => [.ofNat (0xC0 + number / 0x1000000), .ofNat (number / 0x10000 % 0x100),
      .ofNat (number / 0x100 % 0x100), .ofNat (number % 0x100)]

end Compressed

namespace Reader

variable {cursor after : Cursor} {value : Nat}

private theorem ofNat_eq {number : Nat} (byte : UInt8) (same : number % 0x100 = byte.toNat) :
    UInt8.ofNat number = byte :=
  UInt8.toNat_inj.mp (by rw [UInt8.toNat_ofNat', same])

private theorem lt_iff {number : Nat} {bound : UInt8} (byte : number < 0x100) :
    UInt8.ofNat number < bound ↔ number < bound.toNat := by
  rw [UInt8.lt_iff_toNat_lt, UInt8.toNat_ofNat', Nat.mod_eq_of_lt byte]

/-- Whatever the reader takes is an encoding of what it answers. -/
theorem form_of_compressed (taken : compressed cursor = .ok (value, after)) :
    ∃ form : Compressed, cursor.Takes form.bytes after ∧ form.value = value := by
  obtain ⟨start, middle, here, taken⟩ := bind_eq_ok taken
  cases here
  obtain ⟨lead, middle, first, taken⟩ := bind_eq_ok taken
  rw [byte_eq_ok] at first
  have lead_lt := lead.toNat_lt
  split at taken
  · rename_i low
    rw [UInt8.lt_iff_toNat_lt] at low
    obtain ⟨rfl, rfl⟩ := pure_eq_ok.mp taken
    refine ⟨.short lead.toNat low, ?_, rfl⟩
    rwa [Compressed.bytes, UInt8.ofNat_toNat]
  · rename_i high
    rw [UInt8.lt_iff_toNat_lt] at high
    have high : 0x80 ≤ lead.toNat := Nat.le_of_not_lt high
    split at taken
    · rename_i low
      rw [UInt8.lt_iff_toNat_lt] at low
      have low : lead.toNat < 0xC0 := low
      obtain ⟨b1, behind, second, taken⟩ := bind_eq_ok taken
      obtain ⟨rfl, rfl⟩ := pure_eq_ok.mp taken
      have b1_lt := b1.toNat_lt
      refine ⟨.medium (lead.toNat % 0x40 * 0x100 + b1.toNat) (by omega), ?_, rfl⟩
      rw [Compressed.bytes, ofNat_eq lead (by omega), ofNat_eq b1 (by omega)]
      exact Cursor.takes_cons.mpr ⟨middle, first, byte_eq_ok.mp second⟩
    · rename_i high
      rw [UInt8.lt_iff_toNat_lt] at high
      have high : 0xC0 ≤ lead.toNat := Nat.le_of_not_lt high
      split at taken
      · rename_i low
        rw [UInt8.lt_iff_toNat_lt] at low
        have low : lead.toNat < 0xE0 := low
        obtain ⟨b1, behind, second, taken⟩ := bind_eq_ok taken
        obtain ⟨b2, behind', third, taken⟩ := bind_eq_ok taken
        obtain ⟨b3, behind'', fourth, taken⟩ := bind_eq_ok taken
        obtain ⟨rfl, rfl⟩ := pure_eq_ok.mp taken
        have b1_lt := b1.toNat_lt
        have b2_lt := b2.toNat_lt
        have b3_lt := b3.toNat_lt
        refine ⟨.long (((lead.toNat % 0x20 * 0x100 + b1.toNat) * 0x100 + b2.toNat) * 0x100 + b3.toNat)
          (by omega), ?_, rfl⟩
        rw [Compressed.bytes, ofNat_eq lead (by omega), ofNat_eq b1 (by omega),
          ofNat_eq b2 (by omega), ofNat_eq b3 (by omega)]
        exact Cursor.takes_cons.mpr ⟨middle, first, Cursor.takes_cons.mpr ⟨behind, byte_eq_ok.mp second,
          Cursor.takes_cons.mpr ⟨behind', byte_eq_ok.mp third, byte_eq_ok.mp fourth⟩⟩⟩
      · cases taken

/-- Every encoding is taken, and gives its number. -/
theorem compressed_of_form (form : Compressed) (takes : cursor.Takes form.bytes after) :
    compressed cursor = .ok (form.value, after) := by
  refine bind_eq_ok_iff.mpr ⟨_, _, rfl, bind_eq_ok_iff.mpr ?_⟩
  cases form with
  | short number fits =>
      refine ⟨_, _, byte_eq_ok.mpr takes, ?_⟩
      rw [if_pos ((lt_iff (by omega)).mpr fits), pure_eq_ok, UInt8.toNat_ofNat']
      exact ⟨Nat.mod_eq_of_lt (by omega), rfl⟩
  | medium number fits =>
      obtain ⟨middle, first, second⟩ := Cursor.takes_cons.mp takes
      have lead : (UInt8.ofNat (0x80 + number / 0x100)).toNat = 0x80 + number / 0x100 := by
        rw [UInt8.toNat_ofNat', Nat.mod_eq_of_lt (by omega)]
      refine ⟨_, _, byte_eq_ok.mpr first, ?_⟩
      rw [if_neg (by rw [lt_iff (by omega)]; exact Nat.not_lt.mpr (Nat.le_add_right 0x80 _)),
        if_pos ((lt_iff (by omega)).mpr (show 0x80 + number / 0x100 < 0xC0 by omega))]
      refine bind_eq_ok_iff.mpr ⟨_, _, byte_eq_ok.mpr second, ?_⟩
      rw [pure_eq_ok, lead, UInt8.toNat_ofNat']
      refine ⟨?_, rfl⟩
      change _ = number
      omega
  | long number fits =>
      obtain ⟨middle, first, second⟩ := Cursor.takes_cons.mp takes
      obtain ⟨behind, second, third⟩ := Cursor.takes_cons.mp second
      obtain ⟨behind', third, fourth⟩ := Cursor.takes_cons.mp third
      have lead : (UInt8.ofNat (0xC0 + number / 0x1000000)).toNat = 0xC0 + number / 0x1000000 := by
        rw [UInt8.toNat_ofNat', Nat.mod_eq_of_lt (by omega)]
      refine ⟨_, _, byte_eq_ok.mpr first, ?_⟩
      have above : 0x80 ≤ 0xC0 + number / 0x1000000 := by omega
      rw [if_neg (by rw [lt_iff (by omega)]; exact Nat.not_lt.mpr above),
        if_neg (by rw [lt_iff (by omega)]; exact Nat.not_lt.mpr (Nat.le_add_right 0xC0 _)),
        if_pos ((lt_iff (by omega)).mpr (show 0xC0 + number / 0x1000000 < 0xE0 by omega))]
      refine bind_eq_ok_iff.mpr ⟨_, _, byte_eq_ok.mpr second, bind_eq_ok_iff.mpr ⟨_, _, byte_eq_ok.mpr third,
        bind_eq_ok_iff.mpr ⟨_, _, byte_eq_ok.mpr fourth, ?_⟩⟩⟩
      rw [pure_eq_ok, lead, UInt8.toNat_ofNat', UInt8.toNat_ofNat', UInt8.toNat_ofNat']
      refine ⟨?_, rfl⟩
      change _ = number
      omega

end Reader

namespace Cursor

/-- Cursor in front of bytes, and the one behind them. -/
theorem takes_start (bytes rest : List UInt8) : Takes ⟨0, bytes ++ rest⟩ bytes ⟨bytes.length, rest⟩ :=
  ⟨rfl, (Nat.zero_add _).symm⟩

end Cursor

namespace Compressed

theorem ext_of_length {form other : Compressed} (value : form.value = other.value)
    (length : form.bytes.length = other.bytes.length) : form = other := by
  cases form with
  | short number fits | medium number fits | long number fits =>
      cases other with
      | short number' fits' | medium number' fits' | long number' fits' =>
          cases value
          first
          | rfl
          | cases length

/-- No encoding is the beginning of another one. -/
theorem unambiguous {form other : Compressed} {rest rest' : List UInt8}
    (same : form.bytes ++ rest = other.bytes ++ rest') : form = other ∧ rest = rest' := by
  have first := Reader.compressed_of_form form (Cursor.takes_start form.bytes rest)
  have second := Reader.compressed_of_form other (Cursor.takes_start other.bytes rest')
  rw [same, second] at first
  injection first with equal
  injection equal with value after
  injection after with length rest
  exact ⟨ext_of_length value.symm length.symm, rest.symm⟩

end Compressed
end CilProfiler

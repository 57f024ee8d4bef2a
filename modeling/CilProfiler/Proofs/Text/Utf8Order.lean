/-! # Texts by their bytes

Texts are compared code point by code point. Their UTF-8 encodings, compared byte by byte, are in the
same order: where the encodings of two characters differ first, the smaller byte is that of the smaller
code point, since a longer encoding also starts with a greater byte.
-/

namespace CilProfiler
namespace Utf8

/-- Bytes of a text in UTF-8. -/
def bytes (text : String) : List UInt8 :=
  text.toUTF8.data.toList

theorem bytes_eq_flatMap (text : String) : bytes text = text.toList.flatMap String.utf8EncodeChar := by
  rw [bytes, String.toUTF8, ← String.utf8Encode_toList, List.utf8Encode, List.data_toByteArray]

/-- Bytes that come before others, whatever follows the ones and the others. -/
def Precedes (first second : List UInt8) : Prop :=
  ∀ rest rest' : List UInt8, first ++ rest < second ++ rest'

section Bytes

variable {a b : Nat} {first second : List UInt8}

/-- The first bytes decide, or if they are equal what is behind them. -/
theorem precedes_cons (le : a ≤ b) (small : b < 256) (behind : a = b → Precedes first second) :
    Precedes (UInt8.ofNat a :: first) (UInt8.ofNat b :: second) := by
  intro rest rest'
  rw [List.cons_append, List.cons_append, List.cons_lt_cons_iff]
  rcases Nat.lt_or_eq_of_le le with less | same
  · refine .inl (UInt8.lt_iff_toNat_lt.mpr ?_)
    rwa [UInt8.toNat_ofNat_of_lt' (Nat.lt_trans less small), UInt8.toNat_ofNat_of_lt' small]
  · exact .inr ⟨same ▸ rfl, behind same rest rest'⟩

theorem precedes_of_lt (less : a < b) (small : b < 256) :
    Precedes (UInt8.ofNat a :: first) (UInt8.ofNat b :: second) :=
  precedes_cons (Nat.le_of_lt less) small fun same => absurd same (Nat.ne_of_lt less)

end Bytes

/-- The encoding of a smaller code point precedes. -/
theorem precedes_utf8EncodeChar {c d : Char} (less : c < d) :
    Precedes (String.utf8EncodeChar c) (String.utf8EncodeChar d) := by
  have less : c.val.toNat < d.val.toNat := less
  have bound : d.val.toNat < 0x110000 := by
    rcases d.valid with low | ⟨-, high⟩
    · exact Nat.lt_trans low (by decide)
    · exact high
  simp only [String.utf8EncodeChar]
  generalize c.val.toNat = n at less ⊢
  generalize d.val.toNat = m at less bound ⊢
  -- Encodings of one length are compared by their digits, others by their first bytes.
  by_cases one : m ≤ 0x7f
  · rw [if_pos one, if_pos (by omega)]
    exact precedes_of_lt less (by omega)
  rw [if_neg one]
  by_cases two : m ≤ 0x7ff
  · rw [if_pos two]
    by_cases shorter : n ≤ 0x7f
    · rw [if_pos shorter]
      exact precedes_of_lt (by omega) (by omega)
    · rw [if_neg shorter, if_pos (by omega)]
      refine precedes_cons (by omega) (by omega) fun same => ?_
      exact precedes_of_lt (by omega) (by omega)
  rw [if_neg two]
  by_cases three : m ≤ 0xffff
  · rw [if_pos three]
    split
    · exact precedes_of_lt (by omega) (by omega)
    · split
      · exact precedes_of_lt (by omega) (by omega)
      · rw [if_pos (by omega)]
        refine precedes_cons (by omega) (by omega) fun same => ?_
        refine precedes_cons (by omega) (by omega) fun same' => ?_
        exact precedes_of_lt (by omega) (by omega)
  rw [if_neg three]
  split
  · exact precedes_of_lt (by omega) (by omega)
  · split
    · exact precedes_of_lt (by omega) (by omega)
    · split
      · exact precedes_of_lt (by omega) (by omega)
      · refine precedes_cons (by omega) (by omega) fun same => ?_
        refine precedes_cons (by omega) (by omega) fun same' => ?_
        refine precedes_cons (by omega) (by omega) fun same'' => ?_
        exact precedes_of_lt (by omega) (by omega)

/-- Encoding keeps the order of texts. -/
theorem flatMap_lt {chars chars' : List Char} (less : chars < chars') :
    chars.flatMap String.utf8EncodeChar < chars'.flatMap String.utf8EncodeChar := by
  induction less with
  | @nil first rest =>
      rw [List.flatMap_nil, List.flatMap_cons]
      cases encoded : String.utf8EncodeChar first with
      | nil =>
          have size := String.length_utf8EncodeChar first
          rw [encoded] at size
          exact absurd size (Nat.ne_of_lt first.utf8Size_pos)
      | cons byte behind => exact List.nil_lt_cons _ _
  | rel less =>
      rw [List.flatMap_cons, List.flatMap_cons]
      exact precedes_utf8EncodeChar less _ _
  | cons _ ih =>
      rw [List.flatMap_cons, List.flatMap_cons]
      exact List.append_left_lt ih

theorem bytes_lt_iff {text text' : String} : bytes text < bytes text' ↔ text < text' := by
  have forth : ∀ {text text' : String}, text < text' → bytes text < bytes text' := by
    intro text text' less
    rw [bytes_eq_flatMap, bytes_eq_flatMap]
    exact flatMap_lt less
  refine ⟨fun before => Decidable.byContradiction fun unordered => ?_, forth⟩
  rcases List.le_iff_lt_or_eq.mp (List.not_lt.mp unordered) with less | same
  · exact List.lt_asymm before (forth less)
  · rw [String.toList_inj.mp same] at before
    exact List.lt_irrefl _ before

/-- Texts are compared as their bytes are. -/
theorem compare_eq_lt {text text' : String} :
    compare text text' = .lt ↔ bytes text < bytes text' :=
  compareOfLessAndEq_eq_lt.trans bytes_lt_iff.symm

end Utf8
end CilProfiler

import CilProfiler.Text.Hex

/-! # Hexadecimal numerals can be read back

Reading a numeral gives the number it was written for, whether or not it was filled up with zeros. So
numerals of any field width tell numbers apart, also those that have outgrown the field.
-/

namespace CilProfiler
namespace Hex

/-- Value of a digit; sixteen for what is none. -/
def digitValue (c : Char) : Nat :=
  ['0', '1', '2', '3', '4', '5', '6', '7', '8', '9', 'a', 'b', 'c', 'd', 'e', 'f'].idxOf c

/-- Number that a numeral stands for. -/
def value (numeral : List Char) : Nat :=
  numeral.foldl (fun front c => front * 16 + digitValue c) 0

theorem digitValue_digitChar : ∀ d < 16, digitValue d.digitChar = d := by
  decide

theorem value_concat (front : List Char) (last : Char) :
    value (front ++ [last]) = value front * 16 + digitValue last := by
  rw [value, List.foldl_append]
  rfl

theorem digits_of_lt {n : Nat} (small : n < 16) : digits n = [n.digitChar] :=
  Nat.toDigits_of_lt_base small

theorem digits_of_le {n : Nat} (large : 16 ≤ n) :
    digits n = digits (n / 16) ++ [(n % 16).digitChar] :=
  Nat.toDigits_of_base_le (by decide) large

theorem value_digits (n : Nat) : value (digits n) = n := by
  induction n using Nat.strongRecOn with
  | ind n ih =>
      by_cases small : n < 16
      · rw [digits_of_lt small, ← List.nil_append [_], value_concat, digitValue_digitChar n small]
        exact Nat.zero_add n
      · rw [digits_of_le (Nat.le_of_not_lt small), value_concat, ih (n / 16) (by omega),
          digitValue_digitChar _ (Nat.mod_lt n (by decide)), Nat.mul_comm, Nat.div_add_mod]

/-- Zeros in front do not count. -/
theorem value_zeros (count : Nat) (numeral : List Char) :
    value (List.replicate count '0' ++ numeral) = value numeral := by
  induction count with
  | zero => rfl
  | succ count ih =>
      rw [List.replicate_succ, List.cons_append, ← ih]
      rfl

theorem toList_padded (width n : Nat) :
    (padded width n).toList = List.replicate (width - (digits n).length) '0' ++ digits n := by
  rw [padded, String.toList_ofList, List.leftpad]

theorem value_padded (width n : Nat) : value (padded width n).toList = n := by
  rw [toList_padded, value_zeros, value_digits]

theorem padded_injective (width : Nat) : Function.Injective (padded width) := by
  intro n m same
  rw [← value_padded width n, same, value_padded]

theorem exists_of_mem_digits {n : Nat} {c : Char} (member : c ∈ digits n) :
    ∃ d < 16, c = d.digitChar := by
  induction n using Nat.strongRecOn with
  | ind n ih =>
      by_cases small : n < 16
      · rw [digits_of_lt small, List.mem_singleton] at member
        exact ⟨n, small, member⟩
      · rw [digits_of_le (Nat.le_of_not_lt small), List.mem_append, List.mem_singleton] at member
        rcases member with front | last
        · exact ih (n / 16) (by omega) front
        · exact ⟨n % 16, Nat.mod_lt n (by decide), last⟩

theorem exists_of_mem_padded {width n : Nat} {c : Char} (member : c ∈ (padded width n).toList) :
    ∃ d < 16, c = d.digitChar := by
  rw [toList_padded, List.mem_append] at member
  rcases member with zero | digit
  · exact ⟨0, by decide, List.eq_of_mem_replicate zero⟩
  · exact exists_of_mem_digits digit

end Hex
end CilProfiler

/-! # Hexadecimal text

Lower-case hexadecimal numerals, plain or filled up with leading zeros. Padding never
shortens a numeral: a value too wide for the field keeps all its digits.
-/

namespace CilProfiler
namespace Hex

/-- Digits of `n`, most significant first and at least one. -/
def digits (n : Nat) : List Char :=
  Nat.toDigits 16 n

def plain (n : Nat) : String :=
  String.ofList (digits n)

/-- Numeral of `n`, filled up with leading zeros to at least `width` digits. -/
def padded (width n : Nat) : String :=
  String.ofList ((digits n).leftpad width '0')

end Hex
end CilProfiler

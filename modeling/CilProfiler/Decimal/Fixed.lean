import CilProfiler.Decimal.Binary
import CilProfiler.Decimal.Numeral

/-! # Decimal text with fixed places

The text of a binary value with a fixed number of places rounds the exact value once, and a
value halfway between two numerals goes to the one with the even last digit.
-/

namespace CilProfiler
namespace Fixed

/-- Quotient rounded to the nearest whole number, a half to the even one. -/
def roundDiv (numerator denominator : Nat) : Nat :=
  let below := numerator / denominator
  let twice := 2 * (numerator % denominator)
  if twice < denominator then below
  else if denominator < twice then below + 1
  else if below % 2 = 0 then below
  else below + 1

def decimal (places : Nat) (magnitude : Magnitude) : Decimal :=
  ⟨roundDiv (magnitude.numerator * Nat.pow 10 places) magnitude.denominator, -places⟩

/-- Text of a value with `places` places. The sign stays, also where everything but the sign is
    rounded away. -/
def text (places : Nat) : BinaryValue → String
  | .notANumber => "NaN"
  | .infinite false => "inf"
  | .infinite true => "-inf"
  | .finite negative magnitude => (decimal places magnitude).signedNumeral negative

end Fixed
end CilProfiler

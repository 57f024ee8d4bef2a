import CilProfiler.Decimal.Binary
import CilProfiler.Decimal.Numeral

/-! # Shortest decimal text

The shortest text of a binary value has the fewest digits among the decimals that round back
to it, and among those the one nearest to the value; of two equally near the greater is taken.

For each number of digits the candidates are the two neighbours of the value on the grid of
decimals with that many digits: if any decimal of the grid rounds to the value, so does one of
these. All tests are exact comparisons of whole numbers.
-/

namespace CilProfiler
namespace Shortest

/-- A magnitude and its rounding interval, measured in units of a decimal place: each of the
    numbers is a numerator over `unit`. -/
structure Scaled where
  value : Nat
  lower : Nat
  upper : Nat
  unit : Nat
  /-- The ends of the interval round to the value as well. -/
  closed : Bool
  deriving Repr, DecidableEq

/-- Measure a magnitude in units of `10 ^ place`. The ends of the interval belong to it exactly
    when the significand is even, since a tie rounds to even. -/
def Scaled.ofMagnitude (magnitude : Magnitude) (place : Int) : Scaled :=
  let up := Nat.pow 10 (-place).toNat
  { value := magnitude.numerator * up
    lower := magnitude.lowerEnd * up
    upper := magnitude.upperEnd * up
    unit := magnitude.denominator * Nat.pow 10 place.toNat
    closed := magnitude.significand % 2 == 0 }

/-- `count` units of the decimal place round to the value. -/
def Scaled.covers (scaled : Scaled) (count : Nat) : Bool :=
  let point := count * scaled.unit
  if scaled.closed then
    scaled.lower ≤ point && point ≤ scaled.upper
  else
    scaled.lower < point && point < scaled.upper

/-- Of the two neighbours of the value on the grid, the nearer one that rounds to it. -/
def Scaled.nearest? (scaled : Scaled) : Option Nat :=
  let below := scaled.value / scaled.unit
  let rest := scaled.value % scaled.unit
  match scaled.covers below, scaled.covers (below + 1) with
  | true, true => some (if 2 * rest < scaled.unit then below else below + 1)
  | true, false => some below
  | false, true => some (below + 1)
  | false, false => none

def leadingPlace (magnitude : Magnitude) : Int :=
  let width (n : Nat) : Int := (Nat.toDigits 10 n).length
  let guess := width magnitude.numerator - width magnitude.denominator
  let size := magnitude.numerator * Nat.pow 10 (-guess).toNat
  let power := magnitude.denominator * Nat.pow 10 guess.toNat
  if power ≤ size then guess else guess - 1

/-- Try `count` more widths of the grid, from `digits` digits on. -/
def search (magnitude : Magnitude) (leading : Int) : Nat → Nat → Option Decimal
  | 0, _ => none
  | count + 1, digits =>
    let place := leading + 1 - digits
    match (Scaled.ofMagnitude magnitude place).nearest? with
    | some found => some ⟨found, place⟩
    | none => search magnitude leading count (digits + 1)

/-- Seventeen digits tell any two doubles apart. -/
def maxDigits : Nat := 17

def decimal (magnitude : Magnitude) : Decimal :=
  if magnitude.significand = 0 then ⟨0, 0⟩
  else
    match search magnitude (leadingPlace magnitude) maxDigits 1 with
    | some found => found.stripZeros maxDigits
    | none => ⟨0, 0⟩

def text : BinaryValue → String
  | .notANumber => "NaN"
  | .infinite false => "inf"
  | .infinite true => "-inf"
  | .finite negative magnitude => (decimal magnitude).signedNumeral negative

end Shortest
end CilProfiler

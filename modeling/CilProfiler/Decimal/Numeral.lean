/-! # Positional decimal numerals

A decimal number is a whole number of units in some decimal place. Its numeral spells out all
places between the point and its digits and never uses an exponent.
-/

namespace CilProfiler

structure Decimal where
  digits : Nat
  place : Int
  deriving Repr, DecidableEq

namespace Decimal

/-- Move trailing zeros of the digits into the place; `count` bounds how many. -/
def stripZeros : Nat → Decimal → Decimal
  | 0, number => number
  | count + 1, number =>
    if number.digits % 10 = 0 ∧ number.digits ≠ 0 then
      stripZeros count ⟨number.digits / 10, number.place + 1⟩
    else number

/-- Numeral with a whole part of at least one digit. The fraction has one digit for each
    place below the point, and no point is written when there is none. -/
def numeral (number : Decimal) : String :=
  let digits := Nat.toDigits 10 number.digits
  if 0 ≤ number.place then
    String.ofList (digits ++ List.replicate number.place.toNat '0')
  else
    let places := (-number.place).toNat
    let filled := digits.leftpad (places + 1) '0'
    let whole := filled.length - places
    String.ofList (filled.take whole ++ '.' :: filled.drop whole)

def signedNumeral (negative : Bool) (number : Decimal) : String :=
  if negative then "-" ++ number.numeral else number.numeral

end Decimal
end CilProfiler

/-! # Binary floating-point values

A binary interchange format packs a sign, an exponent field and a fraction into one word.
Reading a word gives the exact value it stands for, a whole number times a power of two,
together with what is needed to know which reals round to it.
-/

namespace CilProfiler

structure BinaryFormat where
  exponentBits : Nat
  fractionBits : Nat
  deriving Repr, DecidableEq

namespace BinaryFormat

def single : BinaryFormat := ⟨8, 23⟩

def double : BinaryFormat := ⟨11, 52⟩

/-- Exponent of the unit of the smallest values. -/
def minExponent (format : BinaryFormat) : Int :=
  2 - Nat.pow 2 (format.exponentBits - 1) - format.fractionBits

/-- The exponent field of values that are no numbers. -/
def maxField (format : BinaryFormat) : Nat :=
  Nat.pow 2 format.exponentBits - 1

end BinaryFormat

/-- Magnitude `significand * 2 ^ exponent` of a finite value. -/
structure Magnitude where
  significand : Nat
  exponent : Int
  /-- The next smaller value is only half as far away as the next greater one. -/
  narrowBelow : Bool
  deriving Repr, DecidableEq

/-- What a word of a binary format stands for. Payload and sign of what is not a number are
    dropped, because no text shows them. -/
inductive BinaryValue where
  | notANumber
  | infinite (negative : Bool)
  | finite (negative : Bool) (magnitude : Magnitude)
  deriving Repr, DecidableEq

/-- Value of a word. An exponent field of zero marks the subnormal values, which have no
    implicit leading one; a fraction of zero above the first binade marks a power of two, whose
    lower neighbour lies in the denser binade below. -/
def BinaryFormat.read (format : BinaryFormat) (word : Nat) : BinaryValue :=
  let leadingOne := Nat.pow 2 format.fractionBits
  let fraction := word % leadingOne
  let field := word / leadingOne % Nat.pow 2 format.exponentBits
  let negative := word / Nat.pow 2 (format.fractionBits + format.exponentBits) % 2 == 1
  if field = format.maxField then
    if fraction = 0 then .infinite negative else .notANumber
  else if field = 0 then
    .finite negative ⟨fraction, format.minExponent, false⟩
  else
    .finite negative
      ⟨leadingOne + fraction, format.minExponent + (field - 1 : Nat), fraction == 0 && field != 1⟩

namespace Magnitude

/-- Factor of every numerator over `denominator`: numerators count quarters of the unit. -/
def scale (magnitude : Magnitude) : Nat :=
  Nat.pow 2 (magnitude.exponent - 2).toNat

/-- Denominator that the magnitude and the ends of its rounding interval share. -/
def denominator (magnitude : Magnitude) : Nat :=
  Nat.pow 2 (2 - magnitude.exponent).toNat

def numerator (magnitude : Magnitude) : Nat :=
  4 * magnitude.significand * magnitude.scale

/-- Numerator of the midpoint to the next smaller value. -/
def lowerEnd (magnitude : Magnitude) : Nat :=
  (4 * magnitude.significand - if magnitude.narrowBelow then 1 else 2) * magnitude.scale

def upperEnd (magnitude : Magnitude) : Nat :=
  (4 * magnitude.significand + 2) * magnitude.scale

end Magnitude
end CilProfiler

/-! # Counters

Tick totals are signed 64 bit numbers, call counts and stack weights unsigned ones. Every
single addition and subtraction is checked: a result outside the range is an `Overflow`, never
a wrapped number.
-/

namespace CilProfiler

inductive Overflow where
  | add
  | subtract
  deriving Repr, DecidableEq

def Overflow.message : Overflow → String
  | .add => "attempt to add with overflow"
  | .subtract => "attempt to subtract with overflow"

abbrev Ticks := Int

namespace Ticks

/-- Tick totals lie below this bound, and not below its negation. -/
def bound : Int := 0x8000000000000000

def InRange (ticks : Int) : Prop :=
  -bound ≤ ticks ∧ ticks < bound

instance (ticks : Int) : Decidable (InRange ticks) :=
  inferInstanceAs (Decidable (_ ∧ _))

def add (a b : Ticks) : Except Overflow Ticks :=
  if InRange (a + b) then .ok (a + b) else .error .add

def sub (a b : Ticks) : Except Overflow Ticks :=
  if InRange (a - b) then .ok (a - b) else .error .subtract

/-- Checked sum of a list, from the left; every partial sum has to fit. -/
def sum (ticks : List Ticks) : Except Overflow Ticks :=
  ticks.foldlM add 0

end Ticks

abbrev Count := Nat

namespace Count

def bound : Nat := 0x10000000000000000

def add (a b : Count) : Except Overflow Count :=
  if a + b < bound then .ok (a + b) else .error .add

end Count
end CilProfiler

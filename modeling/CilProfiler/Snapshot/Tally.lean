import CilProfiler.Counter

/-! # Tallies

A tally adds up values by key. It holds every key once, in the order in which the keys first
arrived, so that what is read off it does not depend on how keys are stored.
-/

namespace CilProfiler

/-- Values by key, in order of arrival. -/
abbrev Tally (κ ν : Type) := List (κ × ν)

namespace Tally

variable {κ ν : Type} [DecidableEq κ]

def record (combine : ν → ν → Except Overflow ν) (key : κ) (value : ν) :
    Tally κ ν → Except Overflow (Tally κ ν)
  | [] => .ok [(key, value)]
  | (stored, total) :: rest =>
    if stored = key then do
      return (stored, ← combine total value) :: rest
    else do
      return (stored, total) :: (← record combine key value rest)

end Tally
end CilProfiler

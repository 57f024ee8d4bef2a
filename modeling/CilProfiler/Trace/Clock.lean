import CilProfiler.Counter

/-! # Manual clock

A clock that is set and advanced by hand, for replaying recorded traces.
-/

namespace CilProfiler

/-- Clock that only moves when it is told to. -/
structure ManualClock where
  reading : Ticks
  deriving Repr, DecidableEq

namespace ManualClock

def set (_clock : ManualClock) (reading : Ticks) : ManualClock :=
  ⟨reading⟩

def advance (clock : ManualClock) (ticks : Ticks) : Except Overflow ManualClock :=
  ManualClock.mk <$> Ticks.add clock.reading ticks

end ManualClock
end CilProfiler

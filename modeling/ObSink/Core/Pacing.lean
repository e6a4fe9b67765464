import Mathlib.Algebra.Order.Ring.Nat

/-! # How a driver paces itself

`core/src/pacing.rs`, shared by the daemon and the browser's driver. Durations
are numbers of milliseconds.
-/

namespace ObSink

/-- `base * 2 ^ failures`, capped; the power saturates as a `u32`. -/
def backoffWait (base max failures : Nat) : Nat := min (base * min (2 ^ failures) (2 ^ 32 - 1)) max

/-- The remote poll cadence. -/
structure PollPacing where
  active : Nat
  idle : Nat
  activeWindow : Nat
  deriving DecidableEq, Repr

/-- The interval given how long ago the last activity was. -/
def PollPacing.interval (pacing : PollPacing) (sinceActivity : Nat) : Nat :=
  if sinceActivity < pacing.activeWindow then pacing.active else pacing.idle

end ObSink

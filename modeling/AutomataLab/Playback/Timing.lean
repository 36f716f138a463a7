/-!
# Timing of a playback

Delays are whole milliseconds. The speed of a playback is kept within bounds at which it can be
followed; the delay before its first step is free.
-/

namespace AutomataLab

/-- The time between two steps and the time before the first one. -/
structure Timing where
  speed : Nat := 500
  prepareDelay : Nat := 500
  deriving DecidableEq

namespace Timing

/-- The fastest playback. -/
def minSpeed : Nat := 100

/-- The slowest playback. -/
def maxSpeed : Nat := 1000

/-- The nearest speed within the bounds. -/
def clampSpeed (ms : Nat) : Nat := max minSpeed (min ms maxSpeed)

theorem minSpeed_le_clampSpeed (ms : Nat) : minSpeed ≤ clampSpeed ms := Nat.le_max_left _ _

theorem clampSpeed_le_maxSpeed (ms : Nat) : clampSpeed ms ≤ maxSpeed :=
  Nat.max_le.2 ⟨by decide, Nat.min_le_right _ _⟩

end Timing

end AutomataLab

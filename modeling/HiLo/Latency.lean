/-
HiLo.Latency — the delay of a slow supplier of hi values.

A latency model is asked once before each value is handed out. It answers
with the pause to make and with its own next state; how long a pause really
lasts does not enter any value.
-/
import HiLo.Duration

namespace HiLo

/-- A model of delays with states in `π`: the pause before the next value, and
the state after it. -/
structure Latency (π : Type) where
  pause : π → Duration × π

namespace Latency

def none (π : Type) : Latency π := ⟨fun p => (.zero, p)⟩

/-- No delay; the state counts how often it was asked. -/
def counting : Latency Nat := ⟨fun n => (.zero, n + 1)⟩

def fixed (π : Type) (d : Duration) : Latency π := ⟨fun p => (d, p)⟩

end Latency

/-- Normally distributed delays. -/
structure Gaussian where
  mean : Duration
  deviation : Duration
  deriving DecidableEq

namespace Gaussian

/-- The delay drawn when the deviation is below half a unit in the last place
of the mean: every draw rounds to the mean itself, as a floating point number
of seconds. -/
def narrowSample (g : Gaussian) : Duration := .ofSeconds g.mean.toSeconds

end Gaussian

end HiLo

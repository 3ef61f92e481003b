import DatagramTransport.Settings

/-!
# Latency — what the answers to pings tell

The last, the lowest and the highest of the measured times, and what their mean is computed from.
The sum and the number of samples both stop at their greatest value rather than start again, so the
mean is exact as long as neither of them has got there.
-/

set_option autoImplicit false

namespace DatagramTransport

/-- Measured times between a ping and its answer. -/
structure Latency where
  last : Option Nanoseconds := none
  lowest : Option Nanoseconds := none
  highest : Option Nanoseconds := none
  total : Nanoseconds := 0
  count : Nat := 0
  deriving DecidableEq, Repr

namespace Latency

/-- The number of samples from which on they are not counted any more. -/
def mostSamples : Nat := 4294967295

def record (measured : Nanoseconds) (l : Latency) : Latency where
  last := some measured
  lowest := some (match l.lowest with
    | some lowest => min lowest measured
    | none => measured)
  highest := some (match l.highest with
    | some highest => max highest measured
    | none => measured)
  total := Nanoseconds.add l.total measured
  count := min (l.count + 1) mostSamples

/-- The mean of the samples, if there are any, rounded down. -/
def average? (l : Latency) : Option Nanoseconds :=
  if l.count = 0 then none else some (l.total / l.count)

end Latency

end DatagramTransport

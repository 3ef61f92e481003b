import DatagramTransport.Settings

/-!
# The retransmission timer — how long to wait for an acknowledgement

The timeout follows the round trips that were measured: their smoothed mean, and above it four times
their smoothed deviation or the granularity of the clock, whichever is more. The smoothing is done
in milliseconds with binary floating point; the result is rounded to microseconds.

Whatever the smoothing gives, **the timeout stays between its two ends**, since it is clamped after
every sample, and doubling stops at the upper end. No law about it depends on floating point.
-/

set_option autoImplicit false

namespace DatagramTransport

namespace Nanoseconds

/-- A length of time in milliseconds: seconds and the rest converted one by one. -/
def toMilliseconds (t : Nanoseconds) : Float :=
  ((UInt64.ofNat (t / perSecond)).toFloat
    + (UInt64.ofNat (t % perSecond)).toFloat / 1000000000.0) * 1000.0

/-- A number of milliseconds as a length of time, rounded to microseconds. -/
def ofMilliseconds (ms : Float) : Nanoseconds :=
  (ms * 1000.0).round.toUInt64.toNat * perMicrosecond

/-- The nearest length of time between two ends. -/
def clamp (low high t : Nanoseconds) : Nanoseconds := max low (min t high)

end Nanoseconds

/-- What is known about the round trip, in milliseconds. -/
structure RoundTrip where
  mean : Float
  deviation : Float
  deriving Repr

namespace RoundTrip

def first (sample : Float) : RoundTrip := ⟨sample, sample / 2.0⟩

/-- What another sample adds. The deviation is taken from the mean before it. -/
def next (r : RoundTrip) (sample : Float) : RoundTrip where
  mean := 0.875 * r.mean + 0.125 * sample
  deviation := 0.75 * r.deviation + 0.25 * (r.mean - sample).abs

/-- How long a round trip may take, in milliseconds. -/
def bound (r : RoundTrip) (granularity : Float) : Float :=
  let margin := 4.0 * r.deviation
  r.mean + (if granularity < margin then margin else granularity)

end RoundTrip

/-- The retransmission timeout and what it follows from. -/
structure RetransmissionTimer where
  roundTrip : Option RoundTrip
  rto : Nanoseconds
  granularity : Nanoseconds
  minRto : Nanoseconds
  maxRto : Nanoseconds
  deriving Repr

namespace RetransmissionTimer

/-- A timer that knows nothing about the round trip yet. -/
def fresh (initialRto minRto maxRto granularity : Nanoseconds) : RetransmissionTimer where
  roundTrip := none
  rto := Nanoseconds.clamp minRto maxRto initialRto
  granularity := granularity
  minRto := minRto
  maxRto := maxRto

/-- A timer, or nothing if the ends of its range are in the wrong order. -/
def fresh? (initialRto minRto maxRto granularity : Nanoseconds) : Option RetransmissionTimer :=
  if minRto ≤ maxRto then some (fresh initialRto minRto maxRto granularity) else none

def sample (measured : Nanoseconds) (t : RetransmissionTimer) : RetransmissionTimer :=
  let ms := measured.toMilliseconds
  let roundTrip := match t.roundTrip with
    | some r => r.next ms
    | none => RoundTrip.first ms
  { t with
    roundTrip := some roundTrip
    rto := Nanoseconds.clamp t.minRto t.maxRto
      (Nanoseconds.ofMilliseconds (roundTrip.bound t.granularity.toMilliseconds)) }

/-- Waits twice as long from now on, up to the upper end. -/
def backOff (t : RetransmissionTimer) : RetransmissionTimer :=
  { t with rto := min (Nanoseconds.add t.rto t.rto) t.maxRto }

def mean? (t : RetransmissionTimer) : Option Nanoseconds :=
  t.roundTrip.map fun r => Nanoseconds.ofMilliseconds r.mean

end RetransmissionTimer

end DatagramTransport

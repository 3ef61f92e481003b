import DatagramTransport.ControlMessage.Basic

/-!
# Settings — what an end point and all of its sessions are configured with

Lengths of time are in nanoseconds throughout, and a point in time is the length of time since some
fixed moment. They are natural numbers, so a difference of two points is zero if they come in the
wrong order.

The engine works with any settings, but **its bounds hold for valid ones only**: `fault?` names the
first rule that is broken, and `Valid` says that none is. The rules that matter most are the
bounds on the windows, which must be less than half a turn of a counter, since otherwise "ahead" and
"behind" cannot be told apart.
-/

set_option autoImplicit false

namespace DatagramTransport

/-- A length of time, or a point in time, in nanoseconds. -/
abbrev Nanoseconds := Nat

namespace Nanoseconds

def perMicrosecond : Nanoseconds := 1000
def perMillisecond : Nanoseconds := 1000000
def perSecond : Nanoseconds := 1000000000

/-- The greatest length of time: just under `2^64` seconds. Sums stop there. -/
def longest : Nanoseconds := 18446744073709551616 * perSecond - 1

/-- A sum that stops at the greatest length of time. -/
def add (a b : Nanoseconds) : Nanoseconds := min (a + b) longest

end Nanoseconds

/-- The configuration of an end point and its sessions. -/
structure Settings where
  /-- Where packets are received. -/
  bindAddress : Address := ⟨.v4 0, 19132⟩
  /-- By what peers tell this end point from others. -/
  guid : UInt64 := 0
  /-- The answer to pings from without a connection. -/
  identifier : String := ""
  protocolVersion : UInt8 := protocolVersion
  acceptIncoming : Bool := true
  maxConnections : Nat := 64
  /-- The size of packet, headers below this protocol included, for a peer without a negotiated
  one. -/
  mtu : UInt16 := 1464
  minMtu : UInt16 := 400
  maxMtu : UInt16 := 1492
  orderChannels : Nat := 32
  /-- The most fragments that a received message may have. -/
  maxFragmentCount : Nat := 128
  /-- How many messages of one peer may be in reassembly. -/
  maxAssemblies : Nat := 64
  /-- The most fragments that a sent message may have. -/
  maxFragmentsPerSend : Nat := 128
  /-- How many datagrams, and how many reliable messages, are told apart as new or received. -/
  receiveWindow : Nat := 2048
  /-- How far ahead of the next one an ordered message may be and still be kept. -/
  orderingWindow : Nat := 2048
  /-- A session is closed when nothing was received for this long. -/
  sessionTimeout : Nanoseconds := 10 * Nanoseconds.perSecond
  pingInterval : Nanoseconds := 2500 * Nanoseconds.perMillisecond
  latencyEnabled : Bool := true
  /-- A peer is probed when nothing was received from it for this long. -/
  keepAliveInterval : Nanoseconds := 5 * Nanoseconds.perSecond
  /-- The retransmission timeout before anything is known about the round trip. -/
  initialRto : Nanoseconds := 1 * Nanoseconds.perSecond
  minRto : Nanoseconds := 50 * Nanoseconds.perMillisecond
  maxRto : Nanoseconds := 10 * Nanoseconds.perSecond
  /-- How often the end point looks at the time. -/
  tickInterval : Nanoseconds := 10 * Nanoseconds.perMillisecond
  /-- The most datagrams that a session sends at once. -/
  maxDatagramsPerTick : Nat := 256
  deriving DecidableEq, Repr

/-- The rule that settings break. -/
inductive SettingsFault where
  | minMtuTooSmall
  | maxMtuTooLarge
  | mtuOutOfRange (mtu minMtu maxMtu : UInt16)
  | orderChannels
  | fragmentLimits
  | noAssembly
  | emptyWindow
  | windowTooLarge
  | pingInterval
  | rtoRange
  | noDatagramPerTick
  | identifierTooLong
  deriving DecidableEq, Repr

namespace Settings

/-- The smallest size of packet that peers can be expected to take. -/
def smallestMtu : UInt16 := 400

/-- The largest size of packet that is not cut up on the way. -/
def largestMtu : UInt16 := 1500

def mostOrderChannels : Nat := 32

def fault? (s : Settings) : Option SettingsFault :=
  if s.minMtu < smallestMtu then some .minMtuTooSmall
  else if largestMtu < s.maxMtu then some .maxMtuTooLarge
  else if s.mtu < s.minMtu ∨ s.maxMtu < s.mtu then some (.mtuOutOfRange s.mtu s.minMtu s.maxMtu)
  else if s.orderChannels = 0 ∨ mostOrderChannels < s.orderChannels then some .orderChannels
  else if s.maxFragmentCount = 0 ∨ s.maxFragmentsPerSend = 0 then some .fragmentLimits
  else if s.maxAssemblies = 0 then some .noAssembly
  else if s.receiveWindow = 0 ∨ s.orderingWindow = 0 then some .emptyWindow
  else if Serial.half ≤ s.receiveWindow ∨ Serial.half ≤ s.orderingWindow then some .windowTooLarge
  else if s.sessionTimeout ≤ s.pingInterval then some .pingInterval
  else if s.maxRto < s.minRto then some .rtoRange
  else if s.maxDatagramsPerTick = 0 then some .noDatagramPerTick
  else if 65536 ≤ s.identifier.utf8ByteSize then some .identifierTooLong
  else none

def Valid (s : Settings) : Prop := s.fault? = none

instance (s : Settings) : Decidable s.Valid := inferInstanceAs (Decidable (_ = _))

/-- Settings are valid if they keep every rule. -/
theorem valid_iff {s : Settings} : s.Valid ↔
    ¬ s.minMtu < smallestMtu ∧ ¬ largestMtu < s.maxMtu ∧ ¬ (s.mtu < s.minMtu ∨ s.maxMtu < s.mtu) ∧
      ¬ (s.orderChannels = 0 ∨ mostOrderChannels < s.orderChannels) ∧
      ¬ (s.maxFragmentCount = 0 ∨ s.maxFragmentsPerSend = 0) ∧ ¬ s.maxAssemblies = 0 ∧
      ¬ (s.receiveWindow = 0 ∨ s.orderingWindow = 0) ∧
      ¬ (Serial.half ≤ s.receiveWindow ∨ Serial.half ≤ s.orderingWindow) ∧
      ¬ s.sessionTimeout ≤ s.pingInterval ∧ ¬ s.maxRto < s.minRto ∧ ¬ s.maxDatagramsPerTick = 0 ∧
      ¬ 65536 ≤ s.identifier.utf8ByteSize := by
  have hrule : ∀ {c : Prop} [Decidable c] {fault : SettingsFault} {rest : Option SettingsFault},
      (if c then some fault else rest) = none ↔ ¬ c ∧ rest = none := by
    intro c _ fault rest
    split <;> simp [*]
  simp only [Valid, fault?, hrule, and_true]

end Settings

/-- The wording of a size of packet that is not between the two ends of a range. -/
def mtuRangeText (minMtu maxMtu : UInt16) : String :=
  "is outside the configured range " ++ toString minMtu.toNat ++ "..=" ++ toString maxMtu.toNat

def SettingsFault.message : SettingsFault → String
  | minMtuTooSmall => "minimum MTU must be at least " ++ toString Settings.smallestMtu.toNat
  | maxMtuTooLarge => "maximum MTU must be at most " ++ toString Settings.largestMtu.toNat
  | mtuOutOfRange mtu minMtu maxMtu =>
    "MTU " ++ toString mtu.toNat ++ " " ++ mtuRangeText minMtu maxMtu
  | orderChannels => "the number of order channels must be between 1 and 32"
  | fragmentLimits => "split limits must be positive"
  | noAssembly => "at least one split assembly is required"
  | emptyWindow => "window sizes must be positive"
  | windowTooLarge => "window sizes must be less than half the index range"
  | pingInterval => "ping interval must be shorter than the session timeout"
  | rtoRange => "minimum RTO must not exceed the maximum RTO"
  | noDatagramPerTick => "at least one datagram per tick is required"
  | identifierTooLong => "identifier is too long"

end DatagramTransport

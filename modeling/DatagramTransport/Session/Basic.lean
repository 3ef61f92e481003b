import DatagramTransport.Latency
import DatagramTransport.Session.Event

/-!
# Sessions — the connection to one peer

A session owns a link and uses it for two things at once: the application's messages, and control
messages of its own, by which the peers log in, measure their latency and part. Control messages
travel on channel zero and never show.

**Sending a control message cannot fail.** One that has no encoding, or that the link does not take,
is not sent, and the session goes on as if it had been.

Points in time are told from outside. What goes into messages is not the time itself but the
milliseconds since the session was created.
-/

set_option autoImplicit false

namespace DatagramTransport

/-- The connection to one peer. -/
structure Session where
  settings : Settings
  role : Role
  address : Address
  guid : UInt64
  phase : Phase
  /-- The reason that will be given when a session that is disconnecting is closed. -/
  closing : Option CloseReason
  link : Link
  /-- What the application has not been told yet. -/
  events : Fifo Event
  /-- Messages that arrived before the end of the login. -/
  early : Fifo Event
  createdAt : Nanoseconds
  lastReceived : Nanoseconds
  lastPing : Option Nanoseconds
  lastProbe : Option Nanoseconds
  /-- The timestamps of pings that were not answered, oldest first. -/
  outstandingPings : List Int64
  latency : Latency
  malformedPackets : Nat
  deriving Repr

namespace Session

/-- The most unanswered pings that are remembered. -/
def mostOutstandingPings : Nat := 32

def mostMilliseconds : Nat := 9223372036854775807

def fresh (settings : Settings) (role : Role) (address : Address) (guid : UInt64) (mtu : UInt16)
    (now : Nanoseconds) : Session where
  settings := settings
  role := role
  address := address
  guid := guid
  phase := .handshaking
  closing := none
  link := Link.fresh settings mtu
  events := .empty
  early := .empty
  createdAt := now
  lastReceived := now
  lastPing := none
  lastProbe := none
  outstandingPings := []
  latency := {}
  malformedPackets := 0

/-- Messages of the application are sent. -/
def isConnected (s : Session) : Bool := s.phase = .connected

/-- Nothing will ever happen again. -/
def isClosed (s : Session) : Bool := s.phase = .disconnected

/-- The milliseconds since the session was created, as many as a timestamp can tell. -/
def timestamp (s : Session) (now : Nanoseconds) : Int64 :=
  Int64.ofNat (min ((now - s.createdAt) / Nanoseconds.perMillisecond) mostMilliseconds)

def emit (events : List Event) (s : Session) : Session :=
  { s with events := s.events.append events }

def takeEvents (s : Session) : List Event × Session :=
  (s.events.toList, { s with events := .empty })

def emitReceipts (receipts : List Receipt) (s : Session) : Session :=
  s.emit (receipts.map .receipt)

/-! ## Sending -/

def sendControl (r : Reliability) (m : ControlMessage) (s : Session) : Session :=
  match m.encode with
  | .error _ => s
  | .ok payload =>
    match s.link.send r 0 payload with
    | .error _ => s
    | .ok (_, link) => { s with link := link }

/-- Sends a payload for the application. Returns the receipt that is promised for it, if its
guarantee asks for one. -/
def send (r : Reliability) (channel : UInt8) (payload : Octets) (s : Session) :
    Except SendFault (Option UInt32 × Session) :=
  if s.phase = .connected then
    match s.link.send r channel payload with
    | .error fault => .error fault
    | .ok (receipt, link) => .ok (receipt, { s with link := link })
  else .error .notConnected

/-- Sends a ping and remembers it. Of too many unanswered pings the oldest is forgotten. -/
def sendPing (now : Nanoseconds) (s : Session) : Session :=
  let timestamp := s.timestamp now
  let pings := s.outstandingPings ++ [timestamp]
  { s with
    lastPing := some now
    outstandingPings := if mostOutstandingPings < pings.length then pings.drop 1 else pings
  }.sendControl .unreliable (.connectedPing timestamp)

/-! ## Moving on -/

/-- Begins the login. This is for the client, and for the beginning. -/
def beginLogin (now : Nanoseconds) (s : Session) : Session :=
  if s.role = .client ∧ s.phase = .handshaking then
    s.sendControl .reliableOrdered (.connectionRequest s.settings.guid (s.timestamp now) false)
  else s

/-- The login is complete. Messages that were held back come out now. -/
def completeLogin (s : Session) : Session :=
  if s.phase = .handshaking then
    { s with phase := .connected, early := .empty }.emit (.connected :: s.early.toList)
  else s

def close (reason : CloseReason) (s : Session) : Session :=
  if s.phase = .disconnected then s
  else
    { s with phase := .disconnected, link := s.link.clear, early := .empty }.emit
      [.disconnected reason]

/-- Ends the session after the next flush, which sends a notification of it and nothing that was
queued before. -/
def disconnect (s : Session) : Session :=
  if s.phase = .disconnecting ∨ s.phase = .disconnected then s
  else
    let s := { s with link := s.link.clear }.sendControl .unreliable .disconnectionNotification
    { s with phase := .disconnecting, closing := some .disconnectedLocally }

end Session

end DatagramTransport

import DatagramTransport.Session.Basic

/-!
# Sessions — what time brings

With every tick a session looks whether its peer has been silent for too long, which ends it, lets
the link send again what was not acknowledged, and then, if it is connected, sends a ping or a probe
when one is due. Nothing is sent before the next flush.

A session that is disconnecting is closed **by** its next flush, after the last packets were taken.
-/

set_option autoImplicit false

namespace DatagramTransport

namespace Session

/-- Whether something that happens at intervals is due: it never happened, or long enough ago. -/
def isDue (now interval : Nanoseconds) : Option Nanoseconds → Bool
  | none => true
  | some last => interval ≤ now - last

def pingIfDue (now : Nanoseconds) (s : Session) : Session :=
  if s.settings.latencyEnabled && isDue now s.settings.pingInterval s.lastPing then s.sendPing now
  else s

/-- Sends a probe when the peer has been silent for long enough and one is due. -/
def probeIfDue (now : Nanoseconds) (s : Session) : Session :=
  if s.settings.keepAliveInterval ≤ now - s.lastReceived
      && isDue now s.settings.keepAliveInterval s.lastProbe then
    { s with lastProbe := some now }.sendControl .unreliable .detectLostConnections
  else s

def tick (now : Nanoseconds) (s : Session) : Session :=
  if s.phase = .disconnected then s
  else if s.settings.sessionTimeout ≤ now - s.lastReceived then s.close .timedOut
  else
    let (receipts, link) := s.link.tick now
    let s := { s with link := link }.emitReceipts receipts
    if s.phase = .connected then (s.pingIfDue now).probeIfDue now else s

def flushPackets (now : Nanoseconds) (s : Session) : List Packet × Session :=
  if s.phase = .disconnected then ([], s)
  else
    let (packets, link) := s.link.flushPackets now s.settings.maxDatagramsPerTick
    let s := { s with link := link }
    (packets,
      if s.phase = .disconnecting then
        { s with closing := none }.close (s.closing.getD .disconnectedLocally)
      else s)

/-- Everything that is ready to be sent to the peer, as octets. -/
def flush (now : Nanoseconds) (s : Session) : List Octets × Session :=
  let (packets, s) := s.flushPackets now
  (packets.map Packet.encode, s)

end Session

end DatagramTransport

import DatagramTransport.Session.Basic

/-!
# Sessions — what arrives

A packet is read as a whole first; if it is malformed nothing of it counts, not even as a sign of
life. What its messages bring is then dealt with one after the other, and **each of them meets the
session as the one before has left it**: a message behind the one that ends the login is delivered,
and one behind the one that ends the session is dropped.

Control messages are ignored wherever they are not expected.
-/

set_option autoImplicit false

namespace DatagramTransport

namespace Session

/-- The milliseconds between two timestamps; zero if they come in the wrong order, and as many as a
timestamp can tell at most. -/
def elapsed (sent received : Int64) : Nat :=
  min (received.toInt - sent.toInt).toNat mostMilliseconds

/-- The answer to a ping arrives. If it is one that is remembered, this is a sample of the latency.
-/
def takePong (now : Nanoseconds) (pingTimestamp : Int64) (s : Session) : Session :=
  if s.outstandingPings.contains pingTimestamp then
    { s with
      outstandingPings := s.outstandingPings.erase pingTimestamp
      latency := s.latency.record
        (elapsed pingTimestamp (s.timestamp now) * Nanoseconds.perMillisecond) }
  else s

/-- A client asks for the login. A server that is in the login accepts, unless the client wants
security. -/
def takeRequest (now : Nanoseconds) (requestTimestamp : Int64) (useSecurity : Bool) (s : Session) :
    Session :=
  if s.role = .server ∧ s.phase = .handshaking then
    if useSecurity then
      { s.sendControl .reliableOrdered .connectionAttemptFailed with
        phase := .disconnecting
        closing := some .securityRequested }
    else
      s.sendControl .reliableOrdered
        (.connectionRequestAccepted s.address 0 requestTimestamp (s.timestamp now))
  else s

/-- The server has accepted. A client that is in the login answers and is done with it. -/
def takeAcceptance (now : Nanoseconds) (acceptedTimestamp : Int64) (s : Session) : Session :=
  if s.role = .client ∧ s.phase = .handshaking then
    (s.sendControl .reliableOrdered
      (.newIncomingConnection s.address acceptedTimestamp (s.timestamp now))).completeLogin
  else s

def takeControl (now : Nanoseconds) (m : ControlMessage) (s : Session) : Session :=
  match m with
  | .connectedPing timestamp =>
    s.sendControl .unreliable (.connectedPong timestamp (s.timestamp now))
  | .connectedPong pingTimestamp _ => s.takePong now pingTimestamp
  | .detectLostConnections => s.sendPing now
  | .connectionRequest _ timestamp useSecurity => s.takeRequest now timestamp useSecurity
  | .connectionRequestAccepted _ _ _ acceptedTimestamp => s.takeAcceptance now acceptedTimestamp
  | .newIncomingConnection .. => if s.role = .server then s.completeLogin else s
  | .connectionAttemptFailed => if s.phase = .handshaking then s.close .attemptFailed else s
  | .disconnectionNotification => s.close .disconnectedByPeer
  | .connectionLost => s.close .disconnectedByPeer
  | _ => s

def takeMessage (channel : UInt8) (payload : Octets) (s : Session) : Session :=
  match s.phase with
  | .connected => s.emit [.message channel payload]
  | .handshaking => { s with early := s.early.append [.message channel payload] }
  | .disconnecting => s
  | .disconnected => s

/-- A payload comes out of the link. Its first octet tells whose it is. -/
def takeDelivery (now : Nanoseconds) (d : Delivery) (s : Session) : Session :=
  match d.payload with
  | [] => s
  | id :: _ =>
    if ControlId.isConnected id then
      match ControlMessage.reader d.payload with
      | .ok (m, _) => s.takeControl now m
      | .error _ => { s with malformedPackets := s.malformedPackets + 1 }
    else s.takeMessage d.channel d.payload

def takeDeliveries (now : Nanoseconds) (deliveries : List Delivery) (s : Session) : Session :=
  deliveries.foldl (fun s d => s.takeDelivery now d) s

def takePacket (now : Nanoseconds) (p : Packet) (s : Session) : Session :=
  match p with
  | .datagram d =>
    let (deliveries, link) := s.link.receiveDatagram d
    { s with link := link, lastReceived := now }.takeDeliveries now deliveries
  | .acknowledgement a =>
    let (receipts, link) := s.link.receiveAcknowledgement now a
    { s with link := link, lastReceived := now }.emitReceipts receipts

/-- A packet arrives. Why it was malformed is told, but has been dealt with. -/
def receive (now : Nanoseconds) (packet : Octets) (s : Session) : Except Fault Unit × Session :=
  if s.phase = .disconnected then (.ok (), s)
  else
    match Packet.reader packet with
    | .ok (p, _) => (.ok (), s.takePacket now p)
    | .error fault => (.error fault, { s with malformedPackets := s.malformedPackets + 1 })

end Session

end DatagramTransport

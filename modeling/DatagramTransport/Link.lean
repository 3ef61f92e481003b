import DatagramTransport.Receiver.Basic
import DatagramTransport.Sender.Basic

/-!
# Links — both directions between two peers

A link is a sender for one direction and a receiver for the other. The two **share nothing**: an
acknowledgement that arrives is the sender's business, a datagram the receiver's, and what one of
them does never depends on the state of the other. They only leave together, acknowledgements first.

There are no clocks and no sockets here. Whoever owns a link tells it the time with every event for
which it matters, and carries its packets.
-/

set_option autoImplicit false

namespace DatagramTransport

/-- What a link puts on the wire. -/
inductive Packet where
  | acknowledgement (a : Acknowledgement)
  | datagram (d : Datagram)
  deriving DecidableEq, Repr

namespace Packet

def encode : Packet → Octets
  | acknowledgement a => a.encode
  | datagram d => d.encode

def encodedLength : Packet → Nat
  | acknowledgement a => a.encodedLength
  | datagram d => d.encodedLength

/-- Every length and count fits into its field. -/
def Encodable : Packet → Prop
  | acknowledgement a => a.Encodable
  | datagram d => d.Encodable

/-- The packet carries messages. Only such packets count against the limit of a flush. -/
def isDatagram : Packet → Bool
  | datagram _ => true
  | acknowledgement _ => false

/-- Reads a packet of either sort, which its first octet tells. -/
def reader : Reader Packet := fun bs =>
  match bs.head?.bind AckKind.ofId? with
  | some _ => (do return acknowledgement (← Acknowledgement.reader) : Reader Packet) bs
  | none => (do return datagram (← Datagram.reader) : Reader Packet) bs

theorem length_encode (p : Packet) : p.encode.length = p.encodedLength := by
  cases p with
  | acknowledgement a => exact a.length_encode
  | datagram d => exact d.length_encode

end Packet

/-- Both directions between two peers, at one of them. -/
structure Link where
  mtu : UInt16
  sender : Sender
  receiver : Receiver
  deriving Repr

namespace Link

def fresh (settings : Settings) (mtu : UInt16) : Link where
  mtu := mtu
  sender := Sender.fresh settings mtu
  receiver := Receiver.fresh settings

/-- A link, or nothing if the settings leave no room for its retransmission timeout. -/
def fresh? (settings : Settings) (mtu : UInt16) : Option Link :=
  if settings.minRto ≤ settings.maxRto then some (fresh settings mtu) else none

/-- Queues a payload. Returns the receipt that is promised for it, if its guarantee asks for one. -/
def send (r : Reliability) (channel : UInt8) (payload : Octets) (l : Link) :
    Except SendFault (Option UInt32 × Link) :=
  match l.sender.send r channel payload with
  | .error fault => .error fault
  | .ok (receipt, sender) => .ok (receipt, { l with sender := sender })

/-- Forgets what was not sent yet, and sends nothing again. -/
def clear (l : Link) : Link := { l with sender := l.sender.clear }

def receiveDatagram (d : Datagram) (l : Link) : List Delivery × Link :=
  let (deliveries, receiver) := l.receiver.receive d
  (deliveries, { l with receiver := receiver })

def receiveAcknowledgement (now : Nanoseconds) (a : Acknowledgement) (l : Link) :
    List Receipt × Link :=
  let (receipts, sender) := l.sender.receive now a
  (receipts, { l with sender := sender })

def tick (now : Nanoseconds) (l : Link) : List Receipt × Link :=
  let (receipts, sender) := l.sender.tick now
  (receipts, { l with sender := sender })

/-- Sends what is queued, in at most `limit` datagrams. -/
def flushDatagrams (now : Nanoseconds) (limit : Nat) (l : Link) : List Datagram × Link :=
  let (datagrams, sender) := l.sender.flush now limit
  (datagrams, { l with sender := sender })

/-- Everything that is ready to be sent, with at most `limit` datagrams among it. -/
def flushPackets (now : Nanoseconds) (limit : Nat) (l : Link) : List Packet × Link :=
  let (acknowledgements, receiver) := l.receiver.flush (Sender.Queue.maxPacketLength l.mtu)
  let (datagrams, l) := { l with receiver := receiver }.flushDatagrams now limit
  (acknowledgements.map .acknowledgement ++ datagrams.map .datagram, l)

def flush (now : Nanoseconds) (limit : Nat) (l : Link) : List Octets × Link :=
  let (packets, l) := l.flushPackets now limit
  (packets.map Packet.encode, l)

end Link

end DatagramTransport

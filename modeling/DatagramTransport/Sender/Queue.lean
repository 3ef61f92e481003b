import DatagramTransport.Datagram
import DatagramTransport.Fifo
import DatagramTransport.Packing

/-!
# The queue — from payloads to messages to batches

An application hands over payloads; what waits in the queue are messages. On the way a payload gets
its index, its place in the order of its channel and, if it does not fit into a datagram, is cut
into fragments. **All counters are drawn from when a payload is queued, none when it is sent**, so
that sending a message again does not change it.

Ordered and sequenced messages of a channel are counted separately. The fragments of a payload have
one place in the order between them, and an index each.

A payload is refused before anything is drawn: for its channel, then for its length. The longest
payload is what fits into the allowed number of fragments. Messages leave in the order of the
queue, in batches that fit into a datagram; those that have to be sent again go back to the front.
-/

set_option autoImplicit false

namespace DatagramTransport

/-- Why a payload was not taken for sending. Nothing has changed then. -/
inductive SendFault where
  | messageTooLarge (length limit : Nat)
  | invalidChannel (channel : UInt8)
  | notConnected
  deriving DecidableEq, Repr

def SendFault.message : SendFault → String
  | messageTooLarge length limit =>
    "message of " ++ toString length ++ " bytes exceeds the maximum of " ++ toString limit
      ++ " bytes"
  | invalidChannel channel => "order channel " ++ toString channel.toNat ++ " is out of range"
  | notConnected => "session is not connected"

/-- A message that waits to be sent, and for whom. -/
structure Outgoing where
  message : Message
  /-- The receipt that was promised for the payload of which this is the whole or a part. -/
  receipt : Option UInt32
  /-- It was sent before. -/
  isResend : Bool
  deriving DecidableEq, Repr

/-- The next places in the two orders of a channel. -/
structure ChannelCounters where
  ordered : Serial
  sequenced : Serial
  deriving DecidableEq, Repr

namespace ChannelCounters

/-- The place that a message with this guarantee gets, if it needs one. -/
def place? (c : ChannelCounters) (r : Reliability) : Option Serial :=
  if r.isOrdered then some c.ordered else if r.isSequenced then some c.sequenced else none

/-- The counters after a message with this guarantee. -/
def advance (r : Reliability) (c : ChannelCounters) : ChannelCounters where
  ordered := if r.isOrdered then c.ordered.next else c.ordered
  sequenced := if r.isSequenced then c.sequenced.next else c.sequenced

end ChannelCounters

namespace Sender

/-- Messages that wait to be sent, and the counters from which they are numbered. -/
structure Queue where
  entries : Fifo Outgoing
  nextIndex : Serial
  channels : List ChannelCounters
  nextFragmentId : UInt16
  /-- How many octets of messages fit into a datagram. -/
  capacity : Nat
  maxFragments : Nat
  deriving DecidableEq, Repr

namespace Queue

/-- The most octets of a packet, for a size that includes the headers below. -/
def maxPacketLength (mtu : UInt16) : Nat := mtu.toNat - Datagram.headersBelow

def fresh (mtu : UInt16) (channels maxFragments : Nat) : Queue where
  entries := .empty
  nextIndex := Serial.zero
  channels := List.replicate channels ⟨Serial.zero, Serial.zero⟩
  nextFragmentId := 0
  capacity := maxPacketLength mtu - Datagram.headerLength
  maxFragments := maxFragments

/-! ## Putting in -/

/-- Whether a payload fits into a datagram as a single message. -/
def fitsWhole (q : Queue) (r : Reliability) (payload : Octets) : Bool :=
  Message.headerLength r false + payload.length ≤ q.capacity

def fragmentLength (q : Queue) (r : Reliability) : Nat :=
  q.capacity - Message.headerLength r.ofFragments true

def maxPayloadLength (q : Queue) (r : Reliability) : Nat := q.fragmentLength r * q.maxFragments

/-- The place of the next message of a channel, if its guarantee asks for one. -/
def orderMark (q : Queue) (r : Reliability) (channel : UInt8) : Option OrderMark := do
  let counters ← q.channels[channel.toNat]?
  let index ← counters.place? r
  return ⟨index, channel⟩

def wholeMessage (q : Queue) (r : Reliability) (channel : UInt8) (payload : Octets) : Message where
  reliability := r
  index := if r.isReliable then some q.nextIndex else none
  order := q.orderMark r channel
  fragment := none
  payload := payload

/-- A payload as fragments, which are always reliable. -/
def fragmentMessages (q : Queue) (r : Reliability) (channel : UInt8) (payload : Octets) :
    List Message :=
  let pieces := payload.chunks (q.fragmentLength r)
  let count := UInt32.ofNat pieces.length
  let order := q.orderMark r channel
  pieces.mapIdx fun i piece =>
    { reliability := r.ofFragments
      index := some (q.nextIndex.plus i)
      order := order
      fragment := some ⟨count, q.nextFragmentId, UInt32.ofNat i⟩
      payload := piece }

def messagesFor (q : Queue) (r : Reliability) (channel : UInt8) (payload : Octets) :
    List Message :=
  if q.fitsWhole r payload then [q.wholeMessage r channel payload]
  else q.fragmentMessages r channel payload

def refusal? (q : Queue) (r : Reliability) (channel : UInt8) (payload : Octets) :
    Option SendFault :=
  if q.channels.length ≤ channel.toNat then some (.invalidChannel channel)
  else if q.maxPayloadLength r < payload.length then
    some (.messageTooLarge payload.length (q.maxPayloadLength r))
  else none

/-- The queue with messages at its end, and with the counters moved on past them. -/
def append (messages : List Message) (r : Reliability) (channel : UInt8)
    (receipt : Option UInt32) (q : Queue) : Queue :=
  { q with
    entries := q.entries.append (messages.map fun m => ⟨m, receipt, false⟩)
    nextIndex := q.nextIndex.plus (messages.countP fun m => m.index.isSome)
    channels := q.channels.modify channel.toNat (ChannelCounters.advance r)
    nextFragmentId :=
      if messages.any fun m => m.fragment.isSome then q.nextFragmentId + 1
      else q.nextFragmentId }

/-- Queues a payload. Returns how many messages it is sent as. -/
def enqueue (r : Reliability) (channel : UInt8) (payload : Octets) (receipt : Option UInt32)
    (q : Queue) : Except SendFault (Nat × Queue) :=
  match q.refusal? r channel payload with
  | some fault => .error fault
  | none =>
    let messages := q.messagesFor r channel payload
    .ok (messages.length, q.append messages r channel receipt)

/-- Puts messages that were sent before back to the front, in their order. -/
def requeue (messages : List Outgoing) (q : Queue) : Queue :=
  { q with entries := q.entries.prepend (messages.map ({ · with isResend := true })) }

/-- Forgets the messages. The counters stay where they are. -/
def clear (q : Queue) : Queue := { q with entries := .empty }

/-! ## Taking out -/

/-- Takes out at most `limit` batches that each fit into a datagram. -/
def pack (limit : Nat) (q : Queue) : List (List Outgoing) × Queue :=
  let (batches, left) :=
    Packing.batches (fun e => e.message.encodedLength) q.capacity limit q.entries.toList
  (batches, { q with entries := .ofList left })

theorem pack_entries (limit : Nat) (q : Queue) :
    (q.pack limit).1.flatten ++ (q.pack limit).2.entries.toList = q.entries.toList :=
  Packing.batches_flatten_append _ _ _ _

end Queue

end Sender

end DatagramTransport

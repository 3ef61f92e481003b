import DatagramTransport.Acknowledgement
import DatagramTransport.Datagram
import DatagramTransport.Receiver.Assembler
import DatagramTransport.Receiver.Channels
import DatagramTransport.Receiver.Window
import DatagramTransport.Settings
import DatagramTransport.Stepwise

/-!
# The receiver — one direction of a link, at the end where payloads come out

Every datagram that arrives is acknowledged, the first time and every later time, with one
exception. A reliable message that does not fit into what is remembered, because it is too far
ahead or because there is no room to put it together, is left alone; its datagram is **deferred**:
it is not acknowledged, and a copy of it is looked at again. So a datagram is acknowledged only when
all reliable messages in it were taken in.

All questions of room are asked before a message is registered as received (`admission`), since
what is registered will not be looked at again. What is registered and turns out to be malformed
after that is gone: malformed messages are counted and dropped, and their datagram is acknowledged.

Sequence numbers that are skipped are reported as missing, once, up to as many of them before the
new one as the window has places.
-/

set_option autoImplicit false

namespace DatagramTransport

/-- A payload that came out of the link. -/
structure Delivery where
  reliability : Reliability
  channel : UInt8
  payload : Octets
  deriving DecidableEq, Repr

/-- What became of a message that arrived. -/
inductive Intake where
  /-- It was received, now or before; these are delivered because of it. -/
  | taken (deliveries : List Delivery)
  /-- There is no room for it yet. -/
  | deferred
  | malformed (cause : Malformation)
  deriving DecidableEq, Repr

namespace Intake

def deliveries : Intake → List Delivery
  | taken deliveries => deliveries
  | _ => []

def isDeferred : Intake → Bool
  | deferred => true
  | _ => false

def isMalformed : Intake → Bool
  | malformed _ => true
  | _ => false

end Intake

/-- One direction of a link, at the receiving end. -/
structure Receiver where
  windowSize : Nat
  /-- Which datagrams arrived. -/
  datagrams : Receiver.Window
  /-- Which of them were not acknowledged, the latest first. -/
  deferred : List Serial
  /-- The number after the highest that arrived. -/
  nextSequence : Serial
  /-- Which reliable messages arrived. -/
  messages : Receiver.Window
  channels : Receiver.Channels
  assembler : Receiver.Assembler
  /-- Numbers to be acknowledged, the latest first. -/
  pendingAcks : List Serial
  /-- Numbers to be reported as missing, the latest gap first. -/
  pendingNacks : List SerialRange
  datagramsReceived : Nat
  duplicateDatagrams : Nat
  deferredDatagrams : Nat
  messagesDelivered : Nat
  malformedMessages : Nat
  deriving Repr

namespace Receiver

def fresh (settings : Settings) : Receiver where
  windowSize := settings.receiveWindow
  datagrams := Window.fresh settings.receiveWindow
  deferred := []
  nextSequence := Serial.zero
  messages := Window.fresh settings.receiveWindow
  channels := Channels.fresh settings.orderChannels settings.orderingWindow
  assembler := Assembler.fresh settings.maxFragmentCount settings.maxAssemblies
  pendingAcks := []
  pendingNacks := []
  datagramsReceived := 0
  duplicateDatagrams := 0
  deferredDatagrams := 0
  messagesDelivered := 0
  malformedMessages := 0

/-! ## Messages -/

/-- Whether there is room for what a message would leave behind. -/
def hasRoom (r : Receiver) (m : Message) : Bool :=
  r.assembler.accepts m &&
    match m.order with
    | some order => !m.reliability.isOrdered || r.channels.accepts order
    | none => true

/-- Whether a message may be taken in. Only messages with an index are ever turned away. -/
def admission (r : Receiver) (m : Message) : Admission :=
  match m.index with
  | none => .fresh
  | some index =>
    match r.messages.check index with
    | .fresh => if r.hasRoom m then .fresh else .beyond
    | turnedAway => turnedAway

def register (m : Message) (r : Receiver) : Receiver :=
  match m.index with
  | none => r
  | some index => { r with messages := (r.messages.insert index).2 }

/-- What is delivered of a message that is complete. Payloads that were waiting for it come with
its guarantee and its channel. -/
def release (m : Message) (channels : Channels) :
    Except Malformation (List Delivery × Channels) :=
  match m.order with
  | none => .ok ([⟨m.reliability, m.channel, m.payload⟩], channels)
  | some order =>
    if m.reliability.isOrdered then
      match channels.takeOrdered order m.payload with
      | .error cause => .error cause
      | .ok (payloads, channels) =>
        .ok (payloads.map fun payload => ⟨m.reliability, m.channel, payload⟩, channels)
    else if m.reliability.isSequenced then
      match channels.takeSequenced order with
      | .error cause => .error cause
      | .ok (isDelivered, channels) =>
        .ok (if isDelivered then [⟨m.reliability, m.channel, m.payload⟩] else [], channels)
    else .ok ([⟨m.reliability, m.channel, m.payload⟩], channels)

/-- Puts a message that was registered together with others and delivers what is complete. -/
def process (m : Message) (r : Receiver) : Intake × Receiver :=
  let (result, assembler) := r.assembler.take m
  let r := { r with assembler := assembler }
  match result with
  | .error cause => (.malformed cause, r)
  | .ok none => (.taken [], r)
  | .ok (some whole) =>
    match release whole r.channels with
    | .error cause => (.malformed cause, r)
    | .ok (deliveries, channels) => (.taken deliveries, { r with channels := channels })

def take (m : Message) (r : Receiver) : Intake × Receiver :=
  match r.admission m with
  | .duplicate => (.taken [], r)
  | .beyond => (.deferred, r)
  | .fresh => (r.register m).process m

/-! ## Datagrams -/

/-- The numbers that are missing if this one comes next: those that were skipped, or the last of
them, as many as the window has places. -/
def missingBefore (sequence : Serial) (r : Receiver) : List SerialRange :=
  let gap := sequence.distanceFrom r.nextSequence
  let start := gap - r.windowSize
  if start < gap then [⟨r.nextSequence.plus start, r.nextSequence.plus (gap - 1)⟩] else []

/-- Takes note that a number arrived for the first time. -/
def advance (sequence : Serial) (r : Receiver) : Receiver :=
  if sequence = r.nextSequence ∨ sequence.isAfter r.nextSequence then
    { r with
      pendingNacks := r.missingBefore sequence ++ r.pendingNacks
      nextSequence := sequence.next }
  else r

def acknowledge (sequence : Serial) (r : Receiver) : Receiver :=
  { r with pendingAcks := sequence :: r.pendingAcks }

/-- A datagram will not be acknowledged, and a copy of it will be looked at. Older ones that are out
of reach are forgotten. -/
def defer (sequence : Serial) (r : Receiver) : Receiver :=
  { r with
    deferred :=
      sequence :: r.deferred.filter fun s =>
        r.nextSequence.distanceFrom s ≤ r.windowSize && s != sequence
    deferredDatagrams := r.deferredDatagrams + 1 }

/-- Takes in the messages of a datagram and decides on its acknowledgement. -/
def unpack (d : Datagram) (r : Receiver) : List Delivery × Receiver :=
  let (intakes, r) := Stepwise.collect take d.messages r
  let r := if intakes.any Intake.isDeferred then r.defer d.sequence else r.acknowledge d.sequence
  let deliveries := intakes.flatMap Intake.deliveries
  (deliveries,
    { r with
      messagesDelivered := r.messagesDelivered + deliveries.length
      malformedMessages := r.malformedMessages + intakes.countP Intake.isMalformed })

/-- A datagram arrives. Returns what is delivered because of it. -/
def receive (d : Datagram) (r : Receiver) : List Delivery × Receiver :=
  let (isNew, datagrams) := r.datagrams.slide d.sequence
  let r := { r with datagrams := datagrams, datagramsReceived := r.datagramsReceived + 1 }
  let arrived := { r with pendingNacks := SerialRange.remove d.sequence r.pendingNacks }
  if isNew then
    (arrived.advance d.sequence).unpack d
  else if r.deferred.contains d.sequence then
    { arrived with deferred := r.deferred.filter (· != d.sequence) }.unpack d
  else
    ([], { r with duplicateDatagrams := r.duplicateDatagrams + 1 }.acknowledge d.sequence)

/-! ## Acknowledgements -/

/-- Packets for everything that is to be acknowledged or reported as missing. -/
def flush (maxLength : Nat) (r : Receiver) : List Acknowledgement × Receiver :=
  (Acknowledgement.build .ack (r.pendingAcks.map .single) maxLength
      ++ Acknowledgement.build .nack r.pendingNacks maxLength,
    { r with pendingAcks := [], pendingNacks := [] })

end Receiver

end DatagramTransport

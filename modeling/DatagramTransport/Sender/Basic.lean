import DatagramTransport.Acknowledgement
import DatagramTransport.Sender.Queue
import DatagramTransport.Sender.RetransmissionTimer
import DatagramTransport.Stepwise
import Std.Data.TreeMap
import Std.Data.TreeSet

/-!
# The sender — one direction of a link, at the end where payloads go in

A datagram that was sent is remembered as long as something hangs on its fate: reliable messages,
which have to be sent again if it is lost, or receipts for unreliable ones, which are then reported
as lost. Each reliable message is in **one place at a time**, in the queue or in the record of one
datagram, until that datagram is acknowledged.

* `acknowledge`: the records of these datagrams are dropped. Of a datagram without any message sent
  before, the time it took is a sample for the timer; of one with such a message it is not, because
  the acknowledgement may be one of an earlier datagram.
* `lose`: the reliable messages of these datagrams go back to the front of the queue, those of the
  oldest datagram first. Age is counted back from the next sequence number, so the wrap-around makes
  no difference.

The receipt of a payload that was split is due when the last of its fragments is acknowledged, which
is what `pendingReceipts` counts.
-/

set_option autoImplicit false

namespace DatagramTransport

/-- What became of a payload for which a receipt was promised. -/
inductive Receipt where
  | acked (id : UInt32)
  | lost (id : UInt32)
  deriving DecidableEq, Repr

/-- What is remembered of a datagram that was sent. -/
structure SentDatagram where
  sentAt : Nanoseconds
  /-- The reliable messages in it. -/
  messages : List Outgoing
  /-- The receipts promised for the unreliable messages in it. -/
  receipts : List UInt32
  /-- One of the messages in it was sent before. -/
  isResend : Bool
  deriving DecidableEq, Repr

namespace SentDatagram

def ofBatch (now : Nanoseconds) (batch : List Outgoing) : SentDatagram where
  sentAt := now
  messages := batch.filter fun e => e.message.reliability.isReliable
  receipts := batch.filterMap fun e => if e.message.reliability.isReliable then none else e.receipt
  isResend := batch.any (·.isResend)

/-- Nothing hangs on the fate of the datagram. -/
def isTrivial (sent : SentDatagram) : Bool := sent.messages.isEmpty && sent.receipts.isEmpty

end SentDatagram

/-- How many messages are not acknowledged yet, by receipt. -/
abbrev Sender.Pending := Std.TreeMap UInt32 Nat

/-- One direction of a link, at the sending end. -/
structure Sender where
  queue : Sender.Queue
  nextSequence : Serial
  inFlight : Std.TreeMap Serial SentDatagram
  pendingReceipts : Sender.Pending
  nextReceipt : UInt32
  timer : RetransmissionTimer
  datagramsSent : Nat
  messagesResent : Nat
  deriving Repr

namespace Sender

def fresh (settings : Settings) (mtu : UInt16) : Sender where
  queue := Queue.fresh mtu settings.orderChannels settings.maxFragmentsPerSend
  nextSequence := Serial.zero
  inFlight := ∅
  pendingReceipts := ∅
  nextReceipt := 0
  timer := RetransmissionTimer.fresh settings.initialRto settings.minRto settings.maxRto
    settings.tickInterval
  datagramsSent := 0
  messagesResent := 0

/-! ## Payloads in -/

/-- Queues a payload. Returns the receipt that is promised for it, if its guarantee asks for one. -/
def send (r : Reliability) (channel : UInt8) (payload : Octets) (s : Sender) :
    Except SendFault (Option UInt32 × Sender) :=
  let receipt := if r.wantsReceipt then some s.nextReceipt else none
  match s.queue.enqueue r channel payload receipt with
  | .error fault => .error fault
  | .ok (count, queue) =>
    match receipt with
    | none => .ok (none, { s with queue := queue })
    | some id =>
      .ok (some id,
        { s with
          queue := queue
          nextReceipt := s.nextReceipt + 1
          pendingReceipts := s.pendingReceipts.insert id count })

/-- Forgets what was not sent yet and what would be sent again, and all receipts. -/
def clear (s : Sender) : Sender :=
  { s with queue := s.queue.clear, inFlight := ∅, pendingReceipts := ∅ }

/-! ## Datagrams out -/

def dispatch (now : Nanoseconds) (batch : List Outgoing) (s : Sender) : Datagram × Sender :=
  let (sequence, nextSequence) := s.nextSequence.issue
  let sent := SentDatagram.ofBatch now batch
  (⟨sequence, batch.map (·.message)⟩,
    { s with
      nextSequence := nextSequence
      inFlight :=
        if sent.isTrivial then s.inFlight else s.inFlight.insert sequence sent
      datagramsSent := s.datagramsSent + 1 })

/-- Sends what is queued, in at most `limit` datagrams. -/
def flush (now : Nanoseconds) (limit : Nat) (s : Sender) : List Datagram × Sender :=
  let (batches, queue) := s.queue.pack limit
  Stepwise.collect (dispatch now) batches { s with queue := queue }

/-! ## Datagrams that arrived -/

/-- One message fewer is to be acknowledged for a receipt, which is due with the last of them. -/
def confirm (id : UInt32) (pending : Pending) : List Receipt × Pending :=
  match pending[id]? with
  | none => ([], pending)
  | some count =>
    if count ≤ 1 then ([.acked id], pending.erase id)
    else ([], pending.insert id (count - 1))

/-- A receipt is due, in whatever way, unless it is not pending any more. -/
def release (outcome : UInt32 → Receipt) (id : UInt32) (pending : Pending) :
    List Receipt × Pending :=
  if pending.contains id then ([outcome id], pending.erase id) else ([], pending)

/-- Goes through receipts one after the other and collects those that are due. -/
def settle (step : UInt32 → Pending → List Receipt × Pending) (ids : List UInt32)
    (pending : Pending) : List Receipt × Pending :=
  let (due, pending) := Stepwise.collect step ids pending
  (due.flatten, pending)

def deliver (now : Nanoseconds) (sent : SentDatagram) (s : Sender) : List Receipt × Sender :=
  let timer := if sent.isResend then s.timer else s.timer.sample (now - sent.sentAt)
  let (reliable, pending) := settle confirm (sent.messages.filterMap (·.receipt)) s.pendingReceipts
  let (unreliable, pending) := settle (release .acked) sent.receipts pending
  (reliable ++ unreliable, { s with timer := timer, pendingReceipts := pending })

/-- The peer acknowledges a datagram. Nothing happens if nothing hangs on it. -/
def acknowledge (now : Nanoseconds) (sequence : Serial) (s : Sender) : List Receipt × Sender :=
  match s.inFlight[sequence]? with
  | none => ([], s)
  | some sent => { s with inFlight := s.inFlight.erase sequence }.deliver now sent

/-- The peer acknowledges datagrams, one after the other. -/
def acknowledgeAll (now : Nanoseconds) (sequences : List Serial) (s : Sender) :
    List Receipt × Sender :=
  let (due, s) := Stepwise.collect (acknowledge now) sequences s
  (due.flatten, s)

/-! ## Datagrams that were lost -/

/-- How long ago, in datagrams, a sequence number was used. -/
def age (s : Sender) (sequence : Serial) : Nat := s.nextSequence.distanceFrom sequence

/-- The records in question, the oldest first. -/
def oldestFirst (s : Sender) (isLost : Serial → SentDatagram → Bool) : List SentDatagram :=
  ((s.inFlight.filter isLost).toList.mergeSort fun a b => s.age b.1 ≤ s.age a.1).map Prod.snd

/-- Datagrams are lost. What was reliable in them is sent again, before anything else. -/
def lose (isLost : Serial → SentDatagram → Bool) (s : Sender) : List Receipt × Sender :=
  let records := s.oldestFirst isLost
  let messages := records.flatMap (·.messages)
  let (receipts, pending) :=
    settle (release .lost) (records.flatMap (·.receipts)) s.pendingReceipts
  (receipts,
    { s with
      queue := s.queue.requeue messages
      inFlight := s.inFlight.filter fun sequence sent => !isLost sequence sent
      pendingReceipts := pending
      messagesResent := s.messagesResent + messages.length })

/-- The peer reports datagrams as missing. Numbers that nothing hangs on are ignored. -/
def loseReported (sequences : List Serial) (s : Sender) : List Receipt × Sender :=
  let reported := Std.TreeSet.ofList (sequences.filter s.inFlight.contains)
  s.lose fun sequence _ => reported.contains sequence

def isExpired (now : Nanoseconds) (s : Sender) (sent : SentDatagram) : Bool :=
  s.timer.rto ≤ now - sent.sentAt

/-- Datagrams that were not acknowledged in time are lost, and those after them get more time. -/
def tick (now : Nanoseconds) (s : Sender) : List Receipt × Sender :=
  if s.inFlight.any fun _ sent => s.isExpired now sent then
    { s with timer := s.timer.backOff }.lose fun _ sent => s.isExpired now sent
  else ([], s)

/-- The peer has sent an acknowledgement of either kind. -/
def receive (now : Nanoseconds) (a : Acknowledgement) (s : Sender) : List Receipt × Sender :=
  match a.kind with
  | .ack => s.acknowledgeAll now a.numbers
  | .nack => s.loseReported a.numbers

end Sender

end DatagramTransport

import DatagramTransport.Proofs.Holdings

/-!
# Outbox — where each message is that was ever created

A sender alone, with whatever a peer may tell it: acknowledgements of either kind may name any
numbers, repeatedly, out of order, or such as were never used. **Each reliable message is in one of
three places**: it is queued, it is in the record of one datagram in flight, or an acknowledgement
removed the record that it was in. And it is the message it was when it was created.

The one thing that can go wrong is left to a condition: sequence numbers come round, and a datagram
that is sent under the number of a record in flight takes the place of that record.
-/

set_option autoImplicit false

namespace DatagramTransport

/-- A sender, and what came of the payloads that it accepted. -/
structure Outbox where
  sender : Sender
  /-- The messages that the payloads were made into, and their receipts. -/
  created : List Outgoing
  datagrams : List Datagram
  /-- What was in the records that acknowledgements removed. -/
  acknowledged : List Outgoing
  receipts : List Receipt
  deriving Repr

namespace Outbox

inductive Event where
  | submit (r : Reliability) (channel : UInt8) (payload : Octets)
  | transmit (now : Nanoseconds) (limit : Nat)
  | expire (now : Nanoseconds)
  | hear (now : Nanoseconds) (a : Acknowledgement)
  deriving DecidableEq, Repr

def fresh (settings : Settings) (mtu : UInt16) : Outbox where
  sender := Sender.fresh settings mtu
  created := []
  datagrams := []
  acknowledged := []
  receipts := []

/-- What an event does. A payload that is refused changes nothing. -/
def step (b : Outbox) : Event → Outbox
  | .submit r channel payload =>
    match b.sender.send r channel payload with
    | .error _ => b
    | .ok (receipt, sender) =>
      { b with
        sender := sender
        created := b.created
          ++ (b.sender.queue.messagesFor r channel payload).map (⟨·, receipt, false⟩) }
  | .transmit now limit =>
    let (datagrams, sender) := b.sender.flush now limit
    { b with sender := sender, datagrams := b.datagrams ++ datagrams }
  | .expire now =>
    let (receipts, sender) := b.sender.tick now
    { b with sender := sender, receipts := b.receipts ++ receipts }
  | .hear now a =>
    let (receipts, sender) := b.sender.receive now a
    { b with
      sender := sender
      acknowledged := b.acknowledged ++ if a.kind = .ack then b.sender.removed sender else []
      receipts := b.receipts ++ receipts }

/-- No number is used while there is a record under it. -/
def Allows (b : Outbox) : Event → Prop
  | .transmit now limit => b.sender.FlushesFreely now limit
  | _ => True

instance (b : Outbox) : (e : Event) → Decidable (b.Allows e)
  | .transmit now limit => inferInstanceAs (Decidable (b.sender.FlushesFreely now limit))
  | .submit .. | .expire _ | .hear .. => inferInstanceAs (Decidable True)

/-- What can be reached from a fresh sender. -/
inductive Run (settings : Settings) (mtu : UInt16) : Outbox → Prop
  | start : Run settings mtu (fresh settings mtu)
  | next {b : Outbox} {e : Event} (before : Run settings mtu b) (here : b.Allows e) :
    Run settings mtu (b.step e)

def after (b : Outbox) (es : List Event) : Outbox := es.foldl step b

def Follows (b : Outbox) : List Event → Prop
  | [] => True
  | e :: es => b.Allows e ∧ Follows (b.step e) es

instance Follows.decide (b : Outbox) (es : List Event) : Decidable (b.Follows es) :=
  match es with
  | [] => inferInstanceAs (Decidable True)
  | e :: es =>
    have := Follows.decide (b.step e) es
    inferInstanceAs (Decidable (_ ∧ _))

variable {settings : Settings} {mtu : UInt16} {b : Outbox}

theorem Run.follow {es : List Event} (h : Run settings mtu b) (hes : b.Follows es) :
    Run settings mtu (b.after es) := by
  induction es generalizing b with
  | nil => exact h
  | cons e es ih => exact ih (.next h hes.1) hes.2

/-- Nothing is lost and nothing is there twice. -/
structure Balanced (b : Outbox) : Prop where
  remembers : b.sender.RemembersReliable
  reliable : (b.created.filter Outgoing.isReliable).Perm (b.sender.held ++ b.acknowledged)
  unreliable : Sender.unreliable (b.datagrams.flatMap Datagram.messages ++ b.sender.waiting)
    = Sender.unreliable (b.created.map (·.message))

theorem balanced_fresh (settings : Settings) (mtu : UInt16) : Balanced (fresh settings mtu) where
  remembers := Sender.remembersReliable_fresh settings mtu
  reliable := List.Perm.refl []
  unreliable := rfl

theorem Balanced.submit (h : Balanced b) (r : Reliability) (channel : UInt8) (payload : Octets) :
    Balanced (b.step (.submit r channel payload)) := by
  simp only [step]
  cases hsend : b.sender.send r channel payload with
  | error fault => exact h
  | ok result =>
    obtain ⟨receipt, sender⟩ := result
    obtain ⟨hqueued, hwaiting, hflight⟩ := Sender.queued_send hsend
    have hflying : sender.flying = b.sender.flying := congrArg Sender.contents hflight
    refine ⟨?_, ?_, ?_⟩
    · intro sequence sent hget
      exact h.remembers sequence sent (hflight ▸ hget)
    · -- what is new is at the end of the queue, before the records
      rw [Sender.held, hqueued, hflying, List.filter_append, List.filter_append]
      refine (h.reliable.append_right _).trans ?_
      rw [Sender.held, List.append_assoc, List.append_assoc, List.append_assoc, List.append_assoc]
      refine List.Perm.append_left _ ?_
      rw [← List.append_assoc, ← List.append_assoc]
      exact List.perm_append_comm.trans (by rw [List.append_assoc])
    · simp only [hwaiting, ← List.append_assoc, Sender.unreliable_append, List.map_append,
        List.map_map]
      rw [← Sender.unreliable_append, h.unreliable]
      exact congrArg _ (congrArg _ (List.map_id _).symm)

/-- What happens to a sender that gives nothing away and puts nothing on the wire. -/
theorem Balanced.keep (h : Balanced b) {sender : Sender} (gone : List Outgoing)
    (receipts : List Receipt) (hremembers : sender.RemembersReliable)
    (hwaiting : Sender.unreliable sender.waiting = Sender.unreliable b.sender.waiting)
    (hheld : (sender.held ++ gone).Perm b.sender.held) :
    Balanced { b with
      sender := sender
      acknowledged := b.acknowledged ++ gone
      receipts := receipts } where
  remembers := hremembers
  reliable := by
    refine h.reliable.trans ((hheld.symm.append_right _).trans ?_)
    rw [List.append_assoc]
    exact List.perm_append_comm.append_left _
  unreliable := by
    rw [Sender.unreliable_append, hwaiting, ← Sender.unreliable_append]
    exact h.unreliable

theorem Balanced.step (h : Balanced b) {e : Event} (here : b.Allows e) : Balanced (b.step e) := by
  cases e with
  | submit r channel payload => exact h.submit r channel payload
  | transmit now limit =>
    obtain ⟨hremembers, hline, hheld⟩ := Sender.held_flush h.remembers now limit
    refine ⟨hremembers, h.reliable.trans ((hheld here).symm.append_right _), ?_⟩
    simp only [Outbox.step, List.flatMap_append, List.append_assoc, hline]
    exact h.unreliable
  | expire now =>
    obtain ⟨hremembers, hwaiting, hheld⟩ := Sender.held_tick h.remembers now
    have hkeep := h.keep [] (b.receipts ++ (b.sender.tick now).1) hremembers hwaiting
      (by rwa [List.append_nil])
    rwa [List.append_nil] at hkeep
  | hear now a =>
    obtain ⟨hremembers, hwaiting, hheld⟩ := Sender.held_receive h.remembers now a
    exact h.keep _ _ hremembers hwaiting hheld

theorem Run.balanced (run : Run settings mtu b) : Balanced b := by
  induction run with
  | start => exact balanced_fresh settings mtu
  | next _ here ih => exact ih.step here

/-- **Each reliable message that was created is queued, or in one record in flight, or was in a
record that an acknowledgement removed**; it is there once, and as it was created. The unreliable
ones on the wire and in the queue are those that were created, each once and in the same order, so
none is queued again. -/
theorem each_in_one_place (run : Run settings mtu b) :
    (b.created.filter Outgoing.isReliable).Perm
        (b.sender.queued.filter Outgoing.isReliable ++ b.sender.flying ++ b.acknowledged) ∧
      Sender.unreliable (b.datagrams.flatMap Datagram.messages ++ b.sender.waiting)
        = Sender.unreliable (b.created.map (·.message)) :=
  ⟨run.balanced.reliable, run.balanced.unreliable⟩

/-- Two datagrams are lost, one of them by report and one by time, and a third is acknowledged. -/
def scattered : Outbox :=
  (fresh {} 400).after [.submit .reliableOrdered 0 [1], .submit .unreliable 0 [2],
    .transmit 0 1, .submit .reliable 0 [3], .transmit 5000000000 1, .submit .reliable 0 [4],
    .transmit 5000000000 1, .hear 5000000000 ⟨.nack, [⟨Serial.ofNat 7, Serial.ofNat 8⟩,
      .single (Serial.ofNat 1)]⟩,
    .expire 5000000000, .submit .unreliable 0 [5],
    .hear 5000000000 ⟨.ack, [.single (Serial.ofNat 2)]⟩]

theorem run_scattered : Run {} 400 scattered :=
  Run.start.follow (by decide +kernel)

theorem each_in_one_place_scattered :
    scattered.sender.queued.map (·.message.payload) = [[1], [3], [5]] ∧
      scattered.sender.flying = [] ∧ scattered.acknowledged.map (·.message.payload) = [[4]] ∧
      (scattered.created.filter Outgoing.isReliable).Perm
        (scattered.sender.queued.filter Outgoing.isReliable ++ scattered.sender.flying
          ++ scattered.acknowledged) :=
  ⟨by decide +kernel, by decide +kernel, by decide +kernel,
    (each_in_one_place run_scattered).1⟩

end Outbox

end DatagramTransport

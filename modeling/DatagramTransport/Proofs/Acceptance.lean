import DatagramTransport.Proofs.Envelope
import DatagramTransport.Proofs.Exchange

/-!
# Acceptance — which payloads a queue takes

**A payload is taken exactly if it could be cut into few enough fragments.** The limit is worked out
for fragments, even for a payload that would be sent whole, and a fragment holds less than a whole
message does. The two rules part only if one fragment is all that is allowed: then what is a little
longer than a fragment would fit whole and is refused.

Nothing of this depends on what the queue has taken before: `Suits` is all that matters, and
whatever is done to a queue leaves it as it is.
-/

set_option autoImplicit false

namespace DatagramTransport

namespace Sender

namespace Queue

variable {q : Queue} {settings : Settings} {mtu : UInt16} {t : Tally} {r : Reliability}
  {channel : UInt8} {payload : Octets}

/-! ## Which payloads are taken -/

/-- The queue was made for these settings and this size of packet. -/
structure Suits (q : Queue) (settings : Settings) (mtu : UInt16) : Prop where
  capacity_eq : q.capacity = maxPacketLength mtu - Datagram.headerLength
  length_channels : q.channels.length = settings.orderChannels
  maxFragments_eq : q.maxFragments = settings.maxFragmentsPerSend

theorem suits_fresh (settings : Settings) (mtu : UInt16) :
    (fresh mtu settings.orderChannels settings.maxFragmentsPerSend).Suits settings mtu :=
  ⟨rfl, List.length_replicate, rfl⟩

theorem Suits.append (h : q.Suits settings mtu) (messages : List Message) (r : Reliability)
    (channel : UInt8) (receipt : Option UInt32) :
    (q.append messages r channel receipt).Suits settings mtu :=
  ⟨h.capacity_eq, (List.length_modify _ _ _).trans h.length_channels, h.maxFragments_eq⟩

/-- Which messages wait makes no difference. -/
theorem Suits.entries (h : q.Suits settings mtu) (entries : Fifo Outgoing) :
    ({ q with entries := entries } : Queue).Suits settings mtu :=
  ⟨h.capacity_eq, h.length_channels, h.maxFragments_eq⟩

/-- The smallest packet has 368 octets for messages. -/
theorem Suits.le_capacity (h : q.Suits settings mtu) (hvalid : settings.Valid)
    (hmtu : settings.minMtu ≤ mtu) : 368 ≤ q.capacity := by
  have hmin := hvalid.bounds.1
  rw [UInt16.le_iff_toNat_le] at hmtu
  rw [h.capacity_eq]
  simp only [maxPacketLength, Datagram.headersBelow, Datagram.headerLength]
  omega

/-- Cut up, the payload makes no more fragments than are allowed. -/
def fitsInFragments (q : Queue) (r : Reliability) (payload : Octets) : Bool :=
  (payload.chunks (q.fragmentLength r)).length ≤ q.maxFragments

/-- The answer to a payload that is too long. -/
def tooLarge (q : Queue) (r : Reliability) (payload : Octets) : SendFault :=
  .messageTooLarge payload.length (q.maxPayloadLength r)

theorem fitsInFragments_iff (hcapacity : 20 < q.capacity) :
    q.fitsInFragments r payload = true ↔ payload.length ≤ q.maxPayloadLength r := by
  rw [fitsInFragments, decide_eq_true_eq]
  exact Octets.length_chunks_le_iff (fragmentLength_ne_zero hcapacity r)

theorem refusal?_eq_tooLarge_iff (hchannel : channel.toNat < q.channels.length) :
    q.refusal? r channel payload = some (q.tooLarge r payload)
      ↔ q.maxPayloadLength r < payload.length := by
  rw [refusal?, if_neg (Nat.not_le.2 hchannel)]
  split
  · rename_i hlong
    exact iff_of_true rfl hlong
  · rename_i hlong
    exact iff_of_false (by simp) hlong

theorem enqueue_eq_error_iff {receipt : Option UInt32} {fault : SendFault} :
    q.enqueue r channel payload receipt = .error fault
      ↔ q.refusal? r channel payload = some fault := by
  unfold enqueue
  cases q.refusal? r channel payload <;> simp

theorem enqueue_of_accepted {receipt : Option UInt32}
    (haccepted : q.refusal? r channel payload = none) :
    q.enqueue r channel payload receipt = .ok ((q.messagesFor r channel payload).length,
      q.append (q.messagesFor r channel payload) r channel receipt) := by
  rw [enqueue, haccepted]

/-- Which payloads a queue takes, by what it was made for. -/
theorem Suits.refusal?_eq_none_iff (h : q.Suits settings mtu)
    (hchannel : channel.toNat < settings.orderChannels) :
    q.refusal? r channel payload = none ↔ payload.length
      ≤ (maxPacketLength mtu - Datagram.headerLength - Message.headerLength r.ofFragments true)
        * settings.maxFragmentsPerSend := by
  rw [Queue.refusal?_eq_none_iff, h.length_channels, maxPayloadLength, fragmentLength,
    h.capacity_eq, h.maxFragments_eq]
  exact and_iff_right hchannel

/-- Two fragments hold more than a whole message. -/
theorem fitsInFragments_of_fitsWhole (hcapacity : 40 ≤ q.capacity) (htwo : 2 ≤ q.maxFragments)
    (hwhole : q.fitsWhole r payload = true) : q.fitsInFragments r payload = true := by
  have hfragment := headerLength_fragment_le r
  rw [fitsWhole, decide_eq_true_eq] at hwhole
  have hlength : payload.length ≤ q.fragmentLength r * 2 := by
    unfold fragmentLength
    omega
  rw [fitsInFragments_iff (by omega)]
  exact Nat.le_trans hlength (Nat.mul_le_mul_left _ htwo)

/-- There is a payload that fits whole and is longer than a fragment. -/
theorem exists_fitsWhole_of_fragmentLength_lt (hcapacity : 20 < q.capacity) (r : Reliability) :
    ∃ payload : Octets, q.fitsWhole r payload = true ∧ q.fragmentLength r < payload.length := by
  have hfragment := headerLength_fragment_le r
  have hheaders : Message.headerLength r false < Message.headerLength r.ofFragments true := by
    cases r <;> decide
  refine ⟨List.replicate (q.fragmentLength r + 1) 0, ?_, ?_⟩
  · rw [fitsWhole, decide_eq_true_eq, List.length_replicate]
    unfold fragmentLength
    omega
  · rw [List.length_replicate]
    exact Nat.lt_succ_self _

/-- The two rules part where a payload fits whole and not in fragments. -/
theorem fitsWhole_and_not_fitsInFragments_iff (hcapacity : 40 ≤ q.capacity)
    (hsome : q.maxFragments ≠ 0) :
    (q.fitsWhole r payload = true ∧ ¬ q.fitsInFragments r payload = true)
      ↔ q.maxFragments = 1 ∧ q.fitsWhole r payload = true ∧
        q.fragmentLength r < payload.length := by
  by_cases hone : q.maxFragments = 1
  · rw [fitsInFragments_iff (by omega), maxPayloadLength, hone, Nat.mul_one, Nat.not_le]
    exact (and_iff_right rfl).symm
  · refine iff_of_false (fun ⟨hwhole, hfragments⟩ => hfragments ?_) fun h => hone h.1
    exact fitsInFragments_of_fitsWhole hcapacity (by omega) hwhole

/-- **Which payloads are too long.** On a channel that exists, a payload is refused for its length
if it cannot be cut into few enough fragments, and taken otherwise. This is to say that it can be
sent neither whole nor in fragments, unless it fits whole, is longer than a fragment, and one
fragment is all that is allowed; so the rule is right for all payloads unless that is the limit. -/
theorem tooLarge_iff (hvalid : settings.Valid) (hmtu : settings.minMtu ≤ mtu)
    (hq : q.Suits settings mtu) (hchannel : channel.toNat < settings.orderChannels)
    (r : Reliability) (receipt : Option UInt32) :
    (∀ payload, q.enqueue r channel payload receipt = .error (q.tooLarge r payload)
      ↔ ¬ q.fitsInFragments r payload = true) ∧
    (∀ payload, q.fitsInFragments r payload = true →
      ∃ q', q.enqueue r channel payload receipt
        = .ok ((q.messagesFor r channel payload).length, q')) ∧
    (∀ payload, (q.enqueue r channel payload receipt = .error (q.tooLarge r payload)
        ↔ ¬ q.fitsWhole r payload = true ∧ ¬ q.fitsInFragments r payload = true)
      ↔ ¬ (settings.maxFragmentsPerSend = 1 ∧ q.fitsWhole r payload = true ∧
        q.fragmentLength r < payload.length)) ∧
    ((∀ payload, q.enqueue r channel payload receipt = .error (q.tooLarge r payload)
        ↔ ¬ q.fitsWhole r payload = true ∧ ¬ q.fitsInFragments r payload = true)
      ↔ settings.maxFragmentsPerSend ≠ 1) := by
  have hcapacity := hq.le_capacity hvalid hmtu
  have hsome : settings.maxFragmentsPerSend ≠ 0 := Nat.ne_of_gt hvalid.maxFragmentsPerSend_pos
  rw [← hq.length_channels] at hchannel
  rw [← hq.maxFragments_eq] at hsome ⊢
  have hrefused (payload : Octets) : q.enqueue r channel payload receipt
      = .error (q.tooLarge r payload) ↔ ¬ q.fitsInFragments r payload = true := by
    rw [enqueue_eq_error_iff, refusal?_eq_tooLarge_iff hchannel, fitsInFragments_iff (by omega),
      Nat.not_le]
  have hrule (payload : Octets) : (q.enqueue r channel payload receipt
      = .error (q.tooLarge r payload)
        ↔ ¬ q.fitsWhole r payload = true ∧ ¬ q.fitsInFragments r payload = true)
      ↔ ¬ (q.maxFragments = 1 ∧ q.fitsWhole r payload = true ∧
        q.fragmentLength r < payload.length) := by
    rw [hrefused, ← fitsWhole_and_not_fitsInFragments_iff (by omega) hsome]
    by_cases hwhole : q.fitsWhole r payload = true <;>
      by_cases hfragments : q.fitsInFragments r payload = true <;> simp [hwhole, hfragments]
  refine ⟨hrefused, fun payload hfits => ⟨_, enqueue_of_accepted ?_⟩, hrule, ?_⟩
  · exact refusal?_eq_none_iff.2 ⟨hchannel, (fitsInFragments_iff (by omega)).1 hfits⟩
  · constructor
    · intro hall hone
      obtain ⟨payload, hwhole, hlong⟩ :=
        q.exists_fitsWhole_of_fragmentLength_lt (by omega) r
      exact (hrule payload).1 (hall payload) ⟨hone, hwhole, hlong⟩
    · exact fun hne payload => (hrule payload).2 fun h => hne h.1

/-- With one fragment for a payload and the smallest packets: 362 octets would fit whole, and from
353 on they are refused. -/
theorem tooLarge_iff_one_fragment :
    let settings : Settings := { maxFragmentsPerSend := 1 }
    let q := fresh 400 32 1
    settings.Valid ∧ settings.minMtu ≤ 400 ∧ q.Suits settings 400 ∧
      (0 : UInt8).toNat < settings.orderChannels ∧
      q.fitsWhole .reliable (List.replicate 355 7) = true ∧
      q.enqueue .reliable 0 (List.replicate 355 7) none = .error (.messageTooLarge 355 352) ∧
      ¬ (∀ payload, q.enqueue .reliable 0 payload none = .error (q.tooLarge .reliable payload)
        ↔ ¬ q.fitsWhole .reliable payload = true ∧
          ¬ q.fitsInFragments .reliable payload = true) := by
  intro settings q
  have hvalid : settings.Valid := by decide +kernel
  have hmtu : settings.minMtu ≤ 400 := by decide
  have hq : q.Suits settings 400 := suits_fresh settings 400
  have hchannel : (0 : UInt8).toNat < settings.orderChannels := by decide
  obtain ⟨-, -, -, hrule⟩ := tooLarge_iff hvalid hmtu hq hchannel .reliable none
  exact ⟨hvalid, hmtu, hq, hchannel, by decide +kernel, by decide +kernel,
    fun hall => hrule.1 hall rfl⟩

end Queue

end Sender

end DatagramTransport

import DatagramTransport.Link
import DatagramTransport.Proofs.Custody

/-!
# Envelope — what goes on the wire fits

The network takes packets of one size, and whatever a link puts on the wire has to be within it. Two
things are cut for that purpose: a payload when it is queued, into fragments that each fit, and a
list of ranges when it is reported. What a datagram takes from the queue is limited by what fits
beside its first message, and **the first message is taken without asking**; so no datagram is too
long only because nothing that is too long is ever queued. A message that is sent again is the
message it was, so it may travel with others than the first time.

The size is that of the whole packet with the headers below this protocol. It also bounds what the
narrow fields for lengths and counts have to hold.
-/

set_option autoImplicit false

namespace DatagramTransport

theorem Octets.length_le_of_mem_chunks {size : Nat} (hsize : size ≠ 0) {bs piece : Octets}
    (hpiece : piece ∈ bs.chunks size) : piece.length ≤ size := by
  induction hlength : bs.length using Nat.strongRecOn generalizing bs with
  | ind length ih =>
    by_cases hbs : bs = []
    · rw [hbs, chunks_nil] at hpiece
      cases hpiece
    · have hpos := List.length_pos_iff.2 hbs
      rw [chunks_of_ne_nil hbs hsize] at hpiece
      rcases List.mem_cons.1 hpiece with rfl | hlater
      · exact List.length_take_le _ _
      · exact ih (bs.drop size).length (by rw [List.length_drop]; omega) hlater rfl

namespace Sender

variable {s : Sender} {capacity : Nat}

/-! ## Messages -/

/-- **A payload that is too long for a datagram is cut into messages that are not.** -/
theorem Queue.encodedLength_le {q : Queue} (hcapacity : 20 < q.capacity) {r : Reliability}
    {channel : UInt8} {payload : Octets} {m : Message}
    (hm : m ∈ q.messagesFor r channel payload) : m.encodedLength ≤ q.capacity := by
  unfold messagesFor at hm
  split at hm
  · rename_i hwhole
    rw [List.mem_singleton.1 hm]
    exact of_decide_eq_true hwhole
  · simp only [fragmentMessages, List.mem_mapIdx] at hm
    obtain ⟨i, hi, rfl⟩ := hm
    have hpiece := Octets.length_le_of_mem_chunks (fragmentLength_ne_zero hcapacity r)
      (List.getElem_mem hi)
    have hheader := headerLength_fragment_le r
    have hlength : q.fragmentLength r
        = q.capacity - Message.headerLength r.ofFragments true := rfl
    simp only [Message.encodedLength, Option.isSome_some]
    omega

/-- Each message that a sender keeps fits into a datagram. -/
structure Fits (s : Sender) (capacity : Nat) : Prop where
  capacity_eq : s.queue.capacity = capacity
  keeps : ∀ m, s.Keeps m → m.encodedLength ≤ capacity
  sends : ∃ ds, s.Sends ds

theorem fits_fresh (settings : Settings) (mtu : UInt16) :
    (fresh settings mtu).Fits (Queue.maxPacketLength mtu - Datagram.headerLength) where
  capacity_eq := rfl
  keeps := fun _ hkeeps => absurd hkeeps (Idle.not_keeps ⟨rfl, Std.TreeMap.isEmpty_emptyc⟩)
  sends := ⟨[], sends_fresh settings mtu⟩

/-- What is kept afterwards was kept before. -/
theorem Fits.mono (h : s.Fits capacity) {s' : Sender}
    (hqueue : ∃ entries, s'.queue = { s.queue with entries := entries })
    (hkeeps : ∀ m, s'.Keeps m → s.Keeps m) (hsends : ∃ ds, s'.Sends ds) : s'.Fits capacity := by
  obtain ⟨entries, hqueue⟩ := hqueue
  exact ⟨by rw [hqueue]; exact h.capacity_eq, fun m hm => h.keeps m (hkeeps m hm), hsends⟩

theorem Fits.send (h : s.Fits capacity) (hcapacity : 20 < capacity) {r : Reliability}
    {channel : UInt8} {payload : Octets} {receipt : Option UInt32} {s' : Sender}
    (hsend : s.send r channel payload = .ok (receipt, s')) : s'.Fits capacity := by
  obtain ⟨ds, hsends⟩ := h.sends
  obtain ⟨hsends', hkeeps⟩ := hsends.send hsend
  obtain ⟨-, hqueue, -⟩ := send_eq_ok hsend
  refine ⟨by rw [hqueue]; exact h.capacity_eq, fun m hm => ?_, ds, hsends'⟩
  rcases (hkeeps m).1 hm with hold | hnew
  · exact h.keeps m hold
  · rw [← h.capacity_eq] at hcapacity ⊢
    exact Queue.encodedLength_le hcapacity hnew

theorem Fits.clear (h : s.Fits capacity) : s.clear.Fits capacity := by
  obtain ⟨ds, hsends⟩ := h.sends
  exact h.mono ⟨_, rfl⟩ (fun m hm => absurd hm (not_keeps_clear s m)) ⟨ds, hsends.clear⟩

theorem Fits.tick (h : s.Fits capacity) (now : Nanoseconds) : (s.tick now).2.Fits capacity := by
  obtain ⟨ds, hsends⟩ := h.sends
  obtain ⟨hsends', hqueue, hkeeps⟩ := hsends.tick now
  exact h.mono hqueue (fun m => (hkeeps m).1) ⟨ds, hsends'⟩

theorem Fits.receive (h : s.Fits capacity) (now : Nanoseconds) (a : Acknowledgement) :
    (s.receive now a).2.Fits capacity := by
  obtain ⟨ds, hsends⟩ := h.sends
  obtain ⟨hsends', hqueue, hkeeps, -⟩ := hsends.receive now a
  exact h.mono hqueue hkeeps ⟨ds, hsends'⟩

theorem Fits.flush (h : s.Fits capacity) (now : Nanoseconds) (limit : Nat) :
    (s.flush now limit).2.Fits capacity := by
  obtain ⟨ds, hsends⟩ := h.sends
  cases hflush : s.flush now limit with
  | mk out s' =>
    obtain ⟨hsends', hqueue, hkeeps, -⟩ := hsends.flush hflush
    exact h.mono hqueue hkeeps ⟨_, hsends'⟩

/-! ## Datagrams -/

theorem messages_collect_dispatch (now : Nanoseconds) (batches : List (List Outgoing))
    (s : Sender) : (Stepwise.collect (Sender.dispatch now) batches s).1.map (·.messages)
      = batches.map (·.map (·.message)) := by
  induction batches generalizing s with
  | nil => rfl
  | cons batch batches ih =>
    rw [Stepwise.collect_cons, List.map_cons, List.map_cons, ih]
    rfl

theorem load_map_message (batch : List Outgoing) :
    Packing.load Message.encodedLength (batch.map (·.message))
      = Packing.load (fun e => e.message.encodedLength) batch := by
  induction batch with
  | nil => rfl
  | cons e batch ih => rw [List.map_cons, Packing.load_cons, Packing.load_cons, ih]

/-- A flush makes datagrams that fit, and not too many of them. -/
theorem Fits.datagrams (h : s.Fits capacity) (now : Nanoseconds) (limit : Nat) :
    (∀ d ∈ (s.flush now limit).1, Packing.load Message.encodedLength d.messages ≤ capacity) ∧
      (s.flush now limit).1.length ≤ limit := by
  have hmessages := messages_collect_dispatch now (s.queue.pack limit).1
    { s with queue := (s.queue.pack limit).2 }
  refine ⟨fun d hd => ?_, ?_⟩
  · have hmem : d.messages ∈ (s.queue.pack limit).1.map (·.map (·.message)) :=
      hmessages ▸ List.mem_map_of_mem hd
    obtain ⟨batch, hbatch, heq⟩ := List.mem_map.1 hmem
    have hqueued : ∀ e ∈ s.queue.entries.toList, e.message.encodedLength ≤ s.queue.capacity :=
      fun e he => h.capacity_eq ▸ h.keeps _ (Or.inl ⟨e, he, rfl⟩)
    rw [← heq, load_map_message, ← h.capacity_eq]
    exact Packing.load_le_of_mem_batches hqueued hbatch
  · have hlength := congrArg List.length hmessages
    rw [List.length_map, List.length_map] at hlength
    exact hlength ▸ Packing.length_batches_le _ _ _ _

end Sender

/-! ## Acknowledgements -/

theorem SerialRange.four_le_encodedLength (r : SerialRange) : 4 ≤ r.encodedLength := by
  unfold encodedLength maxEncodedLength
  split <;> omega

theorem SerialRange.encodedLength_le (r : SerialRange) : r.encodedLength ≤ 7 := by
  unfold encodedLength maxEncodedLength
  split <;> omega

/-- Ranges are distributed over packets that are long enough for one of them. -/
theorem Acknowledgement.encodedLength_le_of_mem_build {kind : AckKind} {ranges : List SerialRange}
    {maxLength : Nat} (hroom : 10 ≤ maxLength) {a : Acknowledgement}
    (ha : a ∈ build kind ranges maxLength) : a.encodedLength ≤ maxLength := by
  obtain ⟨group, hgroup, rfl⟩ := List.mem_map.1 ha
  have hfits : ∀ r ∈ SerialRange.condense ranges, r.encodedLength ≤ maxLength - headerLength := by
    intro r _
    have := r.encodedLength_le
    unfold headerLength
    omega
  have hload := Packing.load_le_of_mem_batches hfits hgroup
  simp only [encodedLength, headerLength] at hload ⊢
  omega

namespace Packet

/-- What is short enough for any network has an encoding. -/
theorem encodable_of_encodedLength_le {p : Packet} (h : p.encodedLength ≤ 8192) :
    p.Encodable := by
  cases p with
  | acknowledgement a =>
    have hranges := Packing.mul_length_le_load SerialRange.four_le_encodedLength a.ranges
    simp only [encodedLength, Acknowledgement.encodedLength] at h
    show a.ranges.length < 65536
    omega
  | datagram d =>
    intro m hm
    obtain ⟨before, behind, hmessages⟩ := List.append_of_mem hm
    simp only [encodedLength, Datagram.encodedLength, hmessages, Packing.load_append,
      Packing.load_cons, Datagram.headerLength, Message.encodedLength] at h
    show m.payload.length < 8192
    omega

end Packet

/-! ## Links -/

namespace Link

inductive Event where
  | submit (r : Reliability) (channel : UInt8) (payload : Octets)
  | clear
  | hear (d : Datagram)
  | learn (now : Nanoseconds) (a : Acknowledgement)
  | tick (now : Nanoseconds)
  | flushDatagrams (now : Nanoseconds) (limit : Nat)
  | flush (now : Nanoseconds) (limit : Nat)
  deriving DecidableEq, Repr

/-- What an event makes of a link. A payload that is refused changes nothing. -/
def step (l : Link) : Event → Link
  | .submit r channel payload =>
    match l.send r channel payload with
    | .error _ => l
    | .ok (_, l) => l
  | .clear => l.clear
  | .hear d => (l.receiveDatagram d).2
  | .learn now a => (l.receiveAcknowledgement now a).2
  | .tick now => (l.tick now).2
  | .flushDatagrams now limit => (l.flushDatagrams now limit).2
  | .flush now limit => (l.flush now limit).2

def after (l : Link) (es : List Event) : Link := es.foldl step l

variable {l : Link} {mtu : UInt16}

/-- A link is made for one size of packet, and what its sender keeps is made for that size. -/
structure Fits (l : Link) (mtu : UInt16) : Prop where
  mtu_eq : l.mtu = mtu
  sender : l.sender.Fits (Sender.Queue.maxPacketLength mtu - Datagram.headerLength)

theorem fits_fresh (settings : Settings) (mtu : UInt16) : (fresh settings mtu).Fits mtu :=
  ⟨rfl, Sender.fits_fresh settings mtu⟩

theorem Fits.step (h : l.Fits mtu) (hmtu : 400 ≤ mtu.toNat) (e : Event) : (l.step e).Fits mtu := by
  cases e with
  | submit r channel payload =>
    simp only [Link.step, Link.send]
    cases hsend : l.sender.send r channel payload with
    | error fault => exact h
    | ok result =>
      refine ⟨h.mtu_eq, h.sender.send ?_ hsend⟩
      simp only [Sender.Queue.maxPacketLength, Datagram.headersBelow, Datagram.headerLength]
      omega
  | clear => exact ⟨h.mtu_eq, h.sender.clear⟩
  | hear d => exact ⟨h.mtu_eq, h.sender⟩
  | learn now a => exact ⟨h.mtu_eq, h.sender.receive now a⟩
  | tick now => exact ⟨h.mtu_eq, h.sender.tick now⟩
  | flushDatagrams now limit | flush now limit => exact ⟨h.mtu_eq, h.sender.flush now limit⟩

theorem Fits.after (h : l.Fits mtu) (hmtu : 400 ≤ mtu.toNat) (es : List Event) :
    (l.after es).Fits mtu := by
  induction es generalizing l with
  | nil => exact h
  | cons e es ih => exact ih (h.step hmtu e)

theorem Fits.packets (h : l.Fits mtu) (hmtu : 400 ≤ mtu.toNat) (now : Nanoseconds) (limit : Nat) :
    ∀ p ∈ (l.flushPackets now limit).1, p.encodedLength + 28 ≤ mtu.toNat := by
  have hlength : Sender.Queue.maxPacketLength l.mtu = mtu.toNat - 28 := by rw [h.mtu_eq]; rfl
  intro p hp
  rcases List.mem_append.1 hp with hleft | hright
  · obtain ⟨a, ha, rfl⟩ := List.mem_map.1 hleft
    have hbuild : a.encodedLength ≤ Sender.Queue.maxPacketLength l.mtu :=
      (List.mem_append.1 ha).elim
        (Acknowledgement.encodedLength_le_of_mem_build (by omega))
        (Acknowledgement.encodedLength_le_of_mem_build (by omega))
    simp only [Packet.encodedLength]
    omega
  · obtain ⟨d, hd, rfl⟩ := List.mem_map.1 hright
    have hload := (h.sender.datagrams now limit).1 d hd
    simp only [Packet.encodedLength, Datagram.encodedLength, Datagram.headerLength]
    simp only [Sender.Queue.maxPacketLength, Datagram.headersBelow, Datagram.headerLength] at hload
    omega

theorem Fits.countP_isDatagram (h : l.Fits mtu) (now : Nanoseconds) (limit : Nat) :
    (l.flushPackets now limit).1.countP Packet.isDatagram ≤ limit := by
  have hnone : ∀ acknowledgements : List Acknowledgement,
      (acknowledgements.map Packet.acknowledgement).countP Packet.isDatagram = 0 := by
    intro acknowledgements
    rw [List.countP_map]
    exact List.countP_eq_zero.2 fun _ _ => Bool.false_ne_true
  refine Nat.le_trans ?_ (h.sender.datagrams now limit).2
  simp only [flushPackets, List.countP_append, hnone, Nat.zero_add]
  exact Nat.le_trans List.countP_le_length (Nat.le_of_eq (List.length_map _))

/-- **Whatever happened to a link, all that it puts on the wire fits into the size of packet that it
was made for**, has an encoding, and has not more datagrams in it than are allowed at once. -/
theorem packets_fit {settings : Settings} {mtu : UInt16} (hvalid : settings.Valid)
    (hmin : settings.minMtu ≤ mtu) (hmax : mtu ≤ settings.maxMtu) (es : List Event)
    (now : Nanoseconds) (limit : Nat) :
    let l := (fresh settings mtu).after es
    (∀ p ∈ (l.flushPackets now limit).1, p.Encodable) ∧
      (∀ bs ∈ (l.flush now limit).1, bs.length + 28 ≤ mtu.toNat) ∧
      (l.flushPackets now limit).1.countP Packet.isDatagram ≤ limit := by
  intro l
  obtain ⟨hsmallest, hlargest, -⟩ := Settings.valid_iff.1 hvalid
  rw [UInt16.not_lt, UInt16.le_iff_toNat_le] at hsmallest hlargest
  rw [UInt16.le_iff_toNat_le] at hmin hmax
  have hmtu : 400 ≤ mtu.toNat := Nat.le_trans hsmallest hmin
  have hfits := (fits_fresh settings mtu).after hmtu es
  have hpackets := hfits.packets hmtu now limit
  refine ⟨fun p hp => ?_, fun bs hbs => ?_, hfits.countP_isDatagram now limit⟩
  · have hlong : mtu.toNat ≤ 1500 := Nat.le_trans hmax hlargest
    have := hpackets p hp
    exact Packet.encodable_of_encodedLength_le (by omega)
  · obtain ⟨p, hp, rfl⟩ := List.mem_map.1 hbs
    rw [p.length_encode]
    exact hpackets p hp

/-- A payload that has to be cut, sent in part and reported as missing, and a datagram of the peer
behind a gap. -/
def busy : List Event :=
  [.submit .reliable 0 (List.replicate 1000 7), .flush 0 1, .submit .unreliable 0 [1],
    .learn 1 ⟨.nack, [.single (Serial.ofNat 0)]⟩, .hear ⟨Serial.ofNat 3, []⟩]

theorem packets_fit_busy :
    (((fresh {} 400).after busy).flush 2 2).1.map List.length = [7, 10, 372, 372] ∧
      Settings.minMtu {} ≤ 400 ∧ 400 ≤ Settings.maxMtu {} ∧ Settings.Valid {} ∧
      (∀ p ∈ (((fresh {} 400).after busy).flushPackets 2 2).1, p.Encodable) ∧
      (∀ bs ∈ (((fresh {} 400).after busy).flush 2 2).1, bs.length + 28 ≤ 400) ∧
      (((fresh {} 400).after busy).flushPackets 2 2).1.countP Packet.isDatagram ≤ 2 :=
  have hvalid : Settings.Valid {} := by decide +kernel
  ⟨by decide +kernel, by decide, by decide, hvalid,
    packets_fit hvalid (by decide) (by decide) busy 2 2⟩

end Link

end DatagramTransport

import DatagramTransport.Proofs.Exchange

/-!
# Halves — payloads that are cut in two

Of all payloads that are split, those cut in two take the fewest indexes for each fragment number.
This file sends any number of them, one after the other, with nothing lost and nothing arriving. A
fragment fills a datagram, so **every fragment travels alone, in a datagram that has its number**,
and what the network may bring in which order is a matter of indexes only.

A payload is full of the number of times that the fragment numbers have come round before it, so
that payloads with the same fragment number can be told apart.
-/

set_option autoImplicit false

namespace DatagramTransport

namespace Packing

/-- Items that fill a container travel alone. -/
theorem batches_full {α : Type} {size : α → Nat} {capacity limit : Nat} {items : List α}
    (hpos : 0 < capacity) (hfull : ∀ a ∈ items, size a = capacity) (hlimit : items.length ≤ limit) :
    batches size capacity limit items = (items.map ([·]), []) := by
  induction items generalizing limit with
  | nil => exact batches_nil size capacity limit
  | cons a items ih =>
    rw [List.length_cons] at hlimit
    obtain ⟨limit, rfl⟩ : ∃ n, limit = n + 1 := Nat.exists_eq_add_one.2 (by omega)
    have hfront : front size 0 items = ([], items) := by
      cases items with
      | nil => rfl
      | cons b items =>
        refine if_neg ?_
        rw [hfull b (List.mem_cons_of_mem _ List.mem_cons_self)]
        omega
    rw [batches_cons, hfull a List.mem_cons_self, Nat.sub_self, hfront,
      ih (fun b hb => hfull b (List.mem_cons_of_mem _ hb)) (Nat.le_of_succ_le_succ hlimit)]
    rfl

end Packing

/-- How far the counters have come when payloads were cut in two. -/
def Tally.pairs (n : Nat) : Tally := ⟨2 * n, fun _ => 0, fun _ => 0, n⟩

namespace Parcel

def half (length n : Nat) : Octets := List.replicate length (UInt8.ofNat (n / 65536))

/-- The parcel that comes after as many others, if all are cut in two. -/
def pair (length n : Nat) : Parcel where
  reliability := .reliable
  channel := 0
  pieces := [half length n, half length n]
  nonempty := List.cons_ne_nil _ _
  first := 2 * n
  place := 0
  cut := n

/-- The messages of a parcel, each in a datagram that has its number. -/
def datagrams (p : Parcel) : List Datagram :=
  p.pieces.mapIdx fun i piece => ⟨Serial.ofNat (p.first + i), [p.message i piece]⟩

@[simp] theorem length_half (length n : Nat) : (half length n).length = length :=
  List.length_replicate

theorem payload_pair (length n : Nat) :
    (pair length n).payload = half length n ++ half length n := by
  simp [payload, pair]

theorem chunks_half {length : Nat} (hlength : 0 < length) (n : Nat) :
    (half length n ++ half length n).chunks length = [half length n, half length n] := by
  have hsize : length ≠ 0 := Nat.ne_of_gt hlength
  have hne : half length n ≠ [] := List.ne_nil_of_length_pos (by rwa [length_half])
  have hle : (half length n).length ≤ length := Nat.le_of_eq (length_half length n)
  rw [Octets.chunks_of_ne_nil (List.append_ne_nil_of_left_ne_nil hne _) hsize,
    List.take_left' (length_half length n), List.drop_left' (length_half length n),
    Octets.chunks_of_ne_nil hne hsize, List.take_of_length_le hle, List.drop_of_length_le hle,
    Octets.chunks_nil]

theorem encodedLength_of_mem_pair {length n : Nat} {m : Message}
    (hm : m ∈ (pair length n).messages) : m.encodedLength = length + 16 := by
  obtain ⟨i, hi, rfl⟩ := mem_messages.1 hm
  have hpiece : (pair length n).pieces[i] = half length n := by
    obtain rfl | rfl : i = 0 ∨ i = 1 := by
      have : i < 2 := hi
      omega
    · rfl
    · rfl
  have hheader : ((pair length n).message i (half length n)).encodedLength
      = 16 + (half length n).length := rfl
  rw [hpiece, hheader, length_half, Nat.add_comm]

end Parcel

namespace Sender

open Parcel (half pair)

variable {q : Queue} {s : Sender} {length n limit : Nat}

namespace Queue

theorem pack_full (hpos : 0 < q.capacity)
    (hfull : ∀ e ∈ q.entries.toList, e.message.encodedLength = q.capacity)
    (hlimit : q.entries.toList.length ≤ limit) :
    q.pack limit = (q.entries.toList.map ([·]), { q with entries := .ofList [] }) := by
  rw [pack, Packing.batches_full hpos hfull hlimit]

theorem fragmentLength_eq (hcapacity : q.capacity = length + 16) :
    q.fragmentLength .reliable = length := by
  rw [fragmentLength, hcapacity]
  exact Nat.add_sub_cancel length 16

theorem pieces_pair (hcapacity : q.capacity = length + 16) (hlength : 10 < length) :
    q.pieces .reliable (half length n ++ half length n) = [half length n, half length n] := by
  have hheader : Message.headerLength .reliable false = 6 := rfl
  have hwhole : ¬ q.fitsWhole .reliable (half length n ++ half length n) = true := by
    rw [fitsWhole, List.length_append, Parcel.length_half, hheader, decide_eq_true_eq]
    omega
  rw [pieces, if_neg hwhole, fragmentLength_eq hcapacity, Parcel.chunks_half (by omega)]

end Queue

/-- Payloads were cut in two and sent, and nothing is queued. -/
structure Stocked (length n : Nat) (s : Sender) : Prop where
  counts : s.queue.Counts (Tally.pairs n)
  sequence_eq : s.nextSequence = Serial.ofNat (2 * n)
  empty : s.queue.entries.toList = []
  capacity_eq : s.queue.capacity = length + 16
  hasChannel : (0 : UInt8).toNat < s.queue.channels.length
  maxFragments_ge : 2 ≤ s.queue.maxFragments

theorem Stocked.messagesFor (h : s.Stocked length n) (hlength : 10 < length) :
    s.queue.messagesFor .reliable 0 (half length n ++ half length n)
      = (pair length n).messages := by
  have hcapacity : 20 < s.queue.capacity := by
    have := h.capacity_eq
    omega
  have hparcel : s.queue.parcel (Tally.pairs n) hcapacity .reliable 0
      (half length n ++ half length n) = pair length n := by
    simp only [Queue.parcel, Tally.parcel, Queue.pieces_pair h.capacity_eq hlength]
    rfl
  rw [h.counts.messagesFor hcapacity h.hasChannel, hparcel]

theorem Stocked.send (h : s.Stocked length n) (hlength : 10 < length) :
    s.send .reliable 0 (half length n ++ half length n) = .ok (none,
      { s with queue := s.queue.append (pair length n).messages .reliable 0 none }) := by
  have hrefusal : s.queue.refusal? .reliable 0 (half length n ++ half length n) = none := by
    refine Queue.refusal?_eq_none_iff.2 ⟨h.hasChannel, ?_⟩
    rw [List.length_append, Parcel.length_half, Queue.maxPayloadLength,
      Queue.fragmentLength_eq h.capacity_eq, ← Nat.mul_two]
    exact Nat.mul_le_mul_left length h.maxFragments_ge
  simp only [Sender.send, Queue.enqueue, hrefusal, h.messagesFor hlength]
  rfl

/-- What was queued of a payload leaves in two datagrams. -/
theorem Stocked.flush (h : s.Stocked length n) {s' : Sender}
    (hs' : s' = { s with queue := s.queue.append (pair length n).messages .reliable 0 none }) :
    (s'.flush 0 2).1 = (pair length n).datagrams ∧ (s'.flush 0 2).2.Stocked length (n + 1) := by
  have hentries : s'.queue.entries.toList
      = (pair length n).messages.map fun m => ⟨m, none, false⟩ := by
    rw [hs', Queue.append, Fifo.toList_append, h.empty, List.nil_append]
  have hcapacity : s'.queue.capacity = length + 16 := by
    rw [hs']
    exact h.capacity_eq
  have hfull : ∀ e ∈ s'.queue.entries.toList, e.message.encodedLength = s'.queue.capacity := by
    rw [hentries, hcapacity]
    intro e he
    obtain ⟨m, hm, rfl⟩ := List.mem_map.1 he
    exact Parcel.encodedLength_of_mem_pair hm
  have htwo : s'.queue.entries.toList.length ≤ 2 := by
    rw [hentries]
    exact Nat.le_refl 2
  have hpack := Queue.pack_full (by omega) hfull htwo
  rw [hentries] at hpack
  simp only [Sender.flush, hpack]
  subst hs'
  have hcounts := h.counts.append (pair length n) none
  refine ⟨?_, ⟨⟨hcounts.index_eq, hcounts.fragmentId_eq, hcounts.channel_eq⟩, ?_, rfl,
    h.capacity_eq, ?_, h.maxFragments_ge⟩⟩
  · show [⟨s.nextSequence, _⟩, ⟨s.nextSequence.next, _⟩] = (pair length n).datagrams
    rw [h.sequence_eq, Serial.next_ofNat]
    rfl
  · show s.nextSequence.next.next = _
    rw [h.sequence_eq, Serial.next_ofNat, Serial.next_ofNat]
    rfl
  · show _ < (s.queue.channels.modify _ _).length
    rw [List.length_modify]
    exact h.hasChannel

end Sender

namespace Exchange

open Parcel (half pair)

variable {settings : Settings} {mtu mtu' : UInt16} {w : Exchange} {length n i k : Nat}

/-- Payloads that are cut in two were sent, and nothing came to the other end. -/
structure Posted (settings : Settings) (mtu' : UInt16) (length n : Nat) (w : Exchange) : Prop where
  sender : w.source.sender.Stocked length n
  accepted_eq : w.accepted = (List.range n).map fun k => (pair length k).submission
  datagrams_eq : w.datagrams = (List.range n).flatMap fun k => (pair length k).datagrams
  target_eq : w.target = Link.fresh settings mtu'

theorem posted_fresh (hmtu : mtu.toNat = length + 48) (hchannels : 0 < settings.orderChannels)
    (hfragments : 2 ≤ settings.maxFragmentsPerSend) :
    Posted settings mtu' length 0 (fresh settings mtu mtu') where
  sender := by
    refine ⟨⟨rfl, rfl, fun c hc => ?_⟩, rfl, rfl, ?_, ?_, hfragments⟩
    · have hlt : c.toNat < settings.orderChannels := by
        simpa [fresh, Link.fresh, Sender.fresh, Sender.Queue.fresh] using hc
      simp [fresh, Link.fresh, Sender.fresh, Sender.Queue.fresh, Tally.pairs, hlt]
    · show mtu.toNat - 28 - 4 = length + 16
      omega
    · simpa [fresh, Link.fresh, Sender.fresh, Sender.Queue.fresh] using hchannels
  accepted_eq := rfl
  datagrams_eq := rfl
  target_eq := rfl

theorem Posted.next (h : Posted settings mtu' length n w) (hlength : 10 < length) :
    Posted settings mtu' length (n + 1)
      ((w.step (.submit .reliable 0 (half length n ++ half length n))).step (.transmit 0 2)) := by
  obtain ⟨hdatagrams, hsender⟩ := h.sender.flush rfl
  simp only [step, Link.send, h.sender.send hlength, Link.flushDatagrams]
  refine ⟨hsender, ?_, ?_, h.target_eq⟩
  · rw [h.sender.messagesFor hlength, List.range_succ, List.map_append, ← h.accepted_eq,
      List.map_singleton, Parcel.submission, Parcel.payload_pair]
    rfl
  · rw [hdatagrams, List.range_succ, List.flatMap_append, ← h.datagrams_eq,
      List.flatMap_singleton]

/-- **Any number of payloads can be cut in two and sent.** -/
theorem exists_posted (hmtu : mtu.toNat = length + 48) (hlength : 10 < length)
    (hchannels : 0 < settings.orderChannels) (hfragments : 2 ≤ settings.maxFragmentsPerSend)
    (mtu' : UInt16) (n : Nat) :
    ∃ w, Run settings mtu mtu' Carried w ∧ Posted settings mtu' length n w := by
  induction n with
  | zero => exact ⟨_, .start, posted_fresh hmtu hchannels hfragments⟩
  | succ n ih =>
    obtain ⟨w, run, h⟩ := ih
    exact ⟨_, (run.next (e := .submit _ _ _) trivial).next (e := .transmit _ _) trivial,
      h.next hlength⟩

theorem Posted.mem_datagrams (h : Posted settings mtu' length n w) (hk : k < n) (hi : i < 2) :
    ⟨Serial.ofNat (2 * k + i), [(pair length k).message i (half length k)]⟩ ∈ w.datagrams := by
  rw [h.datagrams_eq]
  refine List.mem_flatMap.2 ⟨k, List.mem_range.2 hk, ?_⟩
  obtain rfl | rfl : i = 0 ∨ i = 1 := by omega
  · exact List.mem_cons_self
  · exact List.mem_cons_of_mem _ List.mem_cons_self

theorem Posted.length_created (h : Posted settings mtu' length n w) :
    w.created.length = n * 2 := by
  have htwo : ∀ k ∈ List.range n, (pair length k).submission.messages.length = 2 := fun _ _ => rfl
  rw [created, h.accepted_eq, List.flatMap_map, List.length_flatMap, List.map_congr_left htwo,
    List.map_const', List.sum_replicate_nat, List.length_range]

end Exchange

end DatagramTransport

import DatagramTransport.Proofs.Bounds
import DatagramTransport.Proofs.Encoding

/-!
# Provenance — what a payload begins with

A session looks at the first octet of a payload to know whose business it is. On its way a payload
is cut, sent again, held back, put together and let out with others, and a receiver may put
fragments of two payloads together when their numbers have come round. Still, **what comes out
begins with an octet that something began with that was put in**: only the fragment in the first
place has it, and a message that is put together begins with the fragment in the first place.

So a set of first octets can be followed from the one end of a link to the other, through the queue
and the records of the sender, the wire, and what the receiver keeps.
-/

set_option autoImplicit false

namespace DatagramTransport

variable {ids ids' : UInt8 → Prop}

/-- There is a first octet, and it is one of these. -/
def Octets.LedBy (ids : UInt8 → Prop) (bs : Octets) : Prop := ∃ id rest, bs = id :: rest ∧ ids id

theorem Octets.LedBy.mono {bs : Octets} (h : bs.LedBy ids) (himp : ∀ id, ids id → ids' id) :
    bs.LedBy ids' := by
  obtain ⟨id, rest, heq, hid⟩ := h
  exact ⟨id, rest, heq, himp id hid⟩

theorem Octets.LedBy.append {bs : Octets} (h : bs.LedBy ids) (more : Octets) :
    Octets.LedBy ids (bs ++ more) := by
  obtain ⟨id, rest, rfl, hid⟩ := h
  exact ⟨id, rest ++ more, rfl, hid⟩

/-- The message can be written, and begins with one of these octets if a payload begins with it. -/
structure Message.LedBy (ids : UInt8 → Prop) (m : Message) : Prop where
  sendable : m.Sendable
  led : (∀ mark ∈ m.fragment, mark.index = 0) → m.payload.LedBy ids

theorem Message.LedBy.mono {m : Message} (h : m.LedBy ids) (himp : ∀ id, ids id → ids' id) :
    m.LedBy ids' :=
  ⟨h.sendable, fun hfirst => (h.led hfirst).mono himp⟩

namespace Sender

variable {s s' : Sender} {Q Q' : Message → Prop}

/-! ## What is kept -/

/-- Every message that the sender keeps is of a kind. -/
structure KeepsOnly (Q : Message → Prop) (s : Sender) : Prop where
  keeps : ∀ m, s.Keeps m → Q m
  sends : ∃ ds, s.Sends ds

theorem KeepsOnly.mono (h : s.KeepsOnly Q) (himp : ∀ m, Q m → Q' m) : s.KeepsOnly Q' :=
  ⟨fun m hm => himp m (h.keeps m hm), h.sends⟩

theorem keepsOnly_fresh (settings : Settings) (mtu : UInt16) :
    (fresh settings mtu).KeepsOnly Q where
  keeps := fun _ hkeeps => absurd hkeeps (Idle.not_keeps ⟨rfl, Std.TreeMap.isEmpty_emptyc⟩)
  sends := ⟨[], sends_fresh settings mtu⟩

theorem KeepsOnly.send (h : s.KeepsOnly Q) {r : Reliability} {channel : UInt8} {payload : Octets}
    {receipt : Option UInt32} (hsend : s.send r channel payload = .ok (receipt, s'))
    (hnew : ∀ m ∈ s.queue.messagesFor r channel payload, Q m) : s'.KeepsOnly Q := by
  obtain ⟨ds, hsends⟩ := h.sends
  obtain ⟨hsends', hkeeps⟩ := hsends.send hsend
  exact ⟨fun m hm => ((hkeeps m).1 hm).elim (h.keeps m) (hnew m), ds, hsends'⟩

theorem keepsOnly_clear (h : s.KeepsOnly Q) : s.clear.KeepsOnly Q' := by
  obtain ⟨ds, hsends⟩ := h.sends
  exact ⟨fun m hm => absurd hm (not_keeps_clear s m), ds, hsends.clear⟩

theorem KeepsOnly.tick (h : s.KeepsOnly Q) (now : Nanoseconds) : (s.tick now).2.KeepsOnly Q := by
  obtain ⟨ds, hsends⟩ := h.sends
  obtain ⟨hsends', -, hkeeps⟩ := hsends.tick now
  exact ⟨fun m hm => h.keeps m ((hkeeps m).1 hm), ds, hsends'⟩

theorem KeepsOnly.receive (h : s.KeepsOnly Q) (now : Nanoseconds) (a : Acknowledgement) :
    (s.receive now a).2.KeepsOnly Q := by
  obtain ⟨ds, hsends⟩ := h.sends
  obtain ⟨hsends', -, hkeeps, -⟩ := hsends.receive now a
  exact ⟨fun m hm => h.keeps m (hkeeps m hm), ds, hsends'⟩

/-- What is sent was kept, and what is kept afterwards as well. -/
theorem KeepsOnly.flush (h : s.KeepsOnly Q) (now : Nanoseconds) (limit : Nat) :
    (s.flush now limit).2.KeepsOnly Q ∧
      ∀ d ∈ (s.flush now limit).1, ∀ m ∈ d.messages, Q m := by
  obtain ⟨ds, hsends⟩ := h.sends
  obtain ⟨hsends', -, hkeeps, hout, -⟩ := hsends.flush (Prod.eta (s.flush now limit)).symm
  exact ⟨⟨fun m hm => h.keeps m (hkeeps m hm), _, hsends'⟩,
    fun d hd m hm => h.keeps m (Or.inl (hout d hd m hm))⟩

/-! ## What is put in -/

namespace Queue

variable {q : Queue} {r : Reliability} {channel : UInt8} {payload : Octets}

theorem isSome_orderMark (hchannel : channel.toNat < q.channels.length) (r : Reliability) :
    (q.orderMark r channel).isSome = r.hasOrder := by
  simp only [orderMark, List.getElem?_eq_getElem hchannel, ChannelCounters.place?,
    Reliability.hasOrder]
  cases r.isOrdered <;> cases r.isSequenced <;> rfl

/-- What was accepted and is not sent whole can be cut. -/
theorem fragmentLength_ne_zero_of_accepted (haccepted : q.refusal? r channel payload = none)
    (hpayload : payload ≠ []) : q.fragmentLength r ≠ 0 := by
  intro hzero
  have hlength := (refusal?_eq_none_iff.1 haccepted).2
  rw [maxPayloadLength, hzero, Nat.zero_mul] at hlength
  exact hpayload (List.eq_nil_of_length_eq_zero (Nat.le_zero.1 hlength))

/-- The pieces of a payload: only the first one is in the first place, and it has the first
octet. -/
theorem ledBy_fragmentMessages (haccepted : q.refusal? r channel payload = none)
    (hshort : payload.length < 8192) (hled : payload.LedBy ids) :
    ∀ m ∈ q.fragmentMessages r channel payload, m.LedBy ids := by
  have hchannel := (refusal?_eq_none_iff.1 haccepted).1
  obtain ⟨id, rest, rfl, hid⟩ := hled
  have hsize := fragmentLength_ne_zero_of_accepted haccepted (List.cons_ne_nil id rest)
  have hfew : (Octets.chunks (q.fragmentLength r) (id :: rest)).length ≤ (id :: rest).length :=
    (Octets.length_chunks_le_iff hsize).2
      (Nat.le_mul_of_pos_left _ (Nat.pos_of_ne_zero hsize))
  have hcut := Octets.chunks_of_ne_nil (List.cons_ne_nil id rest) hsize
  intro m hm
  simp only [fragmentMessages, List.mem_mapIdx] at hm
  obtain ⟨i, hi, rfl⟩ := hm
  have hfits {n : Nat} (hn : n ≤ (id :: rest).length) : (UInt32.ofNat n).toNat = n :=
    UInt32.toNat_ofNat_of_lt' (show n < 4294967296 by omega)
  have hindex := hfits (Nat.le_trans (Nat.le_of_lt hi) hfew)
  refine ⟨⟨⟨?_, ?_, ?_⟩, ?_⟩, fun hfirst => ?_⟩
  · exact (Reliability.isReliable_ofFragments r).symm
  · rw [isSome_orderMark hchannel, Reliability.hasOrder, Reliability.hasOrder,
      Reliability.isOrdered_ofFragments, Reliability.isSequenced_ofFragments]
  · intro mark hmark
    cases hmark
    rw [UInt32.lt_iff_toNat_lt, hindex, hfits hfew]
    exact hi
  · have hpiece := (List.sublist_flatten_of_mem (List.getElem_mem hi)).length_le
    rw [Octets.flatten_chunks hsize (id :: rest)] at hpiece
    exact Nat.lt_of_le_of_lt hpiece hshort
  · obtain rfl : i = 0 := hindex.symm.trans (congrArg UInt32.toNat (hfirst _ rfl))
    refine ⟨id, rest.take (q.fragmentLength r - 1), ?_, hid⟩
    simp only [hcut, List.getElem_cons_zero]
    obtain ⟨n, hn⟩ := Nat.exists_eq_succ_of_ne_zero hsize
    rw [hn]
    rfl

/-- **A short payload makes messages that can be written, and the first of them begins as the
payload does.** -/
theorem ledBy_messagesFor (haccepted : q.refusal? r channel payload = none)
    (hshort : payload.length < 8192) (hled : payload.LedBy ids) :
    ∀ m ∈ q.messagesFor r channel payload, m.LedBy ids := by
  have hchannel := (refusal?_eq_none_iff.1 haccepted).1
  unfold messagesFor
  split
  · intro m hm
    rw [List.mem_singleton.1 hm]
    refine ⟨⟨⟨?_, isSome_orderMark hchannel r, nofun⟩, hshort⟩, fun _ => hled⟩
    simp only [wholeMessage]
    cases r.isReliable <;> rfl
  · exact ledBy_fragmentMessages haccepted hshort hled

end Queue

end Sender

namespace Receiver

/-! ## What is put together -/

namespace Assembly

variable {a : Assembly}

/-- If the fragment in the first place is there, the payload is going to begin with one of these. -/
def LedBy (ids : UInt8 → Prop) (a : Assembly) : Prop :=
  a.head.isSome = true → ∃ payload, a.fragments[(0 : UInt32)]? = some payload ∧ payload.LedBy ids

theorem LedBy.message? (h : a.LedBy ids) {whole : Message} (hwhole : a.message? = some whole) :
    whole.payload.LedBy ids := by
  obtain ⟨head, hhead, rfl⟩ := Option.map_eq_some_iff.1 hwhole
  obtain ⟨payload, hget, hled⟩ := h (by rw [hhead]; rfl)
  have hsorted : a.fragments.toList.Pairwise fun x y => x.1 < y.1 :=
    Std.TreeMap.ordered_keys_toList.imp fun hlt => Std.compare_eq_lt.1 hlt
  have hmem := Std.TreeMap.mem_toList_iff_getElem?_eq_some.2 hget
  -- nothing stands in front of the first place
  show Octets.LedBy ids (a.fragments.toList.flatMap Prod.snd)
  cases hlist : a.fragments.toList with
  | nil =>
    rw [hlist] at hmem
    cases hmem
  | cons first others =>
    rw [hlist] at hmem hsorted
    rcases List.mem_cons.1 hmem with rfl | hlater
    · exact hled.append _
    · exact absurd ((List.pairwise_cons.1 hsorted).1 _ hlater) UInt32.not_lt_zero

end Assembly

namespace Assembler

variable {a : Assembler} {m whole : Message}

theorem Joins.ledBy {mark : FragmentMark} {assembly : Assembly} (joins : a.Joins m mark assembly)
    (h : a.Every (Assembly.LedBy ids)) (hmark : mark ∈ m.fragment) (hm : m.LedBy ids) :
    (assembly.put mark.index m).LedBy ids := by
  intro hhead
  by_cases hzero : mark.index = 0
  · refine ⟨m.payload, ?_, hm.led fun mark' hmark' => ?_⟩
    · show (assembly.fragments.insert mark.index m.payload)[(0 : UInt32)]? = _
      rw [hzero, Std.TreeMap.getElem?_insert_self]
    · rw [hmark] at hmark'
      rw [← Option.some.inj hmark']
      exact hzero
  · have hkept : assembly.head.isSome = true := by
      simpa only [Assembly.put, hzero, if_false] using hhead
    rcases joins.origin with hget | rfl
    · obtain ⟨payload, hfirst, hled⟩ := h mark.id assembly hget hkept
      refine ⟨payload, ?_, hled⟩
      show (assembly.fragments.insert mark.index m.payload)[(0 : UInt32)]? = _
      rw [Std.TreeMap.getElem?_insert, if_neg, hfirst]
      exact fun hcmp => hzero (Std.LawfulEqCmp.compare_eq_iff_eq.1 hcmp)
    · cases hkept

theorem Every.ledBy_take (h : a.Every (Assembly.LedBy ids)) (hm : m.LedBy ids) :
    (a.take m).2.Every (Assembly.LedBy ids) :=
  h.take fun _ hmark _ joins _ _ => joins.ledBy h hmark hm

theorem Every.ledBy_whole (h : a.Every (Assembly.LedBy ids)) (hm : m.LedBy ids)
    (hwhole : (a.take m).1 = .ok (some whole)) : whole.payload.LedBy ids := by
  rcases take_eq_ok_some hwhole with ⟨hnone, rfl⟩ | ⟨mark, hmark, assembly, joins, hmessage⟩
  · exact hm.led fun mark hmark => by rw [hnone] at hmark; cases hmark
  · exact (joins.ledBy h hmark hm).message? hmessage

end Assembler

/-! ## What is held -/

namespace Channel

variable {c : Channel}

def LedBy (ids : UInt8 → Prop) (c : Channel) : Prop :=
  ∀ (s : Serial) (payload : Octets), c.held[s]? = some payload → payload.LedBy ids

/-- What is brought out was there or was held, and what is left was held. -/
theorem ledBy_drainOnto (payloads : List Octets) (next : Serial)
    {held : Std.TreeMap Serial Octets} (hthere : ∀ payload ∈ payloads, payload.LedBy ids)
    (hheld : ∀ (s : Serial) (payload : Octets), held[s]? = some payload → payload.LedBy ids) :
    (∀ payload ∈ (drainOnto payloads next held).1, payload.LedBy ids) ∧
      ∀ (s : Serial) (payload : Octets),
        (drainOnto payloads next held).2.2[s]? = some payload → payload.LedBy ids := by
  fun_induction drainOnto payloads next held with
  | case1 payloads next held hnone =>
    exact ⟨fun payload hmem => hthere payload (List.mem_reverse.1 hmem), hheld⟩
  | case2 payloads next held payload hsome ih =>
    refine ih (fun payload' hmem => ?_) fun s payload' hget => ?_
    · rcases List.mem_cons.1 hmem with rfl | hmem
      · exact hheld next _ hsome
      · exact hthere payload' hmem
    · rw [Std.TreeMap.getElem?_erase] at hget
      split at hget
      · cases hget
      · exact hheld s payload' hget

theorem LedBy.takeOrdered (h : c.LedBy ids) (index : Serial) {payload : Octets}
    (hpayload : payload.LedBy ids) :
    (∀ payload' ∈ (c.takeOrdered index payload).1, payload'.LedBy ids) ∧
      (c.takeOrdered index payload).2.LedBy ids := by
  unfold Channel.takeOrdered
  simp only
  split
  · exact ⟨nofun, h⟩
  · split
    · refine ⟨nofun, fun s payload' hget => ?_⟩
      rw [Std.TreeMap.getElem?_insertIfNew] at hget
      split at hget
      · rwa [← Option.some.inj hget]
      · exact h s payload' hget
    · obtain ⟨hout, hleft⟩ := ledBy_drainOnto [] c.nextOrdered.next nofun h
      exact ⟨List.forall_mem_cons.2 ⟨hpayload, hout⟩, hleft⟩

end Channel

variable {cs cs' : Channels} {m whole : Message} {r : Receiver} {deliveries : List Delivery}

def Channels.LedBy (ids : UInt8 → Prop) (cs : Channels) : Prop :=
  ∀ (channel : UInt8) (c : Channel), cs.get? channel = some c → c.LedBy ids

theorem Channels.LedBy.set (h : cs.LedBy ids) (channel : UInt8) {c : Channel}
    (hc : c.LedBy ids) : (cs.set channel c).LedBy ids := by
  intro channel' c' hget
  rcases Channels.get?_set_eq_some hget with ⟨-, rfl⟩ | hold
  · exact hc
  · exact h channel' c' hold

/-- What is let out for a message is the message itself, or was held. -/
theorem Channels.LedBy.release (h : cs.LedBy ids) (hwhole : whole.payload.LedBy ids)
    (hrelease : Receiver.release whole cs = .ok (deliveries, cs')) :
    (∀ d ∈ deliveries, d.payload.LedBy ids) ∧ cs'.LedBy ids := by
  have hown (h : ∀ d ∈ deliveries, d.payload = whole.payload) :
      ∀ d ∈ deliveries, d.payload.LedBy ids := fun d hd => h d hd ▸ hwhole
  rcases release_cases hrelease with ⟨rfl, hout⟩ | ⟨order, -, c, hget, hcase⟩
  · exact ⟨hown hout, h⟩
  · rcases hcase with ⟨-, rfl, hout⟩ | ⟨rfl, hout⟩
    · obtain ⟨hpayloads, hleft⟩ := (h order.channel c hget).takeOrdered order.index hwhole
      exact ⟨fun d hd => hpayloads _ (hout d hd), h.set order.channel hleft⟩
    · refine ⟨hown hout, h.set order.channel fun s payload hs => ?_⟩
      rw [(c.takeSequenced_eq order.index).2] at hs
      exact h order.channel c hget s payload hs

/-! ## From end to end -/

/-- Whatever the receiver keeps begins with one of these octets, if it begins a payload. -/
structure LedBy (ids : UInt8 → Prop) (r : Receiver) : Prop where
  assembler : r.assembler.Every (Assembly.LedBy ids)
  channels : r.channels.LedBy ids

theorem ledBy_fresh (settings : Settings) : (fresh settings).LedBy ids where
  assembler := Assembler.every_fresh _ _ _
  channels := by
    intro channel c hget
    rw [Channels.get?_fresh hget]
    intro s payload hs
    simp [Channel.fresh] at hs

theorem LedBy.mono (h : r.LedBy ids) (himp : ∀ id, ids id → ids' id) : r.LedBy ids' where
  assembler := by
    intro id assembly hget hhead
    obtain ⟨payload, hfirst, hled⟩ := h.assembler id assembly hget hhead
    exact ⟨payload, hfirst, hled.mono himp⟩
  channels := fun channel c hget s payload hs => (h.channels channel c hget s payload hs).mono himp

theorem LedBy.congr {r' : Receiver} (h : r.LedBy ids) (hassembler : r'.assembler = r.assembler)
    (hchannels : r'.channels = r.channels) : r'.LedBy ids :=
  ⟨hassembler ▸ h.assembler, hchannels ▸ h.channels⟩

theorem LedBy.take (h : r.LedBy ids) (hm : m.LedBy ids) :
    (∀ d ∈ (r.take m).1.deliveries, d.payload.LedBy ids) ∧ (r.take m).2.LedBy ids := by
  have hassembler : (r.take m).2.assembler.Every (Assembly.LedBy ids) := by
    rcases assembler_take_cases m r with heq | heq
    · rw [heq]
      exact h.assembler
    · rw [heq]
      exact h.assembler.ledBy_take hm
  rcases take_cases m r with ⟨hnone, hchannels⟩ | ⟨whole, hcompleted, hrelease⟩
  · rw [hnone]
    exact ⟨nofun, hassembler, hchannels ▸ h.channels⟩
  · have hwhole := h.assembler.ledBy_whole hm (completed?_eq_some_iff.1 hcompleted).2
    obtain ⟨hout, hchannels⟩ := h.channels.release hwhole hrelease
    exact ⟨hout, hassembler, hchannels⟩

theorem LedBy.collect (h : r.LedBy ids) {ms : List Message} (hms : ∀ m ∈ ms, m.LedBy ids) :
    (∀ d ∈ (Stepwise.collect Receiver.take ms r).1.flatMap Intake.deliveries,
        d.payload.LedBy ids) ∧
      (Stepwise.collect Receiver.take ms r).2.LedBy ids := by
  induction ms generalizing r with
  | nil => exact ⟨nofun, h⟩
  | cons m ms ih =>
    obtain ⟨hnow, hnext⟩ := h.take (hms m List.mem_cons_self)
    obtain ⟨hlater, hlast⟩ := ih hnext fun m' hm' => hms m' (List.mem_cons_of_mem m hm')
    rw [Stepwise.collect_cons, List.flatMap_cons]
    exact ⟨fun d hd => (List.mem_append.1 hd).elim (hnow d) (hlater d), hlast⟩

/-- **Whatever comes out for a datagram begins with one of the octets that were put in.** -/
theorem LedBy.receive (h : r.LedBy ids) {d : Datagram} (hd : ∀ m ∈ d.messages, m.LedBy ids) :
    (∀ delivery ∈ (r.receive d).1, delivery.payload.LedBy ids) ∧ (r.receive d).2.LedBy ids := by
  rcases receive_cases d r with ⟨r₀, heq, halike, -⟩ | ⟨r', heq, halike, -⟩
  · have h₀ := h.congr halike.assembler_eq halike.channels_eq
    obtain ⟨r', hunpack, -, hassembler, hchannels, -⟩ := unpack_eq d r₀
    obtain ⟨hout, hkept⟩ := h₀.collect hd
    rw [heq, hunpack]
    exact ⟨hout, hkept.congr hassembler hchannels⟩
  · rw [heq]
    exact ⟨nofun, h.congr halike.assembler_eq halike.channels_eq⟩

end Receiver

/-! ## On the wire -/

def Packet.LedBy (ids : UInt8 → Prop) : Packet → Prop
  | .datagram d => ∀ m ∈ d.messages, m.LedBy ids
  | .acknowledgement _ => True

/-- The octets are those of a packet in which payloads begin with one of these. -/
def Octets.Carries (ids : UInt8 → Prop) (packet : Octets) : Prop :=
  ∃ p : Packet, p.LedBy ids ∧ packet = p.encode

theorem Octets.Carries.mono {packet : Octets} (h : packet.Carries ids)
    (himp : ∀ id, ids id → ids' id) : packet.Carries ids' := by
  obtain ⟨p, hp, rfl⟩ := h
  cases p with
  | acknowledgement a => exact ⟨.acknowledgement a, trivial, rfl⟩
  | datagram d => exact ⟨.datagram d, fun m hm => (hp m hm).mono himp, rfl⟩

/-- **A packet is read as what was put on the wire**, as far as it brings messages. -/
theorem Octets.Carries.reader {packet rest : Octets} {d : Datagram} (h : packet.Carries ids)
    (hread : Packet.reader packet = .ok (.datagram d, rest)) : ∀ m ∈ d.messages, m.LedBy ids := by
  obtain ⟨p, hp, rfl⟩ := h
  cases p with
  | acknowledgement a => cases Packet.isDatagram_of_acknowledgement hread
  | datagram d' =>
    rw [Packet.reader_datagram fun m hm => (hp m hm).sendable] at hread
    cases hread
    exact hp

end DatagramTransport

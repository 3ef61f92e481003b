import DatagramTransport.Proofs.Singles

/-!
# Limits — a single payload through an idle link

A sender and a receiver with the same settings have their limits in different places: the one asks
how many fragments a payload is cut into, the other how many fragments a message may have, how far
ahead it may be and whether there is room to put it together. Here the messages of one payload are
fed to a fresh receiver, in order, each in a datagram of its own. **The limit on the fragments of a
received message is the only one that can stand in the way**, and then nothing of the payload comes
through: every fragment is malformed, although each is acknowledged.

`Fed` is the state in between. Nothing is bounded by the counters: a payload may be cut into more
fragments than there are indexes, since both windows stand at the next number all the time.
-/

set_option autoImplicit false

namespace DatagramTransport

theorem Parcel.channel_whole (p : Parcel) :
    p.whole.channel = if p.reliability.hasOrder then p.channel else 0 := by
  have horder : p.whole.order = p.mark? := rfl
  rw [Message.channel, horder, Parcel.mark?]
  by_cases h : p.reliability.hasOrder = true
  · rw [if_pos h, if_pos h]
  · rw [if_neg h, if_neg h]

namespace Receiver

/-! ## The number that comes next -/

namespace Window

theorem check_standing (s : Serial) {capacity : Nat} (hpos : 0 < capacity) :
    (⟨s, 0, capacity⟩ : Window).check s = .fresh := by
  simp only [check, Serial.distanceFrom_self, Nat.zero_testBit]
  rw [if_neg (by decide), if_neg (by omega), if_neg Bool.false_ne_true]

theorem insert_standing (s : Serial) {capacity : Nat} (hpos : 0 < capacity) :
    (⟨s, 0, capacity⟩ : Window).insert s = (.fresh, ⟨s.next, 0, capacity⟩) := by
  have hmark : (⟨s, 0, capacity⟩ : Window).mark 0 = ⟨s, 1, capacity⟩ := by simp [mark]
  have hrun : lowRun 1 = 1 := by decide
  rw [insert_of_fresh (check_standing s hpos), settle_eq, Serial.distanceFrom_self, hmark, hrun]
  simp [skip, Serial.next]

theorem slide_standing (s : Serial) {capacity : Nat} (hpos : 0 < capacity) :
    (⟨s, 0, capacity⟩ : Window).slide s = (true, ⟨s.next, 0, capacity⟩) := by
  have hreach : (⟨s, 0, capacity⟩ : Window).reach s = ⟨s, 0, capacity⟩ := by
    refine if_neg ?_
    rw [Serial.distanceFrom_self]
    exact fun hbeyond => Nat.not_le.2 hpos hbeyond.2
  rw [slide, hreach, insert_standing s hpos]
  rfl

end Window

/-! ## The first parcel of a channel -/

variable {settings : Settings} {p : Parcel} {r : Receiver} {count i : Nat}

/-- What is first in the order of its channel, or has no order, comes out when it is complete. -/
theorem release_first (window : Nat) (hplace : p.reliability.hasOrder = true → p.place = 0)
    (hchannel : p.channel.toNat < count) :
    ∃ channels, release p.whole (Channels.fresh count window)
      = .ok ([⟨p.sentAs, p.whole.channel, p.payload⟩], channels) := by
  have hget := get?_fresh_of_lt window hchannel
  have hreliability : p.whole.reliability = p.sentAs := rfl
  have hpayload : p.whole.payload = p.payload := rfl
  cases hmark : p.whole.order with
  | none =>
    refine ⟨Channels.fresh count window, ?_⟩
    simp only [release, hmark]
    rfl
  | some mark =>
    obtain rfl : mark = ⟨Serial.ofNat 0, p.channel⟩ := by
      have hmark' : p.mark? = some mark := hmark
      unfold Parcel.mark? at hmark'
      split at hmark'
      next horder => rw [← Option.some.inj hmark', hplace horder]
      next => cases hmark'
    have htake (x : Octets) : (Channel.fresh.takeOrdered (Serial.ofNat 0) x).1 = [x] := by
      rw [Channel.takeOrdered_standing rfl, Channel.drain_of_none (by simp [Channel.fresh])]
    unfold release
    simp only [hmark, hreliability, hpayload, Channels.takeOrdered, Channels.takeSequenced, hget,
      htake]
    split
    · exact ⟨_, rfl⟩
    · split
      · have hnext : (Channel.fresh.takeSequenced (Serial.ofNat 0)).1 = true := by decide
        rw [hnext]
        exact ⟨_, rfl⟩
      · exact ⟨_, rfl⟩

/-! ## One message after the other -/

/-- After some messages of the parcel, but not the last of them: both windows stand at the next
number, and nothing came out. -/
structure Fed (settings : Settings) (p : Parcel) (i : Nat) (r : Receiver) : Prop where
  datagrams_eq : r.datagrams = ⟨Serial.ofNat i, 0, settings.receiveWindow⟩
  messages_eq : r.messages = ⟨Serial.ofNat (p.first + i), 0, settings.receiveWindow⟩
  channels_eq : r.channels = Channels.fresh settings.orderChannels settings.orderingWindow
  maxFragmentCount_eq : r.assembler.maxFragmentCount = settings.maxFragmentCount
  maxAssemblies_eq : r.assembler.maxAssemblies = settings.maxAssemblies
  collects : r.assembler.Collects [p] (· < p.first + i)
  malformedMessages_eq :
    r.malformedMessages = if p.pieces.length ≤ settings.maxFragmentCount then 0 else i

theorem fed_fresh (settings : Settings) (hfirst : p.first = 0) :
    (Receiver.fresh settings).Fed settings p 0 where
  datagrams_eq := rfl
  messages_eq := by rw [hfirst]; rfl
  channels_eq := rfl
  maxFragmentCount_eq := rfl
  maxAssemblies_eq := rfl
  collects := Assembler.collects_fresh _ _ fun k hk => by omega
  malformedMessages_eq := by simp [Receiver.fresh]

/-- What comes out with the last message of a parcel, if it is not too long. -/
def completion (settings : Settings) (p : Parcel) : List Delivery :=
  if p.pieces.length ≤ settings.maxFragmentCount then
    [⟨p.sentAs, p.whole.channel, p.payload⟩] else []

/-- The settings have room for something, and the parcel is the first of its channel. -/
structure Lone (settings : Settings) (p : Parcel) : Prop where
  receiveWindow_pos : 0 < settings.receiveWindow
  orderingWindow_pos : 0 < settings.orderingWindow
  maxFragmentCount_pos : 0 < settings.maxFragmentCount
  maxAssemblies_pos : 0 < settings.maxAssemblies
  place_eq : p.reliability.hasOrder = true → p.place = 0
  channel_lt : p.channel.toNat < settings.orderChannels
  length_lt : p.pieces.length < 4294967296

/-- What taking in a message does to a receiver that was fed those before it. -/
structure Feeds (settings : Settings) (p : Parcel) (i : Nat) (r : Receiver) (intake : Intake)
    (r' : Receiver) : Prop where
  deliveries_eq :
    intake.deliveries = if i + 1 = p.pieces.length then completion settings p else []
  isMalformed_iff : intake.isMalformed = true ↔ ¬ p.pieces.length ≤ settings.maxFragmentCount
  messages_eq : i + 1 < p.pieces.length →
    r'.messages = ⟨Serial.ofNat (p.first + (i + 1)), 0, settings.receiveWindow⟩
  channels_eq : i + 1 < p.pieces.length → r'.channels = r.channels
  maxFragmentCount_eq : r'.assembler.maxFragmentCount = r.assembler.maxFragmentCount
  maxAssemblies_eq : r'.assembler.maxAssemblies = r.assembler.maxAssemblies
  collects : r'.assembler.Collects [p] (· < p.first + (i + 1))

theorem Fed.hasRoom (h : r.Fed settings p i) (hp : Lone settings p) (x : Octets) :
    r.hasRoom (p.message i x) = true := by
  refine hasRoom_iff.2 ⟨?_, fun ho => ?_⟩
  · cases hs : p.isSplit with
    | false => exact Assembler.accepts_of_not_fragment (if_neg (by simp [hs]))
    | true =>
      refine h.collects.accepts_of_few List.mem_cons_self hs ?_ i x
      rw [h.maxAssemblies_eq]
      exact hp.maxAssemblies_pos
  · have horder : p.reliability.hasOrder = true := Bool.or_eq_true_iff.2 (Or.inl ho)
    rw [h.channels_eq, hp.place_eq horder]
    refine ((yields_fresh _ _).accepts_iff hp.channel_lt (by decide)).2 fun j hj => ?_
    have := hp.orderingWindow_pos
    omega

/-- A parcel that was not split comes out with its one message. -/
theorem Fed.take_unsplit (h : r.Fed settings p 0) (hp : Lone settings p)
    (hs : p.isSplit = false) : Feeds settings p 0 r (r.take p.whole).1 (r.take p.whole).2 := by
  have hone : p.pieces.length = 1 := by rw [Parcel.pieces_of_not_isSplit hs]; rfl
  have hfits : p.pieces.length ≤ settings.maxFragmentCount := by
    rw [hone]
    exact hp.maxFragmentCount_pos
  obtain ⟨channels, hrelease⟩ :=
    release_first settings.orderingWindow hp.place_eq hp.channel_lt
  rw [← h.channels_eq] at hrelease
  have hfragment : p.whole.fragment = none := rfl
  have htake : ∃ messages, r.take p.whole
      = (.taken (completion settings p),
        { r with messages := messages, channels := channels }) := by
    have hcompletion : completion settings p = [⟨p.sentAs, p.whole.channel, p.payload⟩] :=
      if_pos hfits
    have hadmission : r.admission p.whole = .fresh := by
      cases hindex : p.whole.index with
      | none => simp only [admission, hindex]
      | some s =>
        have hwhole := (Parcel.message_eq_whole hs (i := 0) (by omega)).2
        have hroom := h.hasRoom hp p.pieces[0]
        rw [hwhole] at hroom
        obtain rfl : s = Serial.ofNat (p.first + 0) := by
          have hindex' : (if p.isReliable then some (Serial.ofNat (p.first + 0)) else none)
            = some s := hindex
          split at hindex'
          · exact (Option.some.inj hindex').symm
          · cases hindex'
        refine (admission_eq_fresh_iff hindex).2 ⟨?_, hroom⟩
        rw [h.messages_eq]
        exact Window.check_standing _ hp.receiveWindow_pos
    obtain ⟨messages, hregister⟩ := register_frame p.whole r
    refine ⟨messages, ?_⟩
    simp only [Receiver.take, hadmission, hregister, process, Assembler.take, hfragment, hrelease,
      hcompletion]
  obtain ⟨messages, htake⟩ := htake
  rw [htake]
  refine ⟨(if_pos (by omega)).symm, iff_of_false Bool.false_ne_true (not_not_intro hfits),
    fun hlt => by omega, fun hlt => by omega, rfl, rfl, ?_⟩
  refine h.collects.congr fun q hq hqs => ?_
  rw [List.mem_singleton.1 hq, hs] at hqs
  cases hqs

theorem Fed.check_eq (h : r.Fed settings p i) (hp : Lone settings p) :
    r.messages.check (Serial.ofNat (p.first + i)) = .fresh := by
  rw [h.messages_eq]
  exact Window.check_standing _ hp.receiveWindow_pos

theorem Fed.insert_eq (h : r.Fed settings p i) (hp : Lone settings p) :
    (r.messages.insert (Serial.ofNat (p.first + i))).2
      = ⟨Serial.ofNat (p.first + (i + 1)), 0, settings.receiveWindow⟩ := by
  rw [h.messages_eq, Window.insert_standing _ hp.receiveWindow_pos, Serial.next_ofNat]
  rfl

/-- A fragment of a parcel that is too long is malformed. -/
theorem Fed.take_overlong (h : r.Fed settings p i) (hp : Lone settings p) (hs : p.isSplit = true)
    (hlong : ¬ p.pieces.length ≤ settings.maxFragmentCount) (hi : i < p.pieces.length) :
    Feeds settings p i r (r.take (p.message i p.pieces[i])).1
      (r.take (p.message i p.pieces[i])).2 := by
  have hlong' : ¬ p.pieces.length ≤ r.assembler.maxFragmentCount := by rwa [h.maxFragmentCount_eq]
  obtain ⟨cause, htake⟩ := Assembler.take_of_not_fits hs hp.length_lt hi hlong'
  rw [take_malformed (Parcel.index_message (Parcel.isReliable_of_isSplit hs) i _) (h.check_eq hp)
    (h.hasRoom hp _) htake]
  refine ⟨?_, iff_of_true rfl hlong, fun _ => h.insert_eq hp, fun _ => rfl, rfl, rfl, ?_⟩
  · rw [completion, if_neg hlong, ite_self]
    rfl
  · refine h.collects.congr fun q hq _ hfits => ?_
    rw [List.mem_singleton.1 hq] at hfits
    exact absurd hfits hlong'

/-- A fragment is put to those before it, and the last one brings out the payload. -/
theorem Fed.take_fragment (h : r.Fed settings p i) (hp : Lone settings p) (hs : p.isSplit = true)
    (hfits : p.pieces.length ≤ settings.maxFragmentCount) (hi : i < p.pieces.length) :
    Feeds settings p i r (r.take (p.message i p.pieces[i])).1
      (r.take (p.message i p.pieces[i])).2 := by
  have hindex := Parcel.index_message (Parcel.isReliable_of_isSplit hs) i p.pieces[i]
  have hroom := h.hasRoom hp p.pieces[i]
  obtain ⟨result, assembler, htake, hmax, hmax', hcollects, hresult⟩ :=
    h.collects.take List.mem_cons_self hs (by rwa [h.maxFragmentCount_eq]) hp.length_lt hi
      (Nat.lt_irrefl _) (hasRoom_iff.1 hroom).1 (fun q hq _ _ => List.mem_singleton.1 hq)
      fun q hq _ hne => absurd (List.mem_singleton.1 hq) hne
  have hsame : (fun k => k < p.first + i ∨ k = p.first + i) = (· < p.first + (i + 1)) :=
    funext fun k => propext (by omega)
  rw [hsame] at hcollects
  rcases hresult with ⟨hall, rfl⟩ | ⟨⟨j, hj, hmissing⟩, rfl⟩
  · have hlast : i + 1 = p.pieces.length := by
      have := hall (p.pieces.length - 1) (by omega)
      omega
    obtain ⟨channels, hrelease⟩ :=
      release_first settings.orderingWindow hp.place_eq hp.channel_lt
    rw [← h.channels_eq] at hrelease
    rw [take_complete hindex (h.check_eq hp) hroom htake hrelease]
    refine ⟨?_, iff_of_false Bool.false_ne_true (not_not_intro hfits), fun _ => h.insert_eq hp,
      fun hlt => by omega, hmax, hmax', hcollects⟩
    rw [if_pos hlast, completion, if_pos hfits]
    rfl
  · rw [take_partial hindex (h.check_eq hp) hroom htake]
    refine ⟨?_, iff_of_false Bool.false_ne_true (not_not_intro hfits), fun _ => h.insert_eq hp,
      fun _ => rfl, hmax, hmax', hcollects⟩
    rw [if_neg (by omega)]
    rfl

theorem Fed.take (h : r.Fed settings p i) (hp : Lone settings p) (hi : i < p.pieces.length) :
    Feeds settings p i r (r.take (p.message i p.pieces[i])).1
      (r.take (p.message i p.pieces[i])).2 := by
  cases hs : p.isSplit with
  | false =>
    obtain ⟨rfl, hwhole⟩ := Parcel.message_eq_whole hs hi
    rw [hwhole]
    exact h.take_unsplit hp hs
  | true =>
    by_cases hfits : p.pieces.length ≤ settings.maxFragmentCount
    · exact h.take_fragment hp hs hfits hi
    · exact h.take_overlong hp hs hfits hi

/-- **One message more**: nothing comes out before the last one, and a parcel that is too long is
malformed in each of its messages. -/
theorem Fed.receive (h : r.Fed settings p i) (hp : Lone settings p) (hi : i < p.pieces.length) :
    (r.receive ⟨Serial.ofNat i, [p.message i p.pieces[i]]⟩).1
        = (if i + 1 = p.pieces.length then completion settings p else []) ∧
      (r.receive ⟨Serial.ofNat i, [p.message i p.pieces[i]]⟩).2.malformedMessages
        = (if p.pieces.length ≤ settings.maxFragmentCount then 0 else i + 1) ∧
      (i + 1 < p.pieces.length →
        (r.receive ⟨Serial.ofNat i, [p.message i p.pieces[i]]⟩).2.Fed settings p (i + 1)) := by
  have htake := h.take hp hi
  have hslide := Window.slide_standing (Serial.ofNat i) hp.receiveWindow_pos
  rw [← h.datagrams_eq] at hslide
  obtain ⟨hdeliveries, hdatagrams, hmessages, hassembler, hchannels, hmalformed⟩ :=
    receive_single (m := p.message i p.pieces[i]) (congrArg Prod.fst hslide)
  have hcount : [(r.take (p.message i p.pieces[i])).1].countP Intake.isMalformed
      = if p.pieces.length ≤ settings.maxFragmentCount then 0 else 1 := by
    rw [List.countP_singleton]
    by_cases hfits : p.pieces.length ≤ settings.maxFragmentCount
    · rw [if_neg fun hbad => htake.isMalformed_iff.1 hbad hfits, if_pos hfits]
    · rw [if_pos (htake.isMalformed_iff.2 hfits), if_neg hfits]
  have hmalformed' : (r.receive ⟨Serial.ofNat i, [p.message i p.pieces[i]]⟩).2.malformedMessages
      = if p.pieces.length ≤ settings.maxFragmentCount then 0 else i + 1 := by
    rw [hmalformed, h.malformedMessages_eq, hcount]
    split <;> rfl
  refine ⟨hdeliveries.trans htake.deliveries_eq, hmalformed', fun hlt => ?_⟩
  refine ⟨?_, ?_, ?_, ?_, ?_, ?_, hmalformed'⟩
  · rw [hdatagrams, hslide, Serial.next_ofNat]
  · rw [hmessages, htake.messages_eq hlt]
  · rw [hchannels, htake.channels_eq hlt, h.channels_eq]
  · rw [hassembler, htake.maxFragmentCount_eq, h.maxFragmentCount_eq]
  · rw [hassembler, htake.maxAssemblies_eq, h.maxAssemblies_eq]
  · rw [hassembler]
    exact htake.collects

/-- Messages in datagrams of their own, which are numbered from `i` on. -/
def feed (i : Nat) (ms : List Message) : List Datagram :=
  ms.mapIdx fun j m => ⟨Serial.ofNat (i + j), [m]⟩

theorem feed_cons (i : Nat) (m : Message) (ms : List Message) :
    feed i (m :: ms) = ⟨Serial.ofNat i, [m]⟩ :: feed (i + 1) ms := by
  simp only [feed, List.mapIdx_cons, Nat.add_zero, Nat.add_assoc, Nat.add_comm 1]

/-- **All messages that are left.** -/
theorem Fed.collect {ms : List Message} (h : r.Fed settings p i) (hp : Lone settings p)
    (hi : i < p.pieces.length) (hms : p.messages.drop i = ms) :
    (Stepwise.collect Receiver.receive (feed i ms) r).1
        = List.replicate (p.pieces.length - (i + 1)) [] ++ [completion settings p] ∧
      (Stepwise.collect Receiver.receive (feed i ms) r).2.malformedMessages
        = if p.pieces.length ≤ settings.maxFragmentCount then 0 else p.pieces.length := by
  induction ms generalizing r i with
  | nil =>
    have := congrArg List.length hms
    rw [List.length_drop, p.length_messages, List.length_nil] at this
    omega
  | cons m ms ih =>
    have hi' : i < p.messages.length := by rwa [p.length_messages]
    rw [List.drop_eq_getElem_cons hi'] at hms
    obtain ⟨rfl, hrest⟩ := List.cons.inj hms
    have hmessage : p.messages[i] = p.message i p.pieces[i] := by simp [Parcel.messages]
    obtain ⟨hdeliveries, hmalformed, hnext⟩ := h.receive hp hi
    rw [feed_cons, Stepwise.collect_cons, hmessage, hdeliveries]
    by_cases hlast : i + 1 = p.pieces.length
    · have hnil : ms = [] := by
        rw [← hrest, List.drop_of_length_le (by rw [p.length_messages]; omega)]
      subst hnil
      rw [if_pos hlast, hlast, Nat.sub_self]
      refine ⟨rfl, hmalformed.trans ?_⟩
      rw [hlast]
    · obtain ⟨hout, hcount⟩ := ih (hnext (by omega)) (by omega) hrest
      rw [if_neg hlast]
      refine ⟨?_, hcount⟩
      have hleft : p.pieces.length - (i + 1) = p.pieces.length - (i + 1 + 1) + 1 := by omega
      rw [hout, hleft, List.replicate_succ, List.cons_append]

/-- **What an idle receiver makes of a parcel**: the payload comes out with the last message, or
every message is malformed. -/
theorem collect_feed (hp : Lone settings p) (hfirst : p.first = 0) :
    (Stepwise.collect Receiver.receive (feed 0 p.messages) (Receiver.fresh settings)).1
        = List.replicate (p.pieces.length - 1) [] ++ [completion settings p] ∧
      (Stepwise.collect Receiver.receive (feed 0 p.messages)
        (Receiver.fresh settings)).2.malformedMessages
        = if p.pieces.length ≤ settings.maxFragmentCount then 0 else p.pieces.length :=
  (fed_fresh settings hfirst).collect hp p.length_pos rfl

end Receiver

namespace Sender.Queue

variable {settings : Settings} {mtu : UInt16} {r : Reliability} {channel : UInt8}
  {payload : Octets} {receipt : Option UInt32} {n : Nat} {q : Queue}

/-- The first payload that a queue accepts is the first parcel. -/
theorem exists_parcel_of_enqueue (hmtu : 400 ≤ mtu.toNat)
    (haccepted : (fresh mtu settings.orderChannels settings.maxFragmentsPerSend).enqueue r channel
      payload receipt = .ok (n, q)) :
    ∃ p : Parcel, p.NumberedFrom Tally.zero ∧ p.reliability = r ∧ p.channel = channel ∧
      p.payload = payload ∧ p.pieces.length = n ∧ p.channel.toNat < settings.orderChannels ∧
      (p.isSplit = true → p.pieces.length ≤ settings.maxFragmentsPerSend) ∧
      q.entries.toList.map Outgoing.message = p.messages := by
  have hledger : Exchange.Ledger settings [] Tally.zero (Exchange.fresh settings mtu mtu) :=
    Exchange.ledger_fresh hmtu
  have hready : Exchange.Ready settings Tally.zero
    (fresh mtu settings.orderChannels settings.maxFragmentsPerSend) := hledger.ready
  unfold enqueue at haccepted
  split at haccepted
  next => cases haccepted
  next hrefusal =>
    cases haccepted
    obtain ⟨p, hnumbered, rfl, rfl, rfl, hmessages, hchannel, hmost, -⟩ :=
      hready.counts.accept hready.capacity hrefusal receipt
    refine ⟨p, hnumbered, rfl, rfl, rfl, ?_, ?_, ?_, ?_⟩
    · rw [← p.length_messages, hmessages]
    · rwa [← hready.length_channels]
    · rwa [← hready.maxFragments_eq]
    · rw [hmessages]
      simp [append, fresh, Fifo.toList_append, Fifo.empty, Function.comp_def]
      rfl

end Sender.Queue

namespace Link

variable {settings : Settings} {mtu : UInt16} {r : Reliability} {channel : UInt8}
  {payload : Octets} {receipt : Option UInt32} {n : Nat} {q : Sender.Queue}

theorem collect_receiveDatagram (ds : List Datagram) (l : Link) :
    Stepwise.collect receiveDatagram ds l
      = ((Stepwise.collect Receiver.receive ds l.receiver).1,
          { l with receiver := (Stepwise.collect Receiver.receive ds l.receiver).2 }) := by
  induction ds generalizing l with
  | nil => rfl
  | cons d ds ih =>
    rw [Stepwise.collect_cons, ih, Stepwise.collect_cons]
    rfl

/-- **Where the limits of the two ends disagree.** Whatever payload a fresh queue accepts, a fresh
link with the same settings returns it once, with the last of its messages, and finds none of them
malformed, if they are no more than a received message may have fragments. If there are more, all
of them are malformed and nothing is returned. There are never more if the sender is not allowed
more fragments than the receiver. -/
theorem returned_unless_overlong (hvalid : settings.Valid) (hmtu : settings.minMtu ≤ mtu)
    (hsend : settings.maxFragmentsPerSend < 4294967296)
    (haccepted : (Sender.Queue.fresh mtu settings.orderChannels
      settings.maxFragmentsPerSend).enqueue r channel payload receipt = .ok (n, q)) :
    let datagrams := Receiver.feed 0 (q.entries.toList.map Outgoing.message)
    let run := Stepwise.collect receiveDatagram datagrams (fresh settings mtu)
    (n ≤ settings.maxFragmentCount →
      run.1 = List.replicate (n - 1) [] ++
        [[⟨if 1 < n then r.ofFragments else r, if r.hasOrder then channel else 0, payload⟩]] ∧
      run.2.receiver.malformedMessages = 0) ∧
    (settings.maxFragmentCount < n →
      run.1 = List.replicate n [] ∧ run.2.receiver.malformedMessages = n) ∧
    (settings.maxFragmentsPerSend ≤ settings.maxFragmentCount → n ≤ settings.maxFragmentCount) := by
  obtain ⟨hmin, hfragments, hassemblies, hreceive, hordering, -, -⟩ := hvalid.bounds
  rw [UInt16.le_iff_toNat_le] at hmtu
  obtain ⟨p, hnumbered, rfl, rfl, rfl, rfl, hchannel, hmost, hmessages⟩ :=
    Sender.Queue.exists_parcel_of_enqueue (by omega) haccepted
  -- there is a place for whatever is not cut
  have hmost' : p.pieces.length ≤ settings.maxFragmentsPerSend ∨ p.pieces.length = 1 := by
    cases hs : p.isSplit with
    | false => exact Or.inr (by rw [Parcel.pieces_of_not_isSplit hs]; rfl)
    | true => exact Or.inl (hmost hs)
  have hplace : p.reliability.hasOrder = true → p.place = 0 := fun horder =>
    (Bool.or_eq_true_iff.1 horder).elim hnumbered.ordered_eq hnumbered.sequenced_eq
  have hp : Receiver.Lone settings p :=
    ⟨hreceive, hordering, hfragments, hassemblies, hplace, hchannel, by omega⟩
  obtain ⟨hout, hmalformed⟩ := Receiver.collect_feed hp hnumbered.first_eq
  intro datagrams run
  have hrun : run.1
      = List.replicate (p.pieces.length - 1) [] ++ [Receiver.completion settings p] := by
    show (Stepwise.collect receiveDatagram datagrams (fresh settings mtu)).1 = _
    rw [collect_receiveDatagram]
    show (Stepwise.collect Receiver.receive (Receiver.feed 0 _) _).1 = _
    rw [hmessages]
    exact hout
  have hcount : run.2.receiver.malformedMessages
      = if p.pieces.length ≤ settings.maxFragmentCount then 0 else p.pieces.length := by
    show (Stepwise.collect receiveDatagram datagrams
      (fresh settings mtu)).2.receiver.malformedMessages = _
    rw [collect_receiveDatagram]
    show (Stepwise.collect Receiver.receive (Receiver.feed 0 _) _).2.malformedMessages = _
    rw [hmessages]
    exact hmalformed
  refine ⟨fun hfits => ?_, fun hlong => ?_, fun hle => by omega⟩
  · have hsent : p.sentAs = if 1 < p.pieces.length then p.reliability.ofFragments
        else p.reliability := by
      simp only [Parcel.sentAs, Parcel.isSplit, decide_eq_true_eq]
    rw [hrun, hcount, Receiver.completion, if_pos hfits, if_pos hfits, hsent, p.channel_whole]
    exact ⟨rfl, rfl⟩
  · have hone : p.pieces.length = p.pieces.length - 1 + 1 := by
      have := p.length_pos
      omega
    rw [hrun, hcount, Receiver.completion, if_neg (by omega), if_neg (by omega),
      ← List.replicate_succ', ← hone]
    exact ⟨rfl, rfl⟩

/-- A payload that is cut in two comes out with the second half. -/
theorem returned_unless_overlong_halves :
    let queue := Sender.Queue.fresh 400 32 128
    let payload : Octets := List.replicate 400 7
    let q := queue.append (queue.messagesFor .reliableOrdered 3 payload) .reliableOrdered 3 none
    let run := Stepwise.collect receiveDatagram
      (Receiver.feed 0 (q.entries.toList.map Outgoing.message)) (fresh {} 400)
    queue.enqueue .reliableOrdered 3 payload none = .ok (2, q) ∧
      run.1 = [[], [⟨.reliableOrdered, 3, payload⟩]] ∧ run.2.receiver.malformedMessages = 0 := by
  intro queue payload q run
  have hvalid : ({} : Settings).Valid := by decide
  have haccepted : queue.enqueue .reliableOrdered 3 payload none = .ok (2, q) := by decide +kernel
  -- the octets have no part in what follows
  clear_value q payload
  obtain ⟨hreturned, -⟩ := returned_unless_overlong hvalid (by decide) (by decide) haccepted
  obtain ⟨hout, hmalformed⟩ := hreturned (by decide)
  exact ⟨haccepted, hout, hmalformed⟩

/-- With valid settings that let a sender cut a payload into more fragments than a receiver puts
together, such a payload is accepted by the one and malformed to the other. -/
theorem overlong_not_returned :
    let settings : Settings := { maxFragmentCount := 1 }
    let queue := Sender.Queue.fresh 400 settings.orderChannels settings.maxFragmentsPerSend
    let payload : Octets := List.replicate 400 7
    let q := queue.append (queue.messagesFor .reliable 0 payload) .reliable 0 none
    let run := Stepwise.collect receiveDatagram
      (Receiver.feed 0 (q.entries.toList.map Outgoing.message)) (fresh settings 400)
    settings.Valid ∧ queue.enqueue .reliable 0 payload none = .ok (2, q) ∧
      run.1 = [[], []] ∧ run.2.receiver.malformedMessages = 2 := by
  decide +kernel

end Link

end DatagramTransport

import DatagramTransport.Proofs.Rows
import DatagramTransport.Proofs.Singles

/-!
# Guarantees — whether a payload comes out with its own

Over a whole exchange, what comes out of a channel are the payloads that were accepted for it, in
their order and on their channel, and each comes out with **the guarantee of the first of its row**.
That is its own unless it has waited.

Whether anything ever has to wait is a question of the settings alone. With one place in one of the
two windows nothing does, and every payload comes out with its own guarantee. With two places in
both, two payloads are enough to see the difference: the second is sent with another guarantee
than the first, and its datagram overtakes that of the first.
-/

set_option autoImplicit false

namespace DatagramTransport

namespace Exchange

variable {settings : Settings} {mtu mtu' : UInt16} {w : Exchange} {e : Event}
  {ps done : List Parcel} {t : Tally} {d : Datagram} {c : UInt8}

/-- What was accepted for the order of a channel. -/
def orderedOn (w : Exchange) (c : UInt8) : List Submission :=
  w.accepted.filter (Submission.isOrderedOn c)

/-- What came out in the order of a channel. -/
def orderedDelivered (w : Exchange) (c : UInt8) : List Delivery :=
  w.delivered.filter (Delivery.isOrderedOn c)

theorem orderedOn_eq (h : w.accepted = ps.map Parcel.submission) (c : UInt8) :
    w.orderedOn c = (ps.filter (Parcel.isOrderedOn c)).map Parcel.submission := by
  rw [orderedOn, h, List.filter_map]
  rfl

theorem orderedOn_grows (w : Exchange) (e : Event) (c : UInt8) :
    w.orderedOn c <+: (w.step e).orderedOn c := by
  obtain ⟨more, hmore⟩ := accepted_step w e
  rw [orderedOn, orderedOn, hmore, List.filter_append]
  exact List.prefix_append _ _

theorem orderedDelivered_arrive (w : Exchange) (d : Datagram) (c : UInt8) :
    (w.step (.arrive d)).orderedDelivered c
      = w.orderedDelivered c ++ (w.target.receiver.receive d).1.filter
        (Delivery.isOrderedOn c) := by
  rw [step_arrive]
  exact List.filter_append _ _

theorem accepted_arrive (w : Exchange) (d : Datagram) :
    (w.step (.arrive d)).accepted = w.accepted := by
  rw [step_arrive]

theorem datagrams_arrive (w : Exchange) (d : Datagram) :
    (w.step (.arrive d)).datagrams = w.datagrams := by
  rw [step_arrive]

theorem receiver_arrive (w : Exchange) (d : Datagram) :
    (w.step (.arrive d)).target.receiver = (w.target.receiver.receive d).2 := by
  rw [step_arrive]

/-! ## What one datagram brings out -/

/-- What one datagram brings out of a channel. -/
structure InRows (settings : Settings) (w : Exchange) (d : Datagram) (c : UInt8)
    (rows : List (List Submission)) : Prop where
  out : (w.target.receiveDatagram d).1.filter (Delivery.isOrderedOn c)
    = rows.flatMap Submission.together
  next : rows.flatten <+: (w.orderedOn c).drop (w.orderedDelivered c).length
  led : ∀ row ∈ rows, ∃ s ∈ row.head?, ∃ m ∈ s.messages, m ∈ d.messages
  single : settings.receiveWindow = 1 ∨ settings.orderingWindow = 1 →
    ∀ row ∈ rows, row.length ≤ 1

theorem Account.inRows (h : Account settings ps t done w) (hpos : 0 < settings.maxFragmentCount)
    (few : Few settings w) (hd : d ∈ w.datagrams) (c : UInt8) :
    ∃ rows, InRows settings w d c rows := by
  obtain ⟨rows, hrows, hout⟩ :=
    Receiver.rows_of_receive h.manifest (h.spaced few) hpos h.reception (h.sent d hd) c
  refine ⟨rows.map (List.map Parcel.submission), ?_, ?_, fun row hrow => ?_,
    fun hnarrow row hrow => ?_⟩
  · rw [List.flatMap_map]
    exact hout
  · rw [orderedOn_eq h.accepted_eq, ← List.map_flatten, ← List.map_drop]
    have hnext := hrows.next
    rw [Receiver.orderedOutput, List.length_map] at hnext
    exact hnext.map _
  · obtain ⟨row, hin, rfl⟩ := List.mem_map.1 hrow
    obtain ⟨p, hp, m, hm, hmem⟩ := hrows.led row hin
    refine ⟨p.submission, ?_, m, hm, hmem⟩
    rw [List.head?_map, Option.mem_def, Option.map_eq_some_iff]
    exact ⟨p, hp, rfl⟩
  · obtain ⟨row, hin, rfl⟩ := List.mem_map.1 hrow
    rw [List.length_map]
    exact hrows.single hnarrow row hin

/-! ## Windows in which nothing waits -/

/-- Everything came out with the guarantee that it was accepted with. -/
def KeepsGuarantees (w : Exchange) : Prop :=
  ∀ c, w.orderedDelivered c <+: (w.orderedOn c).map Submission.own

theorem KeepsGuarantees.step (h : w.KeepsGuarantees) (hpos : 0 < settings.maxFragmentCount)
    (haccount : Account settings ps t done w) (few : Few settings w) (here : w.Carried e)
    (hnarrow : settings.receiveWindow = 1 ∨ settings.orderingWindow = 1) :
    (w.step e).KeepsGuarantees := by
  intro c
  have hgrown : w.orderedDelivered c <+: ((w.step e).orderedOn c).map Submission.own :=
    (h c).trans ((orderedOn_grows w e c).map _)
  cases e with
  | arrive d =>
    obtain ⟨rows, hrows⟩ := haccount.inRows hpos few here c
    have hown : rows.flatMap Submission.together = rows.flatten.map Submission.own := by
      rw [List.map_flatten, ← List.flatMap_def]
      exact List.flatMap_congr fun row hrow =>
        Submission.together_eq_map_own (hrows.single hnarrow row hrow)
    have hout : (w.step (.arrive d)).orderedDelivered c
        = w.orderedDelivered c ++ rows.flatten.map Submission.own := by
      rw [orderedDelivered_arrive, ← hown, ← hrows.out]
      rfl
    have hnext := hrows.next.map Submission.own
    rw [List.map_drop] at hnext
    obtain ⟨rest, hrest⟩ := h c
    rw [← hrest, List.drop_left] at hnext
    rw [hout, orderedOn, accepted_arrive, ← orderedOn, ← hrest]
    exact (List.prefix_append_right_inj _).2 hnext
  | submit r channel payload =>
    revert hgrown
    unfold orderedDelivered
    simp only [Exchange.step]
    split <;> exact id
  | _ => exact hgrown

theorem Run.keepsGuarantees (hvalid : settings.Valid) (hmtu : settings.minMtu ≤ mtu)
    (run : Run settings mtu mtu' Carried w) (few : Few settings w)
    (hnarrow : settings.receiveWindow = 1 ∨ settings.orderingWindow = 1) :
    w.KeepsGuarantees := by
  obtain ⟨-, hpos, -⟩ := hvalid.bounds
  induction run with
  | start => exact fun c => List.nil_prefix
  | next before here ih =>
    obtain ⟨ps, t, done, haccount⟩ := before.account hvalid hmtu few.of_step
    exact (ih few.of_step).step hpos haccount few.of_step here hnarrow

end Exchange

/-! ## Two payloads of one octet -/

/-- A payload of one octet, sent on the first channel when the counters stand at a tally. -/
def Tally.octet (t : Tally) (r : Reliability) (x : UInt8) : Parcel :=
  t.parcel r 0 [[x]] (List.cons_ne_nil _ _)

namespace Parcel

/-- The first of the two, which is overtaken. -/
def former : Parcel := Tally.zero.octet .reliableOrdered 1

/-- The second of the two, which waits. -/
def latter : Parcel := (Tally.zero.after former).octet .reliableOrderedWithReceipt 2

end Parcel

namespace Sender

variable {settings : Settings} {t : Tally} {s : Sender} {r : Reliability} {channel x : UInt8}
  {payload : Octets} {n : Nat}

/-- What is not refused is accepted. -/
theorem exists_send (h : s.queue.refusal? r channel payload = none) :
    ∃ receipt s', s.send r channel payload = .ok (receipt, s') := by
  simp only [Sender.send, Queue.enqueue, h]
  split <;> exact ⟨_, _, rfl⟩

/-- The only message in the queue leaves in a datagram of its own. -/
theorem flush_single {o : Outgoing} (h : s.queue.entries.toList = [o]) (now : Nanoseconds) :
    (s.flush now 1).1 = [⟨s.nextSequence, [o.message]⟩] ∧
      (s.flush now 1).2.nextSequence = s.nextSequence.next ∧
      (s.flush now 1).2.queue = { s.queue with entries := .ofList [] } := by
  have hpack : s.queue.pack 1 = ([[o]], { s.queue with entries := .ofList [] }) := by
    rw [Queue.pack, h, Packing.batches_cons]
    rfl
  simp only [flush, hpack]
  exact ⟨rfl, rfl, rfl⟩

/-- Nothing is queued, and the counters stand at a tally. -/
structure Emptied (settings : Settings) (t : Tally) (n : Nat) (s : Sender) : Prop where
  ready : Exchange.Ready settings t s.queue
  sequence_eq : s.nextSequence = Serial.ofNat n
  empty : s.queue.entries.toList = []

theorem Emptied.messagesFor (h : s.Emptied settings t n) (hchannels : 0 < settings.orderChannels) :
    s.queue.messagesFor r 0 [x] = [(t.octet r x).whole] := by
  have hcapacity := h.ready.capacity
  have hchannel : (0 : UInt8).toNat < s.queue.channels.length := by
    rwa [h.ready.length_channels]
  have hwhole : s.queue.fitsWhole r [x] = true := by
    have hle := Queue.headerLength_le r
    have hle' := Queue.headerLength_fragment_le r
    rw [Queue.fitsWhole, List.length_singleton, decide_eq_true_eq]
    omega
  have hparcel : s.queue.parcel t hcapacity r 0 [x] = t.octet r x := by
    simp only [Queue.parcel, Queue.pieces, hwhole, if_true]
    rfl
  rw [h.ready.counts.messagesFor hcapacity hchannel, hparcel]
  rfl

theorem Emptied.post (h : s.Emptied settings t n) (hchannels : 0 < settings.orderChannels)
    (hfragments : 0 < settings.maxFragmentsPerSend) (r : Reliability) (x : UInt8) :
    ∃ receipt s', s.send r 0 [x] = .ok (receipt, s') ∧
      (s'.flush 0 1).1 = [⟨Serial.ofNat n, [(t.octet r x).whole]⟩] ∧
      (s'.flush 0 1).2.Emptied settings (t.after (t.octet r x)) (n + 1) := by
  have hrefusal : s.queue.refusal? r 0 [x] = none := by
    refine Queue.refusal?_eq_none_iff.2 ⟨?_, Nat.mul_pos ?_ ?_⟩
    · rwa [h.ready.length_channels]
    · exact Nat.pos_of_ne_zero (Queue.fragmentLength_ne_zero h.ready.capacity r)
    · rwa [h.ready.maxFragments_eq]
  obtain ⟨receipt, s', hsend⟩ := exists_send hrefusal
  obtain ⟨-, hqueue, hsequence, -⟩ := send_eq_ok hsend
  rw [h.messagesFor hchannels] at hqueue
  have hentries : s'.queue.entries.toList = [⟨(t.octet r x).whole, receipt, false⟩] := by
    rw [hqueue, Queue.append, Fifo.toList_append, h.empty]
    rfl
  obtain ⟨hout, hnext, hleft⟩ := flush_single hentries 0
  rw [hsequence, h.sequence_eq] at hout hnext
  have hready : Exchange.Ready settings (t.after (t.octet r x)) s'.queue := by
    rw [hqueue]
    refine ⟨h.ready.counts.append (t.octet r x) receipt, h.ready.capacity, ?_,
      h.ready.maxFragments_eq⟩
    rw [← h.ready.length_channels]
    exact List.length_modify _ _ _
  refine ⟨receipt, s', hsend, hout, hready.entries ⟨_, hleft⟩, ?_, ?_⟩
  · rw [hnext, Serial.next_ofNat]
  · rw [hleft]
    rfl

end Sender

namespace Receiver

variable {settings : Settings} {has : Nat → Prop} {r : Receiver} {p : Parcel} {channel : Channel}
  {k place : Nat}

/-- What comes early on a fresh channel waits for what comes first. -/
theorem Channel.overtaken (x y : Octets) :
    (Channel.fresh.takeOrdered (Serial.ofNat 1) x).1 = [] ∧
      (Channel.fresh.takeOrdered (Serial.ofNat 1) x).2.nextOrdered = Serial.ofNat 0 ∧
      ((Channel.fresh.takeOrdered (Serial.ofNat 1) x).2.takeOrdered (Serial.ofNat 0) y).1
        = [y, x] := by
  have hstanding : Channel.fresh.nextOrdered = Serial.ofNat 0 := rfl
  rw [Channel.takeOrdered_ahead hstanding (by decide) (by decide)]
  refine ⟨rfl, rfl, ?_⟩
  have hget : (Channel.fresh.held.insertIfNew (Serial.ofNat 1) x)[Serial.ofNat 1]? = some x := by
    rw [Std.TreeMap.getElem?_insertIfNew,
      if_pos ⟨Std.ReflCmp.compare_self, Std.TreeMap.not_mem_emptyc⟩]
  have hnone : ((Channel.fresh.held.insertIfNew (Serial.ofNat 1) x).erase
      (Serial.ofNat 1))[(Serial.ofNat 1).next]? = none := by
    simp [Channel.fresh]
  rw [Channel.takeOrdered_standing rfl, Channel.drain_of_some hget, Channel.drain_of_none hnone]

/-- An ordered message that is let in is handed to its channel. -/
theorem Knows.receive_ordered (h : r.Knows settings has) (hpos : 0 < settings.receiveWindow)
    (hs : p.isSplit = false) (ho : p.isOrdered = true) (hfirst : p.first = k)
    (hplace : p.place = place) (hk : k < 8388608) (hnew : ¬ has k)
    (hnear : ∀ j, j + settings.receiveWindow ≤ k → has j)
    (hget : r.channels.get? p.channel = some channel)
    (haccepts : r.channels.accepts ⟨Serial.ofNat place, p.channel⟩ = true) :
    (r.receive ⟨Serial.ofNat k, [p.whole]⟩).1
        = (channel.takeOrdered (Serial.ofNat place) p.payload).1.map (fun payload =>
          ⟨p.reliability, p.channel, payload⟩) ∧
      (r.receive ⟨Serial.ofNat k, [p.whole]⟩).2.Knows settings (fun j => has j ∨ j = k) ∧
      (r.receive ⟨Serial.ofNat k, [p.whole]⟩).2.channels
        = r.channels.set p.channel (channel.takeOrdered (Serial.ofNat place) p.payload).2 := by
  subst hfirst hplace
  have hr := Parcel.isReliable_of_isOrdered ho
  obtain ⟨-, hwhole⟩ := Parcel.message_eq_whole hs p.length_pos
  have hindex : p.whole.index = some (Serial.ofNat p.first) := Parcel.index_message hr 0 p.payload
  have hroom : r.hasRoom p.whole = true := by
    rw [← hwhole]
    exact hasRoom_iff.2 ⟨Assembler.accepts_of_not_fragment (if_neg (by simp [hs])),
      fun _ => haccepts⟩
  have hadmission := h.admission hk hnew hnear hindex hroom
  have htake := take_complete hindex ((admission_eq_fresh_iff hindex).1 hadmission).1 hroom rfl
    (release_of_isOrdered ho hget)
  obtain ⟨hknows, -, hchannels⟩ := h.receive hpos hk hnew hnear hindex hroom
  obtain ⟨hout, -⟩ := receive_single (m := p.whole) (h.slides hpos hk hnew)
  rw [htake] at hout hchannels
  exact ⟨hout, hknows, hchannels⟩

theorem accepts_of_standing {cs : Channels} {c : UInt8}
    (hget : cs.get? c = some channel) (hstanding : channel.nextOrdered = Serial.ofNat 0)
    (hplace : place < 16777216) (hroom : place < cs.window) :
    cs.accepts ⟨Serial.ofNat place, c⟩ = true := by
  simp only [Channels.accepts, hget, hstanding,
    Serial.distanceFrom_ofNat_of_le (Nat.zero_le place) (by omega), Nat.sub_zero, hroom,
    decide_true, Bool.or_true]

/-- The latter of the two brings out nothing, and then the former brings out both. -/
theorem receive_latter_former (hchannels : 0 < settings.orderChannels)
    (hreceive : 2 ≤ settings.receiveWindow) (hordering : 2 ≤ settings.orderingWindow) :
    ((fresh settings).receive ⟨Serial.ofNat 1, [Parcel.latter.whole]⟩).1 = [] ∧
      (((fresh settings).receive ⟨Serial.ofNat 1, [Parcel.latter.whole]⟩).2.receive
        ⟨Serial.ofNat 0, [Parcel.former.whole]⟩).1
          = [⟨.reliableOrdered, 0, [1]⟩, ⟨.reliableOrdered, 0, [2]⟩] := by
  obtain ⟨hheld, hstanding, hdrained⟩ := Channel.overtaken [2] [1]
  have hget : (fresh settings).channels.get? 0 = some Channel.fresh :=
    get?_fresh_of_lt settings.orderingWindow hchannels
  have hnear : ∀ j, ¬ j + settings.receiveWindow ≤ 1 := by
    intro j
    omega
  have hfirst : Parcel.latter.first = 1 := rfl
  have hplace : Parcel.latter.place = 1 := rfl
  obtain ⟨hlatter, hknows, hset⟩ := (knows_fresh settings).receive_ordered (p := Parcel.latter)
    (by omega) rfl rfl hfirst hplace (by decide) not_false hnear hget
    (accepts_of_standing hget rfl (by decide) hordering)
  refine ⟨hlatter.trans (congrArg (List.map _) hheld), ?_⟩
  generalize ((fresh settings).receive ⟨Serial.ofNat 1, [Parcel.latter.whole]⟩).2 = r
    at hknows hset ⊢
  have hget' : r.channels.get? Parcel.former.channel
      = some (Channel.fresh.takeOrdered (Serial.ofNat 1) [2]).2 := by
    rw [hset]
    exact (get?_set (c := 0) (lt_length_of_get? hget) 0).trans (if_pos rfl)
  have hroom : 0 < r.channels.window := by
    rw [hset]
    exact Nat.lt_of_lt_of_le Nat.zero_lt_two hordering
  have hfirst' : Parcel.former.first = 0 := rfl
  have hplace' : Parcel.former.place = 0 := rfl
  obtain ⟨hformer, -⟩ := hknows.receive_ordered (by omega) rfl rfl hfirst' hplace' (by decide)
    (by simp) (fun j hj => absurd (Nat.le_succ_of_le hj) (hnear j)) hget'
    (accepts_of_standing hget' hstanding (by decide) hroom)
  exact hformer.trans (congrArg (List.map _) hdrained)

end Receiver

namespace Exchange

variable {settings : Settings} {mtu mtu' : UInt16} {w : Exchange} {t : Tally} {n : Nat}

/-- A payload of one octet is accepted and sent, in a datagram of its own. -/
theorem step_octet (h : w.source.sender.Emptied settings t n)
    (hchannels : 0 < settings.orderChannels) (hfragments : 0 < settings.maxFragmentsPerSend)
    (r : Reliability) (x : UInt8) :
    ∃ w', w' = (w.step (.submit r 0 [x])).step (.transmit 0 1) ∧
      w'.source.sender.Emptied settings (t.after (t.octet r x)) (n + 1) ∧
      w'.accepted = w.accepted ++ [(t.octet r x).submission] ∧
      w'.datagrams = w.datagrams ++ [⟨Serial.ofNat n, [(t.octet r x).whole]⟩] ∧
      w'.target = w.target ∧ w'.delivered = w.delivered := by
  obtain ⟨receipt, s, hsend, hout, hemptied⟩ := h.post hchannels hfragments r x
  have hstep : (w.step (.submit r 0 [x])).step (.transmit 0 1)
      = { w with
          source := { w.source with sender := (s.flush 0 1).2 }
          accepted := w.accepted ++ [(t.octet r x).submission]
          datagrams := w.datagrams ++ [⟨Serial.ofNat n, [(t.octet r x).whole]⟩] } := by
    simp only [step, Link.send, hsend, Link.flushDatagrams, h.messagesFor hchannels, hout]
    rfl
  rw [hstep]
  exact ⟨_, rfl, hemptied, rfl, rfl, rfl, rfl⟩

/-- Both can be sent, each in a datagram of its own. -/
theorem exists_both_sent (hvalid : settings.Valid) (hmtu : settings.minMtu ≤ mtu)
    (mtu' : UInt16) :
    ∃ w, Run settings mtu mtu' Carried w ∧
      w.accepted = [Parcel.former.submission, Parcel.latter.submission] ∧
      w.datagrams
        = [⟨Serial.ofNat 0, [Parcel.former.whole]⟩, ⟨Serial.ofNat 1, [Parcel.latter.whole]⟩] ∧
      w.target = Link.fresh settings mtu' ∧ w.delivered = [] := by
  obtain ⟨hmin, -, -, -, -, -, hchannels⟩ := hvalid.bounds
  have hfragments : 0 < settings.maxFragmentsPerSend := by
    obtain ⟨-, -, -, -, hfragments, -⟩ := Settings.valid_iff.1 hvalid
    omega
  rw [UInt16.le_iff_toNat_le] at hmtu
  have hledger : Ledger settings [] Tally.zero (fresh settings mtu mtu') :=
    ledger_fresh (by omega)
  have hstart : (fresh settings mtu mtu').source.sender.Emptied settings Tally.zero 0 :=
    ⟨hledger.ready, rfl, rfl⟩
  obtain ⟨w₁, hw₁, hsender₁, haccepted₁, hdatagrams₁, htarget₁, hdelivered₁⟩ :=
    step_octet hstart hchannels hfragments .reliableOrdered 1
  obtain ⟨w₂, hw₂, -, haccepted₂, hdatagrams₂, htarget₂, hdelivered₂⟩ :=
    step_octet hsender₁ hchannels hfragments .reliableOrderedWithReceipt 2
  have hrun₁ : Run settings mtu mtu' Carried w₁ := by
    rw [hw₁]
    exact (Run.start.next (e := .submit _ _ _) trivial).next (e := .transmit _ _) trivial
  have hrun₂ : Run settings mtu mtu' Carried w₂ := by
    rw [hw₂]
    exact (hrun₁.next (e := .submit _ _ _) trivial).next (e := .transmit _ _) trivial
  refine ⟨w₂, hrun₂, ?_, ?_, htarget₂.trans htarget₁, hdelivered₂.trans hdelivered₁⟩
  · rw [haccepted₂, haccepted₁]
    rfl
  · rw [hdatagrams₂, hdatagrams₁]
    rfl

/-- **With room for two, the second of two payloads comes out with the guarantee of the first** if
its datagram comes first. -/
theorem exists_overtaken (hvalid : settings.Valid) (hmtu : settings.minMtu ≤ mtu) (mtu' : UInt16)
    (hreceive : 2 ≤ settings.receiveWindow) (hordering : 2 ≤ settings.orderingWindow) :
    ∃ w, Run settings mtu mtu' Carried w ∧ w.created.length = 2 ∧ w.datagrams.length = 2 ∧
      (w.orderedOn 0).map Submission.own
        = [⟨.reliableOrdered, 0, [1]⟩, ⟨.reliableOrderedWithReceipt, 0, [2]⟩] ∧
      w.orderedDelivered 0 = [⟨.reliableOrdered, 0, [1]⟩, ⟨.reliableOrdered, 0, [2]⟩] := by
  obtain ⟨w, hrun, haccepted, hdatagrams, htarget, hdelivered⟩ :=
    exists_both_sent hvalid hmtu mtu'
  obtain ⟨hnone, hboth⟩ :=
    Receiver.receive_latter_former hvalid.bounds.2.2.2.2.2.2 hreceive hordering
  have hlatter : ⟨Serial.ofNat 1, [Parcel.latter.whole]⟩ ∈ w.datagrams := by
    rw [hdatagrams]
    exact List.mem_cons_of_mem _ List.mem_cons_self
  have hformer : ⟨Serial.ofNat 0, [Parcel.former.whole]⟩ ∈ w.datagrams := by
    rw [hdatagrams]
    exact List.mem_cons_self
  have hreceiver : w.target.receiver = Receiver.fresh settings := congrArg Link.receiver htarget
  have hbefore : w.orderedDelivered 0 = [] := congrArg (List.filter _) hdelivered
  refine ⟨_, (hrun.next (e := .arrive _) hlatter).next (e := .arrive _) hformer, ?_, ?_, ?_, ?_⟩
  · rw [created, accepted_arrive, accepted_arrive, haccepted]
    rfl
  · rw [datagrams_arrive, datagrams_arrive, hdatagrams]
    rfl
  · rw [orderedOn, accepted_arrive, accepted_arrive, haccepted]
    rfl
  · rw [orderedDelivered_arrive, orderedDelivered_arrive, receiver_arrive, hreceiver, hbefore,
      hnone, hboth]
    rfl

/-- **What comes out of a channel are rows of what was accepted for it next**, each with the
guarantee of its first, which a message of this datagram completes. All of it comes out with its own
guarantee, in every run, if and only if one of the two windows has a single place. -/
theorem own_guarantee_iff_narrow (hvalid : settings.Valid) (hmtu : settings.minMtu ≤ mtu)
    (hwindow : settings.receiveWindow ≤ 65536) :
    (∀ w, Run settings mtu mtu' Carried w → w.created.length < Serial.half →
      ∀ d ∈ w.datagrams, ∀ c, ∃ rows : List (List Submission),
        (w.target.receiveDatagram d).1.filter (Delivery.isOrderedOn c)
          = rows.flatMap Submission.together ∧
        rows.flatten <+: (w.orderedOn c).drop (w.orderedDelivered c).length ∧
        ∀ row ∈ rows, ∃ s ∈ row.head?, ∃ m ∈ s.messages, m ∈ d.messages) ∧
    ((∀ w, Run settings mtu mtu' Carried w → w.created.length < Serial.half →
        w.datagrams.length < Serial.half →
        ∀ c, w.orderedDelivered c <+: (w.orderedOn c).map Submission.own) ↔
      settings.receiveWindow = 1 ∨ settings.orderingWindow = 1) := by
  obtain ⟨-, hpos, -, hreceive, hordering, -⟩ := hvalid.bounds
  refine ⟨fun w run few d hd c => ?_, fun h => ?_, fun hnarrow w run few _ => ?_⟩
  · have few' : Few settings w := ⟨few, Or.inl (by omega)⟩
    obtain ⟨ps, t, done, haccount⟩ := run.account hvalid hmtu few'
    obtain ⟨rows, hrows⟩ := haccount.inRows hpos few' hd c
    exact ⟨rows, hrows.out, hrows.next, hrows.led⟩
  · by_contra hnot
    rw [not_or] at hnot
    obtain ⟨w, run, hcreated, hdatagrams, hown, hout⟩ :=
      exists_overtaken hvalid hmtu mtu' (by omega) (by omega)
    have hall := h w run (by rw [hcreated]; decide) (by rw [hdatagrams]; decide) 0
    rw [hown, hout] at hall
    exact absurd hall (by decide)
  · exact run.keepsGuarantees hvalid hmtu ⟨few, Or.inl (by omega)⟩ hnarrow

/-- Two payloads are sent with different guarantees, and the datagram of the second comes. -/
def ahead : Exchange :=
  let sent := (fresh {} 400 400).after [.submit .reliableOrdered 3 [1], .transmit 0 1,
    .submit .reliableOrderedWithReceipt 3 [2], .transmit 0 1]
  sent.after ((sent.datagrams.drop 1).map .arrive)

theorem run_ahead : Run {} 400 400 Carried ahead :=
  (Run.start.follow (by decide +kernel)).follow (by decide +kernel)

/-- The datagram of the first brings out both in one row. -/
theorem own_guarantee_iff_narrow_ahead :
    ∃ d ∈ ahead.datagrams,
      (ahead.target.receiveDatagram d).1
        = [⟨.reliableOrdered, 3, [1]⟩, ⟨.reliableOrdered, 3, [2]⟩] ∧
      (∃ rows : List (List Submission),
        (ahead.target.receiveDatagram d).1.filter (Delivery.isOrderedOn 3)
          = rows.flatMap Submission.together ∧
        rows.flatten <+: (ahead.orderedOn 3).drop (ahead.orderedDelivered 3).length ∧
        ∀ row ∈ rows, ∃ s ∈ row.head?, ∃ m ∈ s.messages, m ∈ d.messages) ∧
      ¬ ∀ w, Run {} 400 400 Carried w → w.created.length < Serial.half →
        w.datagrams.length < Serial.half →
        ∀ c, w.orderedDelivered c <+: (w.orderedOn c).map Submission.own := by
  have hd : ahead.datagrams.get ⟨0, by decide +kernel⟩ ∈ ahead.datagrams := List.get_mem _ _
  obtain ⟨hrows, hiff⟩ :=
    @own_guarantee_iff_narrow {} 400 400 (by decide) (by decide) (by decide)
  exact ⟨_, hd, by decide +kernel, hrows ahead run_ahead (by decide +kernel) _ hd 3,
    fun h => absurd (hiff.1 h) (by decide)⟩

end Exchange

end DatagramTransport

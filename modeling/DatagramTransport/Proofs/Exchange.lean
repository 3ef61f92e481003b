import DatagramTransport.Link
import DatagramTransport.Proofs.Arrival
import DatagramTransport.Proofs.Custody

/-!
# Exchanges — two links and the network between them

One link sends, the other receives, and what the sender has sent can come to the receiver at any
time, any number of times or never. An exchange is the state of both links together with what was
seen of them from outside: what was accepted, what was put on the wire and what came out.

**A run is any order of events**, so "loss" is a datagram that does not arrive, "delay" one that
arrives late, and nothing else needs to be said about the network. The account of a run ties the
outside to the inside: everything on the wire, in the queue and in flight is a message of a parcel
that was accepted, and the receiver is in step with the parcels.

In a course the source may also give up what it has not sent or would send again. Then messages stay
away for good, but **the counters are not set back**, so the account is the same.
-/

set_option autoImplicit false

namespace DatagramTransport

/-- A payload that was accepted, and the messages it is sent as. -/
structure Submission where
  reliability : Reliability
  channel : UInt8
  payload : Octets
  messages : List Message
  deriving DecidableEq, Repr

def Submission.isOrderedOn (channel : UInt8) (s : Submission) : Bool :=
  s.reliability.isOrdered && s.channel == channel

def Submission.isSequencedOn (channel : UInt8) (s : Submission) : Bool :=
  s.reliability.isSequenced && s.channel == channel

/-- Two links, and what was seen of them. -/
structure Exchange where
  source : Link
  target : Link
  accepted : List Submission
  datagrams : List Datagram
  acknowledgements : List Acknowledgement
  /-- The numbers of the datagrams that arrived, the latest first. -/
  arrived : List Serial
  delivered : List Delivery
  deriving Repr

namespace Exchange

inductive Event where
  | submit (r : Reliability) (channel : UInt8) (payload : Octets)
  /-- The source sends what is queued. -/
  | transmit (now : Nanoseconds) (limit : Nat)
  /-- Time passes at the source. -/
  | expire (now : Nanoseconds)
  /-- An acknowledgement comes to the source. -/
  | hear (now : Nanoseconds) (a : Acknowledgement)
  /-- A datagram comes to the target. -/
  | arrive (d : Datagram)
  /-- The target sends what is ready. -/
  | report (now : Nanoseconds) (limit : Nat)
  deriving DecidableEq, Repr

def fresh (settings : Settings) (mtu mtu' : UInt16) : Exchange where
  source := Link.fresh settings mtu
  target := Link.fresh settings mtu'
  accepted := []
  datagrams := []
  acknowledgements := []
  arrived := []
  delivered := []

/-- What an event does. A payload that is refused changes nothing. -/
def step (w : Exchange) : Event → Exchange
  | .submit r channel payload =>
    match w.source.send r channel payload with
    | .error _ => w
    | .ok (_, source) =>
      { w with
        source := source
        accepted := w.accepted ++
          [⟨r, channel, payload, w.source.sender.queue.messagesFor r channel payload⟩] }
  | .transmit now limit =>
    let (datagrams, source) := w.source.flushDatagrams now limit
    { w with source := source, datagrams := w.datagrams ++ datagrams }
  | .expire now => { w with source := (w.source.tick now).2 }
  | .hear now a => { w with source := (w.source.receiveAcknowledgement now a).2 }
  | .arrive d =>
    let (deliveries, target) := w.target.receiveDatagram d
    { w with
      target := target
      arrived := d.sequence :: w.arrived
      delivered := w.delivered ++ deliveries }
  | .report now limit =>
    let (packets, target) := w.target.flushPackets now limit
    { w with
      target := target
      acknowledgements := w.acknowledgements ++ packets.filterMap fun
        | .acknowledgement a => some a
        | .datagram _ => none }

/-- What an arrival changes. Proofs rewrite with this: behind `step` they would have to open the
receiver even for a part of the state that it leaves alone. -/
theorem step_arrive (w : Exchange) (d : Datagram) :
    w.step (.arrive d) =
      { w with
        target := { w.target with receiver := (w.target.receiver.receive d).2 }
        arrived := d.sequence :: w.arrived
        delivered := w.delivered ++ (w.target.receiver.receive d).1 } := rfl

def created (w : Exchange) : List Message := w.accepted.flatMap Submission.messages

def splits (w : Exchange) : Nat := w.accepted.countP fun s => 1 < s.messages.length

def orderedIn (w : Exchange) (channel : UInt8) : List Octets :=
  (w.accepted.filter fun s => s.reliability.isOrdered && s.channel == channel).map
    Submission.payload

def orderedOut (w : Exchange) (channel : UInt8) : List Octets :=
  Receiver.orderedOutput channel w.delivered

def Carried (w : Exchange) : Event → Prop
  | .arrive d => d ∈ w.datagrams
  | _ => True

instance (w : Exchange) : (e : Event) → Decidable (w.Carried e)
  | .arrive d => inferInstanceAs (Decidable (d ∈ w.datagrams))
  | .submit .. | .transmit .. | .expire _ | .hear .. | .report .. =>
    inferInstanceAs (Decidable True)

/-- What can be reached from two fresh links by events that are allowed. -/
inductive Run (settings : Settings) (mtu mtu' : UInt16) (allowed : Exchange → Event → Prop) :
    Exchange → Prop
  | start : Run settings mtu mtu' allowed (fresh settings mtu mtu')
  | next {w : Exchange} {e : Event} (before : Run settings mtu mtu' allowed w)
      (here : allowed w e) : Run settings mtu mtu' allowed (w.step e)

theorem Run.mono {settings : Settings} {mtu mtu' : UInt16}
    {allowed allowed' : Exchange → Event → Prop} {w : Exchange}
    (h : Run settings mtu mtu' allowed w) (himp : ∀ w e, allowed w e → allowed' w e) :
    Run settings mtu mtu' allowed' w := by
  induction h with
  | start => exact .start
  | next _ here ih => exact .next ih (himp _ _ here)

/-- The source forgets what it would still send. -/
def clear (w : Exchange) : Exchange := { w with source := w.source.clear }

/-- What can be reached by events that are allowed, if the source may forget at any point. -/
inductive Course (settings : Settings) (mtu mtu' : UInt16) (allowed : Exchange → Event → Prop) :
    Exchange → Prop
  | start : Course settings mtu mtu' allowed (fresh settings mtu mtu')
  | next {w : Exchange} {e : Event} (before : Course settings mtu mtu' allowed w)
      (here : allowed w e) : Course settings mtu mtu' allowed (w.step e)
  | clear {w : Exchange} (before : Course settings mtu mtu' allowed w) :
      Course settings mtu mtu' allowed w.clear

theorem Course.mono {settings : Settings} {mtu mtu' : UInt16}
    {allowed allowed' : Exchange → Event → Prop} {w : Exchange}
    (h : Course settings mtu mtu' allowed w) (himp : ∀ w e, allowed w e → allowed' w e) :
    Course settings mtu mtu' allowed' w := by
  induction h with
  | start => exact .start
  | next _ here ih => exact .next ih (himp _ _ here)
  | clear _ ih => exact .clear ih

theorem Run.course {settings : Settings} {mtu mtu' : UInt16}
    {allowed : Exchange → Event → Prop} {w : Exchange} (h : Run settings mtu mtu' allowed w) :
    Course settings mtu mtu' allowed w := by
  induction h with
  | start => exact .start
  | next _ here ih => exact .next ih here

def after (w : Exchange) (es : List Event) : Exchange := es.foldl step w

def Follows (allowed : Exchange → Event → Prop) (w : Exchange) : List Event → Prop
  | [] => True
  | e :: es => allowed w e ∧ Follows allowed (w.step e) es

instance Follows.decide (allowed : Exchange → Event → Prop) [∀ w e, Decidable (allowed w e)]
    (w : Exchange) (es : List Event) : Decidable (w.Follows allowed es) :=
  match es with
  | [] => inferInstanceAs (Decidable True)
  | e :: es =>
    have := Follows.decide allowed (w.step e) es
    inferInstanceAs (Decidable (_ ∧ _))

theorem Run.follow {settings : Settings} {mtu mtu' : UInt16}
    {allowed : Exchange → Event → Prop} {w : Exchange} {es : List Event}
    (h : Run settings mtu mtu' allowed w) (hes : w.Follows allowed es) :
    Run settings mtu mtu' allowed (w.after es) := by
  induction es generalizing w with
  | nil => exact h
  | cons e es ih => exact ih (.next h hes.1) hes.2

theorem Course.follow {settings : Settings} {mtu mtu' : UInt16}
    {allowed : Exchange → Event → Prop} {w : Exchange} {es : List Event}
    (h : Course settings mtu mtu' allowed w) (hes : w.Follows allowed es) :
    Course settings mtu mtu' allowed (w.after es) := by
  induction es generalizing w with
  | nil => exact h
  | cons e es ih => exact ih (.next h hes.1) hes.2

end Exchange

def Parcel.submission (p : Parcel) : Submission :=
  ⟨p.reliability, p.channel, p.payload, p.messages⟩

namespace Exchange

variable {settings : Settings} {mtu mtu' : UInt16} {allowed : Exchange → Event → Prop}
  {w : Exchange} {e : Event} {ps done : List Parcel} {t : Tally}

/-- The queue is one that numbers from this tally, with these settings. -/
structure Ready (settings : Settings) (t : Tally) (q : Sender.Queue) : Prop where
  counts : q.Counts t
  capacity : 20 < q.capacity
  length_channels : q.channels.length = settings.orderChannels
  maxFragments_eq : q.maxFragments = settings.maxFragmentsPerSend

/-- The sender's side of an exchange, and the window at the other end, by the parcels that were
accepted. -/
structure Ledger (settings : Settings) (ps : List Parcel) (t : Tally) (w : Exchange) : Prop where
  accepted_eq : w.accepted = ps.map Parcel.submission
  manifest : Manifest settings ps t
  ready : Ready settings t w.source.sender.queue
  sends : w.source.sender.Sends w.datagrams
  kept : ∀ m, w.source.sender.Keeps m → m ∈ Laid.created ps
  sent : ∀ d ∈ w.datagrams, ∀ m ∈ d.messages, m ∈ Laid.created ps
  window : w.target.receiver.messages.Within t.index

/-- Everything inside of the exchange that matters, by the parcels that were accepted. -/
structure Account (settings : Settings) (ps : List Parcel) (t : Tally) (done : List Parcel)
    (w : Exchange) : Prop extends Ledger settings ps t w where
  reception : Receiver.Reception settings ps t done w.delivered w.target.receiver

/-- No counter comes round, and no fragment number while it matters. -/
structure Few (settings : Settings) (w : Exchange) : Prop where
  created_lt : w.created.length < Serial.half
  spaced : settings.receiveWindow ≤ 131071 ∨ w.splits ≤ 65536

theorem created_eq (h : w.accepted = ps.map Parcel.submission) : w.created = Laid.created ps := by
  rw [created, h, Laid.created, List.flatMap_map]
  rfl

theorem orderedIn_eq (h : w.accepted = ps.map Parcel.submission) (c : UInt8) :
    w.orderedIn c = Receiver.orderedInput c ps := by
  rw [orderedIn, h, List.filter_map, List.map_map]
  rfl

theorem splits_eq (h : w.accepted = ps.map Parcel.submission) :
    w.splits = ps.countP Parcel.isSplit := by
  rw [splits, h, List.countP_map]
  refine List.countP_congr fun p _ => ?_
  simp [Parcel.submission, Parcel.isSplit]

theorem Account.spaced (h : Account settings ps t done w) (few : Few settings w) :
    settings.receiveWindow ≤ 131071 ∨ t.cuts ≤ 65536 := by
  rw [h.manifest.laid.cuts_eq, ← splits_eq h.accepted_eq]
  exact few.spaced

theorem accepted_step (w : Exchange) (e : Event) :
    ∃ more, (w.step e).accepted = w.accepted ++ more := by
  cases e with
  | submit r channel payload =>
    simp only [step]
    split
    · exact ⟨[], (List.append_nil _).symm⟩
    · exact ⟨_, rfl⟩
  | _ => exact ⟨[], (List.append_nil _).symm⟩

theorem created_lt_of_step (few : (w.step e).created.length < Serial.half) :
    w.created.length < Serial.half := by
  obtain ⟨more, hmore⟩ := accepted_step w e
  simp only [created, hmore, List.flatMap_append, List.length_append] at few ⊢
  omega

theorem Few.of_step (few : Few settings (w.step e)) : Few settings w := by
  obtain ⟨more, hmore⟩ := accepted_step w e
  have hsplits : w.splits ≤ (w.step e).splits := by
    simp only [splits, hmore, List.countP_append]
    omega
  exact ⟨created_lt_of_step few.created_lt,
    few.spaced.imp_right fun h => Nat.le_trans hsplits h⟩

end Exchange

/-- What validation checks of the numbers that matter here. -/
theorem Settings.Valid.bounds {settings : Settings} (h : settings.Valid) :
    400 ≤ settings.minMtu.toNat ∧ 0 < settings.maxFragmentCount ∧ 0 < settings.maxAssemblies ∧
      0 < settings.receiveWindow ∧ 0 < settings.orderingWindow ∧
      settings.receiveWindow < 8388608 ∧ 0 < settings.orderChannels := by
  obtain ⟨hmin, -, -, hchannels, hfragments, hassemblies, hwindows, hhalf, -⟩ :=
    Settings.valid_iff.1 h
  rw [UInt16.not_lt, UInt16.le_iff_toNat_le] at hmin
  simp only [Serial.half, not_or, Nat.not_le] at hchannels hfragments hwindows hhalf
  refine ⟨hmin, ?_, ?_, ?_, ?_, hhalf.1, ?_⟩ <;> omega

theorem Settings.Valid.orderingWindow_lt {settings : Settings} (h : settings.Valid) :
    settings.orderingWindow < 8388608 := by
  obtain ⟨-, -, -, -, -, -, -, hhalf, -⟩ := Settings.valid_iff.1 h
  rw [Serial.half] at hhalf
  omega

theorem Settings.Valid.maxFragmentsPerSend_pos {settings : Settings} (h : settings.Valid) :
    0 < settings.maxFragmentsPerSend := by
  obtain ⟨-, -, -, -, hlimits, -⟩ := Settings.valid_iff.1 h
  omega

theorem Settings.Valid.maxDatagramsPerTick_pos {settings : Settings} (h : settings.Valid) :
    0 < settings.maxDatagramsPerTick := by
  obtain ⟨-, -, -, -, -, -, -, -, -, -, hlimit, -⟩ := Settings.valid_iff.1 h
  omega

namespace Exchange

variable {settings : Settings} {mtu mtu' : UInt16} {allowed : Exchange → Event → Prop}
  {w : Exchange} {e : Event} {ps done : List Parcel} {t : Tally}

/-! ## The ledger and the account are kept -/

theorem ledger_fresh (hmtu : 400 ≤ mtu.toNat) :
    Ledger settings [] Tally.zero (fresh settings mtu mtu') where
  accepted_eq := rfl
  manifest := ⟨.nil, by decide, fun _ hp => absurd hp List.not_mem_nil,
    fun _ hp => absurd hp List.not_mem_nil⟩
  ready := by
    refine ⟨Sender.Queue.counts_fresh _ _ _, ?_, List.length_replicate, rfl⟩
    show 20 < mtu.toNat - 28 - 4
    omega
  sends := Sender.sends_fresh settings mtu
  kept := by
    intro m hkeeps
    rcases hkeeps with ⟨e, he, -⟩ | ⟨sequence, sent, hget, -⟩
    · cases he
    · simp [fresh, Link.fresh, Sender.fresh] at hget
  sent := fun d hd => by cases hd
  window := Receiver.Window.within_fresh _

theorem Ready.entries {q q' : Sender.Queue} (h : Ready settings t q)
    (hq : ∃ entries, q' = { q with entries := entries }) : Ready settings t q' := by
  obtain ⟨entries, rfl⟩ := hq
  exact ⟨⟨h.counts.index_eq, h.counts.fragmentId_eq, h.counts.channel_eq⟩, h.capacity,
    h.length_channels, h.maxFragments_eq⟩

/-- A payload that is accepted is one more parcel. -/
theorem Ledger.submit (h : Ledger settings ps t w)
    (r : Reliability) (channel : UInt8) (payload : Octets)
    (few' : (w.step (.submit r channel payload)).created.length < Serial.half) :
    Ledger settings ps t (w.step (.submit r channel payload)) ∨
      ∃ p, p.NumberedFrom t ∧
        Ledger settings (ps ++ [p]) (t.after p) (w.step (.submit r channel payload)) := by
  simp only [step, Link.send] at few' ⊢
  cases hsend : w.source.sender.send r channel payload with
  | error fault => exact Or.inl h
  | ok result =>
    obtain ⟨receipt, sender⟩ := result
    rw [hsend] at few'
    simp only at few' ⊢
    obtain ⟨hrefusal, hqueue, -, -⟩ := Sender.send_eq_ok hsend
    obtain ⟨hsends, hkeeps⟩ := h.sends.send hsend
    obtain ⟨p, hnumbered, hr, hc, hpayload, hmessages, hchannel, hpieces, hcounts⟩ :=
      h.ready.counts.accept h.ready.capacity hrefusal receipt
    -- what was noted of it outside is what the parcel says
    have hsubmission : (⟨r, channel, payload,
        w.source.sender.queue.messagesFor r channel payload⟩ : Submission) = p.submission := by
      rw [Parcel.submission, hr, hc, hpayload, hmessages]
    have haccepted : w.accepted ++ [p.submission] = (ps ++ [p]).map Parcel.submission := by
      rw [List.map_append, ← h.accepted_eq]
      rfl
    rw [hsubmission] at few' ⊢
    rw [← hmessages] at hqueue hkeeps
    have hcreated : Laid.created (ps ++ [p]) = Laid.created ps ++ p.messages := by
      simp [Laid.created]
    refine Or.inr ⟨p, hnumbered, haccepted, ⟨h.manifest.laid.snoc hnumbered, ?_, ?_, ?_⟩, ?_,
      hsends, fun m hm => ?_, fun d hd m hm => ?_, h.window.mono (Nat.le_add_right _ _)⟩
    · rw [created_eq haccepted] at few'
      exact few'
    · intro q hq
      rcases List.mem_append.1 hq with hq | hq
      · exact h.manifest.channel_lt q hq
      · rw [List.mem_singleton.1 hq, ← h.ready.length_channels]
        exact hchannel
    · intro q hq hs
      rcases List.mem_append.1 hq with hq | hq
      · exact h.manifest.pieces_le q hq hs
      · rw [List.mem_singleton.1 hq] at hs ⊢
        rw [← h.ready.maxFragments_eq]
        exact hpieces hs
    · show Ready settings (t.after p) sender.queue
      rw [hqueue]
      exact ⟨hcounts, h.ready.capacity, by
        rw [← h.ready.length_channels]
        exact List.length_modify _ _ _, h.ready.maxFragments_eq⟩
    · rw [hcreated, List.mem_append]
      exact ((hkeeps m).1 hm).imp_left (h.kept m)
    · rw [hcreated]
      exact List.mem_append_left _ (h.sent d hd m hm)

/-- What else can happen leaves the parcels as they are. -/
theorem Ledger.other (h : Ledger settings ps t w) (here : Carried w e)
    (hother : ∀ r channel payload, e ≠ .submit r channel payload) :
    Ledger settings ps t (w.step e) := by
  cases e with
  | submit r channel payload => exact absurd rfl (hother r channel payload)
  | transmit now limit =>
    cases hflush : w.source.sender.flush now limit with
    | mk datagrams sender =>
      obtain ⟨hsends, hqueue, hkeeps, hout, -⟩ := h.sends.flush hflush
      simp only [Exchange.step, Link.flushDatagrams, hflush]
      refine ⟨h.accepted_eq, h.manifest, h.ready.entries hqueue, hsends,
        fun m hm => h.kept m (hkeeps m hm), fun d hd m hm => ?_, h.window⟩
      rcases List.mem_append.1 hd with hd | hd
      · exact h.sent d hd m hm
      · exact h.kept m (Or.inl (hout d hd m hm))
  | expire now =>
    obtain ⟨hsends, hqueue, hkeeps⟩ := h.sends.tick now
    exact ⟨h.accepted_eq, h.manifest, h.ready.entries hqueue, hsends,
      fun m hm => h.kept m ((hkeeps m).1 hm), h.sent, h.window⟩
  | hear now a =>
    obtain ⟨hsends, hqueue, hkeeps, -⟩ := h.sends.receive now a
    exact ⟨h.accepted_eq, h.manifest, h.ready.entries hqueue, hsends,
      fun m hm => h.kept m (hkeeps m hm), h.sent, h.window⟩
  | arrive d =>
    rw [step_arrive]
    exact ⟨h.accepted_eq, h.manifest, h.ready, h.sends, h.kept, h.sent,
      (Receiver.registered_receive h.window h.manifest.index_le
        fun m hm => h.manifest.below (h.sent d here m hm)).1⟩
  | report now limit =>
    exact ⟨h.accepted_eq, h.manifest, h.ready, h.sends, h.kept, h.sent, h.window⟩

theorem Ledger.registered_arrive (h : Ledger settings ps t w) {d : Datagram}
    (hd : d ∈ w.datagrams) {k : Nat} (hk : w.target.receiver.Registered k) :
    (w.target.receiver.receive d).2.Registered k :=
  (Receiver.registered_receive h.window h.manifest.index_le
    fun m hm => h.manifest.below (h.sent d hd m hm)).2 k hk

theorem Ledger.step (h : Ledger settings ps t w) (here : Carried w e)
    (few' : (w.step e).created.length < Serial.half) :
    ∃ ps' t', Ledger settings ps' t' (w.step e) := by
  cases e with
  | submit r channel payload =>
    rcases h.submit r channel payload few' with h' | ⟨p, -, h'⟩
    · exact ⟨ps, t, h'⟩
    · exact ⟨ps ++ [p], t.after p, h'⟩
  | _ => exact ⟨ps, t, h.other here fun _ _ _ => nofun⟩

theorem Account.step (hpos : 0 < settings.maxFragmentCount) (h : Account settings ps t done w)
    (few : Few settings w) (here : Carried w e)
    (few' : (w.step e).created.length < Serial.half) :
    ∃ ps' t' done', Account settings ps' t' done' (w.step e) := by
  cases e with
  | submit r channel payload =>
    have hsame : (w.step (.submit r channel payload)).target = w.target ∧
        (w.step (.submit r channel payload)).delivered = w.delivered := by
      simp only [Exchange.step]
      split <;> exact ⟨rfl, rfl⟩
    rcases h.submit r channel payload few' with h' | ⟨p, hnumbered, h'⟩
    · refine ⟨ps, t, done, h', ?_⟩
      rw [hsame.1, hsame.2]
      exact h.reception
    · refine ⟨ps ++ [p], t.after p, done, h', ?_⟩
      rw [hsame.1, hsame.2]
      exact h.reception.accept hnumbered h.manifest.laid
  | arrive d =>
    obtain ⟨done', hreception⟩ :=
      h.reception.receive h.manifest (h.spaced few) hpos (h.sent d here)
    have hledger := h.toLedger.other here fun _ _ _ => nofun
    rw [step_arrive] at hledger ⊢
    exact ⟨ps, t, done', hledger, hreception⟩
  | report now limit =>
    exact ⟨ps, t, done, h.toLedger.other here fun _ _ _ => nofun,
      h.reception.congr rfl rfl rfl⟩
  | _ => exact ⟨ps, t, done, h.toLedger.other here fun _ _ _ => nofun, h.reception⟩

theorem Ledger.clear (h : Ledger settings ps t w) : Ledger settings ps t w.clear where
  accepted_eq := h.accepted_eq
  manifest := h.manifest
  ready := h.ready.entries ⟨.empty, rfl⟩
  sends := h.sends.clear
  kept := fun m hkeeps => absurd hkeeps (Sender.not_keeps_clear _ m)
  sent := h.sent
  window := h.window

/-- **Every course has a ledger**, as long as no counter comes round. -/
theorem Course.ledger (hvalid : settings.Valid) (hmtu : settings.minMtu ≤ mtu)
    (course : Course settings mtu mtu' Carried w) (few : w.created.length < Serial.half) :
    ∃ ps t, Ledger settings ps t w := by
  obtain ⟨hmin, -⟩ := hvalid.bounds
  induction course with
  | start =>
    rw [UInt16.le_iff_toNat_le] at hmtu
    exact ⟨_, _, ledger_fresh (by omega)⟩
  | next before here ih =>
    obtain ⟨ps, t, h⟩ := ih (created_lt_of_step few)
    exact h.step here few
  | clear before ih =>
    obtain ⟨ps, t, h⟩ := ih few
    exact ⟨ps, t, h.clear⟩

/-- **Every course has an account**, as long as no fragment number comes round either. -/
theorem Course.account (hvalid : settings.Valid) (hmtu : settings.minMtu ≤ mtu)
    (course : Course settings mtu mtu' Carried w) (few : Few settings w) :
    ∃ ps t done, Account settings ps t done w := by
  obtain ⟨hmin, hpos, -⟩ := hvalid.bounds
  induction course with
  | start =>
    rw [UInt16.le_iff_toNat_le] at hmtu
    exact ⟨_, _, _, ledger_fresh (by omega), Receiver.reception_fresh settings Tally.zero⟩
  | next before here ih =>
    obtain ⟨ps, t, done, h⟩ := ih few.of_step
    exact h.step hpos few.of_step here few.created_lt
  | clear before ih =>
    obtain ⟨ps, t, done, h⟩ := ih ⟨few.created_lt, few.spaced⟩
    exact ⟨ps, t, done, h.toLedger.clear, h.reception⟩

theorem Run.ledger (hvalid : settings.Valid) (hmtu : settings.minMtu ≤ mtu)
    (run : Run settings mtu mtu' Carried w) (few : w.created.length < Serial.half) :
    ∃ ps t, Ledger settings ps t w :=
  run.course.ledger hvalid hmtu few

theorem Run.account (hvalid : settings.Valid) (hmtu : settings.minMtu ≤ mtu)
    (run : Run settings mtu mtu' Carried w) (few : Few settings w) :
    ∃ ps t done, Account settings ps t done w :=
  run.course.account hvalid hmtu few

end Exchange

end DatagramTransport

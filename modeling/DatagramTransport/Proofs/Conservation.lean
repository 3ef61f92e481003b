import DatagramTransport.Proofs.Exchange
import DatagramTransport.Proofs.Hearing
import DatagramTransport.Proofs.Ranges

/-!
# Conservation — no reliable message is lost between the two ends

A reliable message is in the sender's custody or it was taken in by the receiver. Custody ends with
an acknowledgement, so all depends on what an acknowledgement vouches for, and that is where the
receiver can be wrong: it acknowledges a datagram that is **overlooked**, late and forgotten with
something in it that was never taken in. In a run in which this does not happen nothing is lost. It
does not happen if every copy of a datagram is timely, that is, less than a window behind the
highest number that arrived before it.
-/

set_option autoImplicit false

namespace DatagramTransport

namespace Exchange

variable {settings : Settings} {mtu mtu' : UInt16} {allowed : Exchange → Event → Prop}
  {w : Exchange} {e : Event} {d : Datagram} {ps : List Parcel} {t : Tally}

def hasTaken (w : Exchange) (m : Message) : Bool := w.target.receiver.hasTaken m

/-- A datagram that arrives now is acknowledged without being looked at, though there is something
in it that was not registered. -/
def Overlooked (w : Exchange) (d : Datagram) : Prop :=
  w.target.receiver.Late d.sequence.val ∧ d.sequence ∉ w.target.receiver.deferred ∧
    ∃ m ∈ d.messages, m.reliability.isReliable = true ∧ w.hasTaken m = false

/-- What arrives at either end was sent by the other. -/
def Faithful (w : Exchange) : Event → Prop
  | .arrive d => d ∈ w.datagrams
  | .hear _ a => a ∈ w.acknowledgements
  | _ => True

def Attentive (w : Exchange) : Event → Prop
  | .arrive d => d ∈ w.datagrams ∧ ¬ w.Overlooked d
  | e => w.Faithful e

/-- What arrives is less than a window behind the highest number that arrived before. -/
def Timely (window : Nat) (w : Exchange) : Event → Prop
  | .arrive d => d ∈ w.datagrams ∧ ∀ s ∈ w.arrived, s.val < d.sequence.val + window
  | e => w.Faithful e

theorem Attentive.carried (h : w.Attentive e) : w.Carried e := by
  cases e with
  | arrive d => exact h.1
  | _ => trivial

theorem Timely.carried {window : Nat} (h : w.Timely window e) : w.Carried e := by
  cases e with
  | arrive d => exact h.1
  | _ => trivial

instance (w : Exchange) (d : Datagram) : Decidable (w.Overlooked d) :=
  inferInstanceAs (Decidable (_ < _ ∧ _ ∧ _))

instance (w : Exchange) : (e : Event) → Decidable (w.Faithful e)
  | .arrive d => inferInstanceAs (Decidable (d ∈ w.datagrams))
  | .hear _ a => inferInstanceAs (Decidable (a ∈ w.acknowledgements))
  | .submit .. | .transmit .. | .expire _ | .report .. => inferInstanceAs (Decidable True)

instance (w : Exchange) : (e : Event) → Decidable (w.Attentive e)
  | .arrive d => inferInstanceAs (Decidable (d ∈ w.datagrams ∧ ¬ w.Overlooked d))
  | .hear _ a => inferInstanceAs (Decidable (a ∈ w.acknowledgements))
  | .submit .. | .transmit .. | .expire _ | .report .. => inferInstanceAs (Decidable True)

instance (window : Nat) (w : Exchange) : (e : Event) → Decidable (w.Timely window e)
  | .arrive d => inferInstanceAs (Decidable (d ∈ w.datagrams ∧ ∀ s ∈ w.arrived, _ < _))
  | .hear _ a => inferInstanceAs (Decidable (a ∈ w.acknowledgements))
  | .submit .. | .transmit .. | .expire _ | .report .. => inferInstanceAs (Decidable True)

/-! ## What the target knows about datagrams

The receiver's own account (`Receiver.Hears`) is about a list of datagrams that only grows, and any
copy that arrives is one of them. It is kept in every course of events, attentive or not: a receiver
does not know whether it overlooks something. `reached` is about the run and not about the receiver.
It turns "late", which is said of the receiver's numbers, into what the network did. -/

/-- The target's account of datagrams, and what it goes by. -/
structure Attends (settings : Settings) (w : Exchange) : Prop where
  hears : Receiver.Hears settings w.datagrams w.target.receiver
  /-- The highest number is that of a datagram that arrived. -/
  reached : ∀ k < w.target.receiver.nextSequence.val, ∃ s ∈ w.arrived, k ≤ s.val

theorem datagrams_step (w : Exchange) (e : Event) :
    ∃ more, (w.step e).datagrams = w.datagrams ++ more := by
  cases e with
  | submit r channel payload =>
    refine ⟨[], ?_⟩
    simp only [step]
    split <;> exact (List.append_nil _).symm
  | transmit now limit => exact ⟨_, rfl⟩
  | _ => exact ⟨[], (List.append_nil _).symm⟩

theorem datagrams_lt_of_step (h : (w.step e).datagrams.length < Serial.half) :
    w.datagrams.length < Serial.half := by
  obtain ⟨more, hmore⟩ := datagrams_step w e
  rw [hmore, List.length_append] at h
  omega

end Exchange

namespace Receiver

variable {d : Datagram} {r : Receiver}

/-- A positive acknowledgement that is sent names pending numbers only. -/
theorem mem_pendingAcks_of_flush {maxLength : Nat} {a : Acknowledgement}
    (ha : a ∈ (r.flush maxLength).1) (hkind : a.kind = .ack) {s : Serial} (hs : s ∈ a.numbers) :
    s ∈ r.pendingAcks := by
  rcases List.mem_append.1 ha with ha | ha
  · obtain ⟨range, hrange, hs⟩ := (Acknowledgement.mem_numbers_build ha).2 s hs
    obtain ⟨s', hs', rfl⟩ := List.mem_map.1 hrange
    rwa [SerialRange.mem_toList_single.1 hs]
  · rw [(Acknowledgement.mem_numbers_build ha).1] at hkind
    cases hkind

end Receiver

namespace Exchange

variable {settings : Settings} {mtu mtu' : UInt16} {allowed : Exchange → Event → Prop}
  {w : Exchange} {e : Event} {d : Datagram} {ps : List Parcel} {t : Tally}

theorem Attends.receive (h : Attends settings w) (hledger : Ledger settings ps t w)
    (hpos : 0 < settings.receiveWindow) (few : w.datagrams.length < Serial.half)
    (hd : d ∈ w.datagrams) :
    Receiver.Hears settings w.datagrams (w.target.receiver.receive d).2 ∧
      Receiver.Verdict w.datagrams d w.target.receiver (w.target.receiver.receive d).2 := by
  have few' : w.datagrams.length < 8388608 := few
  refine h.hears.receive hpos hledger.window hledger.manifest.index_le few hd
    (hledger.sends.val_lt (by omega) hd) fun m hm => ?_
  exact hledger.manifest.below (hledger.sent d hd m hm)

theorem Attends.step (h : Attends settings w) (hledger : Ledger settings ps t w)
    (hpos : 0 < settings.receiveWindow) (few : w.datagrams.length < Serial.half)
    (here : w.Carried e) : Attends settings (w.step e) := by
  cases e with
  | submit r channel payload =>
    simp only [Exchange.step]
    split <;> exact ⟨h.hears, h.reached⟩
  | transmit now limit => exact ⟨h.hears.append _, h.reached⟩
  | expire now => exact ⟨h.hears, h.reached⟩
  | hear now a => exact ⟨h.hears, h.reached⟩
  | arrive d =>
    rw [step_arrive]
    refine ⟨(h.receive hledger hpos few here).1, fun k hk => ?_⟩
    rcases Receiver.nextSequence_receive d w.target.receiver with heq | heq
    · rw [heq] at hk
      obtain ⟨s, hs, hle⟩ := h.reached k hk
      exact ⟨s, List.mem_cons_of_mem _ hs, hle⟩
    · have hlt := hledger.sends.val_lt (Nat.le_of_lt (Nat.lt_trans few (by decide))) here
      have few' : w.datagrams.length < 8388608 := few
      rw [heq, Serial.val_next] at hk
      exact ⟨d.sequence, List.mem_cons_self, by omega⟩
  | report now limit =>
    exact ⟨⟨⟨h.hears.windowSize_eq, h.hears.capacity_eq, h.hears.window, h.hears.next_le,
      h.hears.behind⟩, h.hears.accounted⟩, h.reached⟩

/-- **In every course, a number that the target has is settled, deferred or late.** -/
theorem Course.attends (hvalid : settings.Valid) (hmtu : settings.minMtu ≤ mtu)
    (course : Course settings mtu mtu' Carried w) (few : w.created.length < Serial.half)
    (few' : w.datagrams.length < Serial.half) : Attends settings w := by
  obtain ⟨-, -, -, hpos, -⟩ := hvalid.bounds
  induction course with
  | start => exact ⟨Receiver.hears_fresh settings, fun k hk => absurd hk (Nat.not_lt_zero k)⟩
  | next before here ih =>
    obtain ⟨ps, t, hledger⟩ := before.ledger hvalid hmtu (created_lt_of_step few)
    have few'' := datagrams_lt_of_step few'
    exact (ih (created_lt_of_step few) few'').step hledger hpos few'' here
  | clear before ih =>
    obtain ⟨hhears, hreached⟩ := ih few few'
    exact ⟨hhears, hreached⟩

theorem Run.attends (hvalid : settings.Valid) (hmtu : settings.minMtu ≤ mtu)
    (run : Run settings mtu mtu' Carried w) (few : w.created.length < Serial.half)
    (few' : w.datagrams.length < Serial.half) : Attends settings w :=
  run.course.attends hvalid hmtu few few'

/-! ## What acknowledgements vouch for

Three things have to go together, or none of them is kept: that the numbers to be acknowledged are
settled, that those in the packets on their way are, however long these take, and that every message
is with the sender or taken in. Nothing that was registered is ever forgotten, so a number that is
settled once stays so, and a packet that arrives late says nothing wrong. -/

/-- Every acknowledgement on its way is true, and every message is somewhere. -/
structure Conserves (w : Exchange) : Prop where
  pending : ∀ s ∈ w.target.receiver.pendingAcks,
    Receiver.Settled w.datagrams w.target.receiver s
  reported : ∀ a ∈ w.acknowledgements, a.kind = .ack → ∀ s ∈ a.numbers,
    Receiver.Settled w.datagrams w.target.receiver s
  conserved : ∀ m ∈ w.created, m.reliability.isReliable = true →
    w.source.sender.Keeps m ∨ w.hasTaken m = true

theorem Ledger.created_eq (h : Ledger settings ps t w) : w.created = Laid.created ps :=
  Exchange.created_eq h.accepted_eq

theorem Ledger.hasTaken_iff (h : Ledger settings ps t w) {m : Message}
    (hm : m ∈ w.created) :
    w.hasTaken m = true ↔ ∃ s ∈ m.index, w.target.receiver.Registered s.val := by
  rw [h.created_eq] at hm
  exact Receiver.hasTaken_iff h.window h.manifest.index_le (h.manifest.below hm)

theorem Ledger.exists_index (h : Ledger settings ps t w) {m : Message}
    (hm : m ∈ w.created) (hr : m.reliability.isReliable = true) : ∃ s, s ∈ m.index := by
  rw [h.created_eq] at hm
  obtain ⟨p, -, hmem⟩ := List.mem_flatMap.1 hm
  obtain ⟨i, hi, rfl⟩ := Parcel.mem_messages.1 hmem
  exact ⟨_, Parcel.index_message hr i _⟩

theorem Ledger.mem_created (h : Ledger settings ps t w) {p : Parcel} (hp : p ∈ ps) {i : Nat}
    (hi : i < p.pieces.length) : p.message i p.pieces[i] ∈ w.created := by
  rw [h.created_eq]
  exact List.mem_flatMap.2 ⟨p, hp, Parcel.mem_messages.2 ⟨i, hi, rfl⟩⟩

theorem Ledger.hasTaken_message_iff (h : Ledger settings ps t w) {p : Parcel} (hp : p ∈ ps)
    (hr : p.isReliable = true) {i : Nat} (hi : i < p.pieces.length) :
    w.hasTaken (p.message i p.pieces[i]) = true ↔ w.target.receiver.Registered (p.first + i) := by
  have hlt := h.manifest.index_lt hp hr hi
  have hle := h.manifest.index_le
  rw [h.hasTaken_iff (h.mem_created hp hi), Parcel.index_message hr]
  have hval : (Serial.ofNat (p.first + i)).val = p.first + i := Serial.val_ofNat_of_lt (by omega)
  simp only [Option.mem_some_iff, exists_eq_left', hval]

theorem Ledger.hasTaken_of_hasAll (h : Ledger settings ps t w) (hd : d ∈ w.datagrams)
    (hall : w.target.receiver.HasAll d) {m : Message} (hm : m ∈ d.messages)
    (hr : m.reliability.isReliable = true) : w.hasTaken m = true := by
  have hcreated : m ∈ w.created := by
    rw [h.created_eq]
    exact h.sent d hd m hm
  obtain ⟨s, hs⟩ := h.exists_index hcreated hr
  exact (h.hasTaken_iff hcreated).2 ⟨s, hs, hall m hm s hs⟩

theorem Ledger.eq_of_sequence (h : Ledger settings ps t w)
    (few : w.datagrams.length < Serial.half) {d' : Datagram} (hd' : d' ∈ w.datagrams)
    (hd : d ∈ w.datagrams) (heq : d'.sequence = d.sequence) : d' = d :=
  h.sends.eq_of_sequence (Nat.le_of_lt (Nat.lt_trans few (by decide))) hd' hd heq

/-- What leaves the custody on a true acknowledgement was taken in. -/
theorem Ledger.hasTaken_of_settled (h : Ledger settings ps t w)
    (few : w.datagrams.length < Serial.half) {sequence : Serial} {m : Message}
    (hflies : w.source.sender.Flies sequence m) (hr : m.reliability.isReliable = true)
    (hsettled : Receiver.Settled w.datagrams w.target.receiver sequence) :
    w.hasTaken m = true := by
  obtain ⟨d, hd, heq, hm⟩ := h.sends.recorded sequence m hflies
  obtain ⟨d', hd', heq', hall⟩ := hsettled
  have hsame : d' = d := h.eq_of_sequence few hd' hd (heq'.trans heq.symm)
  rw [hsame] at hall
  exact h.hasTaken_of_hasAll hd hall hm hr

/-- A datagram that is not overlooked is acknowledged only if it is taken in. -/
theorem Attends.settled_of_not_overlooked (h : Attends settings w)
    (hledger : Ledger settings ps t w) (hpos : 0 < settings.receiveWindow)
    (few : w.datagrams.length < Serial.half) (hd : d ∈ w.datagrams)
    (hnot : ¬ w.Overlooked d) {s : Serial}
    (hs : s ∈ (w.target.receiver.receive d).2.pendingAcks) :
    s ∈ w.target.receiver.pendingAcks ∨
      Receiver.Settled w.datagrams (w.target.receiver.receive d).2 s := by
  obtain ⟨-, hverdict⟩ := h.receive hledger hpos few hd
  have hhead : ∀ {acks : List Serial}, s ∈ d.sequence :: acks → s = d.sequence ∨ s ∈ acks :=
    fun hs => List.mem_cons.1 hs
  cases hverdict with
  | waits hacks =>
    rw [hacks] at hs
    exact Or.inl hs
  | vouched hacks hsettled =>
    rw [hacks] at hs
    rcases hhead hs with rfl | hs
    · exact Or.inr hsettled
    · exact Or.inl hs
  | overlooked hacks hlate hforgotten hsame =>
    rw [hacks] at hs
    rcases hhead hs with rfl | hs
    · -- it was late, but there was nothing in it that was not registered
      refine Or.inr ⟨d, hd, rfl, fun m hm i hi => ?_⟩
      have hcreated : m ∈ w.created := by
        rw [hledger.created_eq]
        exact hledger.sent d hd m hm
      have htaken : w.hasTaken m = true := by
        by_contra hmissing
        rw [Bool.not_eq_true] at hmissing
        refine hnot ⟨hlate, hforgotten, m, hm, ?_, hmissing⟩
        by_contra hr
        rw [hledger.created_eq] at hcreated
        obtain ⟨p, -, hmem⟩ := List.mem_flatMap.1 hcreated
        obtain ⟨j, hj, rfl⟩ := Parcel.mem_messages.1 hmem
        rw [show (p.message j p.pieces[j]).index = none from if_neg hr] at hi
        cases hi
      obtain ⟨i', hi', hregistered⟩ := (hledger.hasTaken_iff hcreated).1 htaken
      have heq : i' = i := Option.mem_unique hi' hi
      rw [heq] at hregistered
      exact hledger.registered_arrive hd hregistered
    · exact Or.inl hs

/-! ## What keeps messages from being lost

One lemma for each kind of event. The sender's own events leave the receiver alone, and of each it
is known from `Proofs.Custody` what becomes of the custody. A message leaves it only when the source
hears of an acknowledgement; that the message is taken in by then is what `reported` is for. The
target's events are what makes `reported` true: an arrival adds to the numbers that are to be
acknowledged, and a report makes packets of these. -/

theorem Conserves.submit (h : Conserves w) (hledger : Ledger settings ps t w) (r : Reliability)
    (channel : UInt8) (payload : Octets) : Conserves (w.step (.submit r channel payload)) := by
  simp only [Exchange.step, Link.send]
  cases hsend : w.source.sender.send r channel payload with
  | error fault => exact h
  | ok result =>
    obtain ⟨receipt, sender⟩ := result
    obtain ⟨-, hkeeps⟩ := hledger.sends.send hsend
    refine ⟨h.pending, h.reported, fun m hm hr => ?_⟩
    simp only [created, List.flatMap_append, List.flatMap_cons, List.flatMap_nil,
      List.append_nil, List.mem_append] at hm
    rcases hm with hm | hm
    · exact (h.conserved m hm hr).imp_left fun hkept => (hkeeps m).2 (Or.inl hkept)
    · exact Or.inl ((hkeeps m).2 (Or.inr hm))

theorem Conserves.transmit (h : Conserves w) (hledger : Ledger settings ps t w)
    {now : Nanoseconds} {limit : Nat}
    (few : (w.step (.transmit now limit)).datagrams.length < Serial.half) :
    Conserves (w.step (.transmit now limit)) := by
  cases hflush : w.source.sender.flush now limit with
  | mk datagrams sender =>
    obtain ⟨-, -, -, -, hstay⟩ := hledger.sends.flush hflush
    simp only [Exchange.step, Link.flushDatagrams, hflush] at few ⊢
    have few' : (w.datagrams ++ datagrams).length < 8388608 := few
    refine ⟨fun s hs => ?_, fun a ha hkind s hs => ?_, fun m hm hr => ?_⟩
    · exact (h.pending s hs).mono (fun _ => List.mem_append_left _) fun _ hk => hk
    · exact (h.reported a ha hkind s hs).mono (fun _ => List.mem_append_left _) fun _ hk => hk
    · exact (h.conserved m hm hr).imp_left (hstay (by omega) m hr)

theorem Conserves.expire (h : Conserves w) (hledger : Ledger settings ps t w) (now : Nanoseconds) :
    Conserves (w.step (.expire now)) := by
  obtain ⟨-, -, hkeeps⟩ := hledger.sends.tick now
  exact ⟨h.pending, h.reported, fun m hm hr => (h.conserved m hm hr).imp_left (hkeeps m).2⟩

/-- A message leaves the custody on an acknowledgement only, and those are true. -/
theorem Conserves.hear (h : Conserves w) (hledger : Ledger settings ps t w)
    (few : w.datagrams.length < Serial.half) {now : Nanoseconds} {a : Acknowledgement}
    (ha : a ∈ w.acknowledgements) : Conserves (w.step (.hear now a)) := by
  obtain ⟨-, -, -, hkeeps⟩ := hledger.sends.receive now a
  refine ⟨h.pending, h.reported, fun m hm hr => ?_⟩
  rcases h.conserved m hm hr with hkept | htaken
  · rcases hkeeps m hkept with hkept | ⟨hkind, sequence, hsequence, hflies⟩
    · exact Or.inl hkept
    · exact Or.inr (hledger.hasTaken_of_settled few hflies hr
        (h.reported a ha hkind sequence hsequence))
  · exact Or.inr htaken

theorem Conserves.arrive {ps' : List Parcel} {t' : Tally} (h : Conserves w)
    (hattends : Attends settings w) (hledger : Ledger settings ps t w)
    (hledger' : Ledger settings ps' t' (w.step (.arrive d))) (hpos : 0 < settings.receiveWindow)
    (few : w.datagrams.length < Serial.half) (hd : d ∈ w.datagrams) (hnot : ¬ w.Overlooked d) :
    Conserves (w.step (.arrive d)) := by
  have hmono := fun k => hledger.registered_arrive hd (k := k)
  rw [step_arrive] at hledger' ⊢
  refine ⟨fun s hs => ?_, fun a ha hkind s hs => ?_, fun m hm hr => ?_⟩
  · rcases hattends.settled_of_not_overlooked hledger hpos few hd hnot hs with hold | hsettled
    · exact (h.pending s hold).mono (fun _ hd => hd) hmono
    · exact hsettled
  · exact (h.reported a ha hkind s hs).mono (fun _ hd => hd) hmono
  · refine (h.conserved m hm hr).imp_right fun htaken => ?_
    obtain ⟨s, hs, hregistered⟩ := (hledger.hasTaken_iff hm).1 htaken
    exact (hledger'.hasTaken_iff hm).2 ⟨s, hs, hmono _ hregistered⟩

/-- What is reported now was pending: the numbers of a packet are those it was built from. -/
theorem Conserves.report (h : Conserves w) (now : Nanoseconds) (limit : Nat) :
    Conserves (w.step (.report now limit)) := by
  refine ⟨fun s hs => absurd hs List.not_mem_nil, fun a ha hkind s hs => ?_, h.conserved⟩
  rcases List.mem_append.1 ha with ha | ha
  · exact h.reported a ha hkind s hs
  · obtain ⟨packet, hpacket, heq⟩ := List.mem_filterMap.1 ha
    cases packet with
    | datagram d => cases heq
    | acknowledgement a' =>
      rw [Option.some.injEq] at heq
      subst heq
      rcases List.mem_append.1 hpacket with hpacket | hpacket
      · obtain ⟨a, ha, heq⟩ := List.mem_map.1 hpacket
        cases heq
        exact h.pending s (Receiver.mem_pendingAcks_of_flush ha hkind hs)
      · obtain ⟨d, -, heq⟩ := List.mem_map.1 hpacket
        cases heq

theorem Conserves.step {ps' : List Parcel} {t' : Tally} (h : Conserves w)
    (hattends : Attends settings w) (hledger : Ledger settings ps t w)
    (hledger' : Ledger settings ps' t' (w.step e)) (hpos : 0 < settings.receiveWindow)
    (few : w.datagrams.length < Serial.half)
    (few' : (w.step e).datagrams.length < Serial.half) (here : w.Attentive e) :
    Conserves (w.step e) := by
  cases e with
  | submit r channel payload => exact h.submit hledger r channel payload
  | transmit now limit => exact h.transmit hledger few'
  | expire now => exact h.expire hledger now
  | hear now a => exact h.hear hledger few here
  | arrive d => exact h.arrive hattends hledger hledger' hpos few here.1 here.2
  | report now limit => exact h.report now limit

/-- **In a run in which nothing is overlooked, acknowledgements are true and nothing is lost.** -/
theorem Run.conserves (hvalid : settings.Valid) (hmtu : settings.minMtu ≤ mtu)
    (run : Run settings mtu mtu' Attentive w) (few : w.created.length < Serial.half)
    (few' : w.datagrams.length < Serial.half) : Conserves w := by
  obtain ⟨-, -, -, hpos, -⟩ := hvalid.bounds
  have hcarried : ∀ {w}, Run settings mtu mtu' Attentive w → Run settings mtu mtu' Carried w :=
    fun run => run.mono fun _ _ h => h.carried
  induction run with
  | start =>
    exact ⟨fun s hs => absurd hs List.not_mem_nil, fun a ha => absurd ha List.not_mem_nil,
      fun m hm => absurd hm List.not_mem_nil⟩
  | next before here ih =>
    have few'' := datagrams_lt_of_step few'
    obtain ⟨ps, t, hledger⟩ := (hcarried before).ledger hvalid hmtu (created_lt_of_step few)
    obtain ⟨ps', t', hledger'⟩ :=
      (Run.next (hcarried before) here.carried).ledger hvalid hmtu few
    have hattends := (hcarried before).attends hvalid hmtu (created_lt_of_step few) few''
    exact (ih (created_lt_of_step few) few'').step hattends hledger hledger' hpos few'' few' here

theorem Attends.attentive_of_timely (h : Attends settings w)
    (here : w.Timely settings.receiveWindow e) : w.Attentive e := by
  cases e with
  | arrive d =>
    refine ⟨here.1, fun hoverlooked => ?_⟩
    have hlate := hoverlooked.1
    unfold Receiver.Late at hlate
    rw [h.hears.windowSize_eq] at hlate
    obtain ⟨s, hs, hle⟩ := h.reached _ hlate
    have := here.2 s hs
    omega
  | _ => exact here

theorem Run.attentive_of_timely (hvalid : settings.Valid) (hmtu : settings.minMtu ≤ mtu)
    (run : Run settings mtu mtu' (Timely settings.receiveWindow) w)
    (few : w.created.length < Serial.half)
    (few' : w.datagrams.length < Serial.half) : Run settings mtu mtu' Attentive w := by
  induction run with
  | start => exact .start
  | next before here ih =>
    have few'' := datagrams_lt_of_step few'
    have hcarried := before.mono fun _ _ h => h.carried
    exact .next (ih (created_lt_of_step few) few'')
      ((hcarried.attends hvalid hmtu (created_lt_of_step few) few'').attentive_of_timely here)

/-! ## Which acknowledgements are true

A run that is attentive up to now may go on with any datagram. Whether its acknowledgement is true
can be told from the state before it arrives, and the verdict of `Receiver.Hears.receive` decides it
case by case: only a datagram that is not looked at can be acknowledged for nothing. -/

/-- The arrival of a datagram puts its number among those that are to be acknowledged. -/
def Acknowledges (w : Exchange) (d : Datagram) : Prop :=
  (w.step (.arrive d)).target.receiver.pendingAcks = d.sequence :: w.target.receiver.pendingAcks

def HasTakenAll (w : Exchange) (d : Datagram) : Prop :=
  ∀ m ∈ d.messages, m.reliability.isReliable = true → w.hasTaken m = true

theorem hasTaken_arrive
    (hsame : (w.target.receiver.receive d).2.messages = w.target.receiver.messages)
    (m : Message) : (w.step (.arrive d)).hasTaken m = w.hasTaken m := by
  rw [step_arrive, hasTaken, hasTaken, Receiver.hasTaken, Receiver.hasTaken, hsame]

theorem acknowledges_iff : w.Acknowledges d ↔
    (w.target.receiver.receive d).2.pendingAcks = d.sequence :: w.target.receiver.pendingAcks := by
  rw [Acknowledges, step_arrive]

/-- **An arrival is acknowledged falsely exactly if the datagram is overlooked**. If none is, every
number to be acknowledged is that of a datagram that was taken in, and each reliable message is kept
by the sender until it is registered. -/
theorem acknowledged_untaken_iff (hvalid : settings.Valid) (hmtu : settings.minMtu ≤ mtu)
    (run : Run settings mtu mtu' Carried w) (few : w.created.length < Serial.half)
    (few' : w.datagrams.length < Serial.half) :
    (∀ d ∈ w.datagrams,
      w.Acknowledges d ∧ ¬ (w.step (.arrive d)).HasTakenAll d ↔ w.Overlooked d) ∧
    (Run settings mtu mtu' Attentive w →
      (∀ s ∈ w.target.receiver.pendingAcks, ∃ d ∈ w.datagrams,
        d.sequence = s ∧ w.HasTakenAll d) ∧
      ∀ m ∈ w.created, m.reliability.isReliable = true →
        w.source.sender.Keeps m ∨ w.hasTaken m = true) := by
  obtain ⟨-, -, -, hpos, -⟩ := hvalid.bounds
  obtain ⟨ps, t, hledger⟩ := run.ledger hvalid hmtu few
  have hattends := run.attends hvalid hmtu few few'
  refine ⟨fun d hd => ?_, fun hattentive => ?_⟩
  · rw [acknowledges_iff]
    have hledger' : Ledger settings ps t (w.step (.arrive d)) :=
      hledger.other hd fun _ _ _ => nofun
    constructor
    · rintro ⟨hacks, huntaken⟩
      simp only [HasTakenAll, not_forall, exists_prop] at huntaken
      obtain ⟨m, hm, hr, hmissing⟩ := huntaken
      obtain ⟨-, hverdict⟩ := hattends.receive hledger hpos few' hd
      cases hverdict with
      | waits hsame => exact absurd (hsame.symm.trans hacks) (List.ne_cons_self)
      | vouched _ hsettled =>
        obtain ⟨d', hd', heq, hall⟩ := hsettled
        obtain rfl := hledger.eq_of_sequence few' hd' hd heq
        rw [step_arrive] at hledger' hmissing
        exact absurd (hledger'.hasTaken_of_hasAll hd hall hm hr) hmissing
      | overlooked _ hlate hforgotten hsame =>
        refine ⟨hlate, hforgotten, m, hm, hr, ?_⟩
        rwa [hasTaken_arrive hsame, Bool.not_eq_true] at hmissing
    · rintro ⟨hlate, hforgotten, m, hm, hr, hmissing⟩
      obtain ⟨hacks, hsame⟩ := hattends.hears.receive_late hpos few' hlate hforgotten
      refine ⟨hacks, fun hall => ?_⟩
      have htaken := hall m hm hr
      rw [hasTaken_arrive hsame, hmissing] at htaken
      cases htaken
  · have hconserves := hattentive.conserves hvalid hmtu few few'
    refine ⟨fun s hs => ?_, hconserves.conserved⟩
    obtain ⟨d, hd, heq, hall⟩ := hconserves.pending s hs
    exact ⟨d, hd, heq, fun m hm hr => hledger.hasTaken_of_hasAll hd hall hm hr⟩

/-- The window is one number wide. The first of three datagrams is lost, and there is no room for
the others yet. -/
def forgotten : Exchange :=
  let sent := (fresh { receiveWindow := 1 } 400 400).after [.submit .reliableOrdered 0 [0],
    .transmit 0 1, .submit .reliableOrdered 0 [1], .transmit 0 1, .submit .reliableOrdered 0 [2],
    .transmit 0 1]
  sent.after ((sent.datagrams.drop 1).map .arrive)

theorem run_forgotten : Run { receiveWindow := 1 } 400 400 Carried forgotten :=
  (Run.start.follow (by decide +kernel)).follow (by decide +kernel)

theorem acknowledged_untaken_forgotten : ∃ d ∈ forgotten.datagrams, d.sequence = Serial.ofNat 1 ∧
    forgotten.Acknowledges d ∧ ¬ (forgotten.step (.arrive d)).HasTakenAll d := by
  have hoverlooked : ∃ d ∈ forgotten.datagrams, d.sequence = Serial.ofNat 1 ∧
      forgotten.Overlooked d := by
    decide +kernel
  obtain ⟨d, hd, hsequence, hoverlooked⟩ := hoverlooked
  have hiff := (acknowledged_untaken_iff (by decide) (by decide) run_forgotten
    (by decide +kernel) (by decide +kernel)).1 d hd
  exact ⟨d, hd, hsequence, hiff.2 hoverlooked⟩

end Exchange

end DatagramTransport

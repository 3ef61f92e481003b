import DatagramTransport.Proofs.Completion
import DatagramTransport.Proofs.Delivery

/-!
# Sequence — the newest is not followed by anything older

A sequenced message is delivered when it comes, unless one that was accepted later on its channel
was delivered before. So **what came out of a channel is a subsequence of what went in**: some of it
may be missing, but nothing comes twice or after something newer. Reliable and unreliable ones, and
those that had to be split, draw their places from one counter, and for a channel it is one and the
same thing when they are complete.

The invariant is about a bound: what came out is among the first `n` of what went in, and `n` is
what the channel waits for.
-/

set_option autoImplicit false

namespace DatagramTransport

namespace Delivery

def isSequencedOn (channel : UInt8) (d : Delivery) : Bool :=
  d.reliability.isSequenced && d.channel == channel

end Delivery

namespace Submission

/-- What comes out if it comes out with a channel. -/
def deliveryOn (s : Submission) : Delivery := ⟨s.sentAs, s.channel, s.payload⟩

end Submission

namespace Parcel

theorem mark?_of_isSequenced {p : Parcel} (h : p.reliability.isSequenced = true) :
    p.mark? = some ⟨Serial.ofNat p.place, p.channel⟩ := by
  rw [mark?, if_pos]
  rw [Reliability.hasOrder, h, Bool.or_true]

end Parcel

namespace Receiver

variable {ins ins' : UInt8 → List Delivery} {out ds : List Delivery} {cs cs' : Channels}
  {m : Message} {p : Parcel}

/-! ## What a release does to the sequenced side -/

theorem nextSequenced_takeOrdered (index : Serial) (payload : Octets) (c : Channel) :
    (c.takeOrdered index payload).2.nextSequenced = c.nextSequenced := by
  unfold Channel.takeOrdered
  simp only
  split
  · rfl
  · split <;> rfl

/-- What is not sequenced changes nothing in what a channel waits for. -/
theorem nextSequenced_release (hnot : m.reliability.isSequenced = false)
    (h : release m cs = .ok (ds, cs')) (c : UInt8) :
    (cs'.get? c).map Channel.nextSequenced = (cs.get? c).map Channel.nextSequenced := by
  unfold release at h
  split at h
  · cases h
    rfl
  next order _ =>
    split at h
    · cases hget : cs.get? order.channel with
      | none =>
        simp only [Channels.takeOrdered, hget] at h
        cases h
      | some channel =>
        simp only [Channels.takeOrdered, hget] at h
        cases h
        rw [get?_set (lt_length_of_get? hget)]
        split
        next heq => rw [← heq, hget, Option.map_some, Option.map_some, nextSequenced_takeOrdered]
        next => rfl
    · rw [if_neg (by simp [hnot])] at h
      cases h
      rfl

/-- What is sequenced comes out if it is what its channel waits for or something after that. -/
theorem release_of_sequenced {order : OrderMark} (horder : m.order = some order)
    (hs : m.reliability.isSequenced = true) (h : release m cs = .ok (ds, cs')) :
    ∃ channel, cs.get? order.channel = some channel ∧
      (((order.index = channel.nextSequenced ∨ order.index.isAfter channel.nextSequenced = true) ∧
          ds = [⟨m.reliability, m.channel, m.payload⟩] ∧
          cs' = cs.set order.channel { channel with nextSequenced := order.index.next }) ∨
        (ds = [] ∧ cs' = cs.set order.channel channel)) := by
  have hordered : m.reliability.isOrdered = false := by
    cases hr : m.reliability <;> simp_all [Reliability.isSequenced, Reliability.isOrdered]
  simp only [release, horder, hordered, hs, Bool.false_eq_true, if_false, if_true,
    Channels.takeSequenced] at h
  cases hget : cs.get? order.channel with
  | none =>
    rw [hget] at h
    cases h
  | some channel =>
    rw [hget] at h
    refine ⟨channel, rfl, ?_⟩
    unfold Channel.takeSequenced at h
    by_cases hnew : order.index = channel.nextSequenced
        ∨ order.index.isAfter channel.nextSequenced = true
    · simp only [if_pos hnew, if_true] at h
      cases h
      exact Or.inl ⟨hnew, rfl, rfl⟩
    · simp only [if_neg hnew, Bool.false_eq_true, if_false] at h
      cases h
      exact Or.inr ⟨rfl, rfl⟩

/-! ## The invariant -/

/-- What came out of a channel is among what went in before the place that it waits for. -/
def Ascends (ins : UInt8 → List Delivery) (out : List Delivery) (cs : Channels) : Prop :=
  ∀ c, ∃ n ≤ (ins c).length,
    (∀ channel ∈ cs.get? c, channel.nextSequenced = Serial.ofNat n) ∧
      (out.filter (Delivery.isSequencedOn c)).Sublist ((ins c).take n)

theorem ascends_fresh (ins : UInt8 → List Delivery) (count window : Nat) :
    Ascends ins [] (Channels.fresh count window) := by
  intro c
  refine ⟨0, Nat.zero_le _, fun channel hchannel => ?_, List.nil_sublist _⟩
  simp only [Channels.get?, Channels.fresh, Option.mem_def, List.getElem?_replicate] at hchannel
  split at hchannel
  · cases hchannel
    rfl
  · cases hchannel

theorem Ascends.mono (h : Ascends ins out cs) (hins : ∀ c, ins c <+: ins' c) :
    Ascends ins' out cs := by
  intro c
  obtain ⟨n, hn, hnext, hout⟩ := h c
  obtain ⟨more, hmore⟩ := hins c
  refine ⟨n, Nat.le_trans hn (hins c).length_le, hnext, ?_⟩
  rwa [← hmore, List.take_append_of_le_length hn]

theorem Ascends.sublist (h : Ascends ins out cs) (c : UInt8) :
    (out.filter (Delivery.isSequencedOn c)).Sublist (ins c) := by
  obtain ⟨n, -, -, hout⟩ := h c
  exact hout.trans (List.take_sublist n _)

/-- What is not sequenced does not matter. -/
theorem Ascends.other (h : Ascends ins out cs)
    (hds : ∀ d ∈ ds, d.reliability.isSequenced = false)
    (hcs : ∀ c, (cs'.get? c).map Channel.nextSequenced = (cs.get? c).map Channel.nextSequenced) :
    Ascends ins (out ++ ds) cs' := by
  intro c
  obtain ⟨n, hn, hnext, hout⟩ := h c
  have hnone : ds.filter (Delivery.isSequencedOn c) = [] := by
    rw [List.filter_eq_nil_iff]
    intro d hd
    simp [Delivery.isSequencedOn, hds d hd]
  refine ⟨n, hn, fun channel' hchannel' => ?_, by rwa [List.filter_append, hnone, List.append_nil]⟩
  have hsame := hcs c
  rw [hchannel', Option.map_some] at hsame
  obtain ⟨channel, hchannel, heq⟩ := Option.map_eq_some_iff.1 hsame.symm
  rw [← heq]
  exact hnext channel hchannel

/-- One channel gets a new bound, and something comes out of it. -/
theorem Ascends.update (h : Ascends ins out cs) {c : UInt8} {channel : Channel} {n : Nat}
    (hlt : c.toNat < cs.channels.length) (hn : n ≤ (ins c).length)
    (hnext : channel.nextSequenced = Serial.ofNat n) (hds : ∀ d ∈ ds, d.channel = c)
    (hout : ((out ++ ds).filter (Delivery.isSequencedOn c)).Sublist ((ins c).take n)) :
    Ascends ins (out ++ ds) (cs.set c channel) := by
  intro c'
  by_cases hc : c = c'
  · subst hc
    refine ⟨n, hn, fun channel' hchannel' => ?_, hout⟩
    rw [get?_set hlt, if_pos rfl, Option.mem_some_iff] at hchannel'
    rw [← hchannel', hnext]
  · obtain ⟨n', hn', hnext', hout'⟩ := h c'
    have hnone : ds.filter (Delivery.isSequencedOn c') = [] := by
      rw [List.filter_eq_nil_iff]
      intro d hd
      simp [Delivery.isSequencedOn, hds d hd, hc]
    refine ⟨n', hn', fun channel' hchannel' => hnext' channel' ?_, ?_⟩
    · rwa [get?_set hlt, if_neg hc] at hchannel'
    · rwa [List.filter_append, hnone, List.append_nil]

/-- **What comes out now has its place at or after the bound, and the bound moves behind it.** -/
theorem Ascends.release_sequenced (h : Ascends ins out cs)
    (few : (ins p.channel).length < 8388608) (hs : p.reliability.isSequenced = true)
    (hplace : (ins p.channel)[p.place]? = some p.submission.deliveryOn)
    (hrelease : release p.whole cs = .ok (ds, cs')) : Ascends ins (out ++ ds) cs' := by
  have hs' : p.whole.reliability.isSequenced = true := p.isSequenced_sentAs.trans hs
  have horder : p.whole.order = some ⟨Serial.ofNat p.place, p.channel⟩ :=
    Parcel.mark?_of_isSequenced hs
  have hself : (⟨p.whole.reliability, p.whole.channel, p.whole.payload⟩ : Delivery)
      = p.submission.deliveryOn := by
    simp only [Message.channel, horder, Submission.deliveryOn, Parcel.sentAs_submission]
    rfl
  obtain ⟨channel, hget, hcases⟩ := release_of_sequenced horder hs' hrelease
  obtain ⟨hin, hat⟩ := List.getElem?_eq_some_iff.1 hplace
  obtain ⟨n, hn, hnext, hout⟩ := h p.channel
  have hlt := lt_length_of_get? hget
  have hnext' := hnext channel hget
  simp only [hself, hnext'] at hcases
  rcases hcases with ⟨hnew, rfl, rfl⟩ | ⟨rfl, rfl⟩
  · -- the bound is no further than the place
    have hle : n ≤ p.place := (Serial.eq_or_isAfter_ofNat (by omega) (by omega)).1 hnew
    have hon : p.submission.deliveryOn.isSequencedOn p.channel = true := by
      simp only [Delivery.isSequencedOn, Submission.deliveryOn, Parcel.sentAs_submission,
        Parcel.isSequenced_sentAs, hs, Bool.true_and]
      exact beq_self_eq_true _
    refine h.update hlt hin (Serial.next_ofNat p.place) (fun d hd => ?_) ?_
    · rw [List.mem_singleton.1 hd]
      rfl
    · rw [List.filter_append, List.filter_cons_of_pos hon, List.filter_nil,
        List.take_succ_eq_append_getElem hin, hat]
      exact (hout.trans (List.take_sublist_take_left hle)).append (List.Sublist.refl _)
  · exact h.update hlt hn hnext' (List.forall_mem_nil _) (by rwa [List.append_nil])

theorem Ascends.release (h : Ascends ins out cs) (few : ∀ c, (ins c).length < 8388608)
    (hplace : p.reliability.isSequenced = true →
      (ins p.channel)[p.place]? = some p.submission.deliveryOn)
    (hrelease : release p.whole cs = .ok (ds, cs')) : Ascends ins (out ++ ds) cs' := by
  by_cases hs : p.reliability.isSequenced = true
  · exact h.release_sequenced (few _) hs (hplace hs) hrelease
  · have hnot : p.whole.reliability.isSequenced = false := by
      rw [Bool.not_eq_true] at hs
      exact p.isSequenced_sentAs.trans hs
    refine h.other (fun d hd => ?_) (nextSequenced_release hnot hrelease)
    rw [reliability_of_release hrelease d hd, hnot]

/-! ## Taking in messages -/

variable {settings : Settings} {ps done : List Parcel} {t : Tally} {r : Receiver} {i : Nat}
  {ms : List Message}

/-- The sequenced parcels of a channel, as they would come out. -/
def sequencedInput (ps : List Parcel) (c : UInt8) : List Delivery :=
  (ps.filter (Parcel.isSequencedOn c)).map fun p => p.submission.deliveryOn

theorem length_sequencedInput_lt (hm : Manifest settings ps t) (c : UInt8) :
    (sequencedInput ps c).length < 8388608 := by
  rw [sequencedInput, List.length_map]
  have hfilter := List.length_filter_le (Parcel.isSequencedOn c) ps
  have hcreated := Laid.length_le_length_created ps
  have hfew := hm.few
  omega

theorem Ascends.take (h : Ascends (sequencedInput ps) out r.channels) (hm : Manifest settings ps t)
    (spaced : settings.receiveWindow ≤ 131071 ∨ t.cuts ≤ 65536)
    (hreception : Reception settings ps t done out r) (hp : p ∈ ps) (hi : i < p.pieces.length) :
    Ascends (sequencedInput ps) (out ++ (r.take (p.message i p.pieces[i])).1.deliveries)
      (r.take (p.message i p.pieces[i])).2.channels := by
  rcases take_cases (p.message i p.pieces[i]) r with ⟨hnone, hsame⟩ | ⟨whole, hwhole, hrelease⟩
  · rw [hnone, hsame, List.append_nil]
    exact h
  · obtain rfl := hreception.completed?_eq hm spaced hp hi hwhole
    refine h.release (length_sequencedInput_lt hm) (fun hs => ?_) hrelease
    rw [sequencedInput, List.getElem?_map,
      hm.laid.getElem?_sequenced hp (Parcel.isSequencedOn_iff.2 ⟨hs, rfl⟩)]
    rfl

theorem Ascends.collect (h : Ascends (sequencedInput ps) out r.channels)
    (hm : Manifest settings ps t) (spaced : settings.receiveWindow ≤ 131071 ∨ t.cuts ≤ 65536)
    (hpos : 0 < settings.maxFragmentCount) (hreception : Reception settings ps t done out r)
    (hms : ∀ m ∈ ms, m ∈ Laid.created ps) :
    Ascends (sequencedInput ps)
      (out ++ (Stepwise.collect Receiver.take ms r).1.flatMap Intake.deliveries)
      (Stepwise.collect Receiver.take ms r).2.channels := by
  induction ms generalizing r done out with
  | nil => simpa using h
  | cons m ms ih =>
    obtain ⟨p, hp, hmem⟩ := List.mem_flatMap.1 (hms m List.mem_cons_self)
    obtain ⟨i, hi, rfl⟩ := Parcel.mem_messages.1 hmem
    obtain ⟨done', hreception'⟩ := hreception.take hm spaced hpos hp hi
    have hcollect := ih (h.take hm spaced hreception hp hi) hreception' fun m' hm' =>
      hms m' (List.mem_cons_of_mem _ hm')
    rw [Stepwise.collect_cons, List.flatMap_cons, ← List.append_assoc]
    exact hcollect

theorem Ascends.receive (h : Ascends (sequencedInput ps) out r.channels)
    (hm : Manifest settings ps t) (spaced : settings.receiveWindow ≤ 131071 ∨ t.cuts ≤ 65536)
    (hpos : 0 < settings.maxFragmentCount) (hreception : Reception settings ps t done out r)
    {d : Datagram} (hd : ∀ m ∈ d.messages, m ∈ Laid.created ps) :
    Ascends (sequencedInput ps) (out ++ (r.receive d).1) (r.receive d).2.channels := by
  rcases receive_cases d r with ⟨r₀, heq, halike, -⟩ | ⟨r', heq, halike, -⟩
  · have hreception₀ :=
      hreception.congr halike.messages_eq halike.assembler_eq halike.channels_eq
    rw [← halike.channels_eq] at h
    obtain ⟨r', hunpack, -, -, hchannels, -⟩ := unpack_eq d r₀
    rw [heq, hunpack, hchannels]
    exact h.collect hm spaced hpos hreception₀ hd
  · rw [heq, List.append_nil]
    show Ascends _ _ r'.channels
    rwa [halike.channels_eq]

end Receiver

namespace Exchange

variable {settings : Settings} {mtu mtu' : UInt16} {w : Exchange} {e : Event}
  {ps done : List Parcel} {t : Tally}

def sequencedIn (w : Exchange) (c : UInt8) : List Delivery :=
  (w.accepted.filter (Submission.isSequencedOn c)).map Submission.deliveryOn

def sequencedOut (w : Exchange) (c : UInt8) : List Delivery :=
  w.delivered.filter (Delivery.isSequencedOn c)

theorem sequencedIn_eq (h : w.accepted = ps.map Parcel.submission) :
    w.sequencedIn = Receiver.sequencedInput ps := by
  funext c
  rw [sequencedIn, h, List.filter_map, List.map_map]
  rfl

theorem sequencedIn_grows (w : Exchange) (e : Event) (c : UInt8) :
    w.sequencedIn c <+: (w.step e).sequencedIn c := by
  obtain ⟨more, hmore⟩ := accepted_step w e
  rw [sequencedIn, sequencedIn, hmore, List.filter_append, List.map_append]
  exact List.prefix_append _ _

def Ascends (w : Exchange) : Prop :=
  Receiver.Ascends w.sequencedIn w.delivered w.target.receiver.channels

theorem Ascends.step (h : w.Ascends) (hpos : 0 < settings.maxFragmentCount)
    (haccount : Account settings ps t done w) (few : Few settings w) (here : w.Carried e) :
    (w.step e).Ascends := by
  have hgrown : Receiver.Ascends (w.step e).sequencedIn w.delivered w.target.receiver.channels :=
    Receiver.Ascends.mono h (sequencedIn_grows w e)
  cases e with
  | arrive d =>
    have hins : (w.step (.arrive d)).sequencedIn = Receiver.sequencedInput ps :=
      sequencedIn_eq haccount.accepted_eq
    rw [hins] at hgrown
    have hreceive := hgrown.receive haccount.manifest (haccount.spaced few) hpos
      haccount.reception (haccount.sent d here)
    rw [← hins] at hreceive
    exact hreceive
  | submit r channel payload =>
    revert hgrown
    unfold Ascends
    simp only [Exchange.step]
    split <;> exact id
  | _ => exact hgrown

theorem Run.ascends (hvalid : settings.Valid) (hmtu : settings.minMtu ≤ mtu)
    (run : Run settings mtu mtu' Carried w) (few : Few settings w) : w.Ascends := by
  obtain ⟨-, hpos, -⟩ := hvalid.bounds
  induction run with
  | start => exact Receiver.ascends_fresh _ _ _
  | next before here ih =>
    obtain ⟨ps, t, done, haccount⟩ := before.account hvalid hmtu few.of_step
    exact (ih few.of_step).step hpos haccount few.of_step here

/-- **What comes out of a channel with the guarantee of being the newest is a subsequence of what
went in with it**: each payload once at most, none after one that was accepted later, and none
changed. -/
theorem sequenced_sublist (hvalid : settings.Valid) (hmtu : settings.minMtu ≤ mtu)
    (hwindow : settings.receiveWindow ≤ 65536) (run : Run settings mtu mtu' Carried w)
    (few : w.created.length < Serial.half) (c : UInt8) :
    (w.sequencedOut c).Sublist (w.sequencedIn c) :=
  (run.ascends hvalid hmtu ⟨few, Or.inl (by omega)⟩).sublist c

/-- The second of four is split and complete after the third, and the fourth comes twice. -/
def outdated : Exchange :=
  let sent := (fresh {} 400 400).after [.submit .unreliableSequenced 0 [1], .transmit 0 1,
    .submit .unreliableSequenced 0 (List.replicate 500 2), .transmit 0 2,
    .submit .reliableSequenced 0 [3], .transmit 0 1, .submit .unreliableSequenced 0 [4],
    .transmit 0 1]
  sent.after (([0, 1, 3, 2, 4, 4].filterMap fun i => sent.datagrams[i]?).map .arrive)

theorem run_outdated : Run {} 400 400 Carried outdated :=
  (Run.start.follow (by decide +kernel)).follow (by decide +kernel)

theorem sequenced_sublist_outdated :
    outdated.sequencedOut 0 = [⟨.unreliableSequenced, 0, [1]⟩, ⟨.reliableSequenced, 0, [3]⟩,
        ⟨.unreliableSequenced, 0, [4]⟩] ∧
      (outdated.sequencedOut 0).Sublist (outdated.sequencedIn 0) :=
  ⟨by decide +kernel, sequenced_sublist (by decide) (by decide) (by decide) run_outdated
    (by decide +kernel) 0⟩

end Exchange

end DatagramTransport

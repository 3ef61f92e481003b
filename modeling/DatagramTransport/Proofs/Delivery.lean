import DatagramTransport.Proofs.Conservation

/-!
# Delivery — what comes out is what went in

Two statements about a whole exchange. **On each channel, the ordered payloads that came out are a
prefix of those that went in**, at every point of every run, whatever is lost, repeated or delayed.
And **once the sender has nothing left to do, everything came out**: all of the ordered payloads in
their order, and each of the reliable ones without an order once.

The first needs no assumption about the network. The second needs that no copy is so late that it is
acknowledged for its number alone.
-/

set_option autoImplicit false

namespace DatagramTransport

namespace Submission

def sentAs (s : Submission) : Reliability :=
  if 1 < s.messages.length then s.reliability.ofFragments else s.reliability

/-- It is to come out, and no order has a say in when. -/
def isPlainReliable (s : Submission) : Bool := s.sentAs.isReliable && !s.reliability.hasOrder

def delivery (s : Submission) : Delivery := ⟨s.sentAs, 0, s.payload⟩

end Submission

@[simp] theorem Parcel.sentAs_submission (p : Parcel) : p.submission.sentAs = p.sentAs := by
  simp [Submission.sentAs, Parcel.submission, Parcel.sentAs, Parcel.isSplit]

namespace Exchange

variable {settings : Settings} {mtu mtu' : UInt16} {w : Exchange} {ps done : List Parcel}
  {t : Tally}

/-! ## Order -/

/-- **Nothing is missing, repeated or out of order in what came out of a channel**, and no payload
is another than the one that went in. -/
theorem ordered_prefix (hvalid : settings.Valid) (hmtu : settings.minMtu ≤ mtu)
    (hwindow : settings.receiveWindow ≤ 65536) (run : Run settings mtu mtu' Carried w)
    (few : w.created.length < Serial.half) (c : UInt8) : w.orderedOut c <+: w.orderedIn c := by
  obtain ⟨ps, t, done, h⟩ := run.account hvalid hmtu ⟨few, Or.inl (by omega)⟩
  rw [orderedIn_eq h.accepted_eq]
  exact h.reception.output_prefix h.manifest c

/-- Two payloads are sent, and the second comes first and twice. -/
def overtaken : Exchange :=
  let sent := (fresh {} 400 400).after [.submit .reliableOrdered 0 [1], .transmit 0 1,
    .submit .reliableOrdered 0 [2], .transmit 0 1]
  sent.after ((sent.datagrams.reverse ++ sent.datagrams).map .arrive)

theorem run_overtaken : Run {} 400 400 Carried overtaken :=
  (Run.start.follow (by decide +kernel)).follow (by decide +kernel)

theorem ordered_prefix_overtaken : overtaken.orderedOut 0 = [[1], [2]] ∧
    overtaken.orderedOut 0 <+: overtaken.orderedIn 0 :=
  ⟨by decide +kernel, ordered_prefix (by decide) (by decide) (by decide) run_overtaken
    (by decide +kernel) 0⟩

/-! ## Completeness -/

def IsComplete (w : Exchange) : Prop :=
  ∀ m ∈ w.created, m.reliability.isReliable = true → w.hasTaken m = true

/-- Nothing is left with an idle sender, so all is at the receiver. -/
theorem Conserves.isComplete (h : Conserves w) (hidle : w.source.sender.Idle) : w.IsComplete :=
  fun m hm hr => (h.conserved m hm hr).resolve_left hidle.not_keeps

theorem Account.mem_done (h : Account settings ps t done w) (hvalid : settings.Valid)
    (hfits : settings.maxFragmentsPerSend ≤ settings.maxFragmentCount) (hall : w.IsComplete)
    {p : Parcel} (hp : p ∈ ps) (hr : p.isReliable = true) : p ∈ done := by
  obtain ⟨-, hpos, -⟩ := hvalid.bounds
  refine (h.reception.mem_done_iff h.manifest hpos hfits hp hr).2 fun i hi => ?_
  exact (h.hasTaken_message_iff hp hr hi).1 (hall _ (h.mem_created hp hi) hr)

theorem Account.plainReliable_eq (h : Account settings ps t done w) :
    (w.accepted.filter Submission.isPlainReliable).map Submission.delivery
      = (ps.filter fun p => p.isPlain && p.isReliable).map Parcel.delivery := by
  rw [h.accepted_eq, List.filter_map, List.map_map]
  -- both sides choose the same parcels
  have hfilter : ps.filter (Submission.isPlainReliable ∘ Parcel.submission)
      = ps.filter fun p => p.isPlain && p.isReliable := by
    refine List.filter_congr fun p _ => ?_
    rw [Function.comp, Submission.isPlainReliable, Parcel.sentAs_submission, Bool.and_comm]
    rfl
  rw [hfilter]
  refine List.map_congr_left fun p _ => ?_
  rw [Function.comp, Submission.delivery, Parcel.sentAs_submission]
  rfl

/-- **Once an idle sender has nothing left, everything that was to come out did so once**, if every
copy of a datagram comes less than a window behind the highest number before it. -/
theorem complete_of_idle (hvalid : settings.Valid) (hmtu : settings.minMtu ≤ mtu)
    (hwindow : settings.receiveWindow ≤ 65536)
    (hfits : settings.maxFragmentsPerSend ≤ settings.maxFragmentCount)
    (run : Run settings mtu mtu' (Timely settings.receiveWindow) w)
    (few : w.created.length < Serial.half) (few' : w.datagrams.length < Serial.half)
    (hidle : w.source.sender.Idle) :
    (∀ c, w.orderedOut c = w.orderedIn c) ∧
      (w.delivered.filter fun d => d.reliability.isReliable && d.isPlain).Perm
        ((w.accepted.filter Submission.isPlainReliable).map Submission.delivery) := by
  have hattentive := run.attentive_of_timely hvalid hmtu few few'
  have hall := (hattentive.conserves hvalid hmtu few few').isComplete hidle
  obtain ⟨ps, t, done, h⟩ :=
    (run.mono fun _ _ h => h.carried).account hvalid hmtu ⟨few, Or.inl (by omega)⟩
  have hdone : ∀ p ∈ ps, p.isReliable = true → p ∈ done := fun p hp hr =>
    h.mem_done hvalid hfits hall hp hr
  refine ⟨fun c => ?_, ?_⟩
  · rw [orderedIn_eq h.accepted_eq]
    refine h.reception.output_eq h.manifest c fun p hp hon => hdone p hp ?_
    exact Parcel.isReliable_of_isOrdered (Parcel.isOrderedOn_iff.1 hon).1
  · rw [h.plainReliable_eq]
    exact h.reception.plain_perm h.manifest hdone

/-- The first datagram is lost and sent again, and the others come before its second copy. -/
def recovered : Exchange :=
  let sent := (fresh {} 400 400).after [.submit .reliableOrdered 0 [1], .transmit 0 1,
    .expire 2000000000, .submit .reliable 0 (List.replicate 500 7), .transmit 2000000000 9]
  sent.after ((sent.datagrams.drop 1).reverse.flatMap fun d =>
    [.arrive d, .report 0 1, .hear 0 ⟨.ack, [.single d.sequence]⟩])

theorem run_recovered : Run {} 400 400 (Timely 2048) recovered :=
  (Run.start.follow (by decide +kernel)).follow (by decide +kernel)

theorem complete_of_idle_recovered :
    recovered.delivered
        = [⟨.reliable, 0, List.replicate 500 7⟩, ⟨.reliableOrdered, 0, [1]⟩] ∧
      recovered.orderedOut 0 = recovered.orderedIn 0 :=
  ⟨by decide +kernel, (complete_of_idle (by decide) (by decide) (by decide) (by decide)
    run_recovered (by decide +kernel) (by decide +kernel) (by decide +kernel)).1 0⟩

end Exchange

end DatagramTransport

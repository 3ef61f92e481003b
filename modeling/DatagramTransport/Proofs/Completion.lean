import DatagramTransport.Proofs.Exchange

/-!
# Completion — what fragments are put together to

A message that is taken in completes another one, which is itself unless it was split, and what is
delivered is delivered because of that. **What is put together is the payload of one submission**,
whatever came in between, lost or repeated, and although fragments carry a number of 16 bits only:
when a number is used again the window has left the submission that had it before.

It has if it is narrow enough. A window of more than 131071 indexes can hold fragments of two
submissions with the same number, since 65536 of them may take no more than two indexes each. Then
the assembler puts the ones to the others, as their number is all that it goes by; how that comes
about is shown in `Mixture`.
-/

set_option autoImplicit false

namespace DatagramTransport

namespace Receiver

variable {settings : Settings} {ps done : List Parcel} {t : Tally} {out : List Delivery}
  {r : Receiver} {p : Parcel} {m whole : Message} {ms : List Message} {i : Nat}

/-- The message that is complete when this one is taken in now. -/
def completed? (m : Message) (r : Receiver) : Option Message :=
  if r.admission m = .fresh then
    match (r.assembler.take m).1 with
    | .ok whole => whole
    | .error _ => none
  else none

/-- What fragments are put together to while these messages are taken in, one after the other. -/
def reassembled : List Message → Receiver → List Message
  | [], _ => []
  | m :: ms, r =>
    (if m.fragment.isSome then (r.completed? m).toList else []) ++ reassembled ms (r.take m).2

theorem completed?_eq_some_iff : r.completed? m = some whole ↔
    r.admission m = .fresh ∧ (r.assembler.take m).1 = .ok (some whole) := by
  unfold completed?
  split
  next hadmission =>
    split
    next heq => simp [hadmission, heq]
    next heq => simp [heq]
  next hadmission => simp [hadmission]

/-- Whatever is delivered, and whatever happens to a channel, is because of what is complete. -/
theorem take_cases (m : Message) (r : Receiver) :
    ((r.take m).1.deliveries = [] ∧ (r.take m).2.channels = r.channels) ∨
      ∃ whole, r.completed? m = some whole ∧ release whole r.channels
        = .ok ((r.take m).1.deliveries, (r.take m).2.channels) := by
  unfold Receiver.take completed?
  cases hadmission : r.admission m with
  | duplicate => exact Or.inl ⟨rfl, rfl⟩
  | beyond => exact Or.inl ⟨rfl, rfl⟩
  | fresh =>
    obtain ⟨messages, hregister⟩ := register_frame m r
    simp only [if_true, hregister, process]
    cases htake : r.assembler.take m with
    | mk result assembler =>
      cases result with
      | error cause => exact Or.inl ⟨rfl, rfl⟩
      | ok result =>
        cases result with
        | none => exact Or.inl ⟨rfl, rfl⟩
        | some whole =>
          simp only
          cases hrelease : release whole r.channels with
          | error cause => exact Or.inl ⟨rfl, rfl⟩
          | ok result => exact Or.inr ⟨whole, rfl, hrelease⟩

theorem take_of_admission (h : r.admission m = .fresh) :
    (r.take m).2.messages = (r.register m).messages ∧
      (r.take m).2.assembler = (r.assembler.take m).2 := by
  obtain ⟨messages, hregister⟩ := register_frame m r
  simp only [Receiver.take, h, hregister, process]
  split
  · exact ⟨rfl, rfl⟩
  · exact ⟨rfl, rfl⟩
  · split <;> exact ⟨rfl, rfl⟩

/-- Whatever comes out with a message comes out with its guarantee. -/
theorem reliability_of_release {channels channels' : Channels} {deliveries : List Delivery}
    (h : release m channels = .ok (deliveries, channels')) :
    ∀ d ∈ deliveries, d.reliability = m.reliability := by
  have hself : ∀ d ∈ [(⟨m.reliability, m.channel, m.payload⟩ : Delivery)],
      d.reliability = m.reliability := fun d hd => by rw [List.mem_singleton.1 hd]
  unfold release at h
  split at h
  · cases h
    exact hself
  · split at h
    · split at h
      · cases h
      · cases h
        intro d hd
        obtain ⟨payload, -, rfl⟩ := List.mem_map.1 hd
        rfl
    · split at h
      · split at h
        · cases h
        · cases h
          intro d hd
          split at hd
          · exact hself d hd
          · cases hd
      · cases h
        exact hself

theorem admission_eq_fresh_iff {s : Serial} (hindex : m.index = some s) :
    r.admission m = .fresh ↔ r.messages.check s = .fresh ∧ r.hasRoom m = true := by
  simp only [admission, hindex]
  cases r.messages.check s <;> simp

/-- **A message of a parcel completes this parcel or nothing.** -/
theorem Reception.completed?_eq (hm : Manifest settings ps t)
    (spaced : settings.receiveWindow ≤ 131071 ∨ t.cuts ≤ 65536)
    (h : Reception settings ps t done out r) (hp : p ∈ ps) (hi : i < p.pieces.length)
    (hwhole : r.completed? (p.message i p.pieces[i]) = some whole) : whole = p.whole := by
  obtain ⟨hadmission, hwhole⟩ := completed?_eq_some_iff.1 hwhole
  cases hs : p.isSplit with
  | false =>
    rw [(Parcel.message_eq_whole hs hi).2] at hwhole
    exact (Option.some.inj (Except.ok.inj hwhole)).symm
  | true =>
    have hr := Parcel.isReliable_of_isSplit hs
    have hlength : p.pieces.length < 4294967296 := Nat.lt_trans (hm.length_lt hp) (by decide)
    obtain ⟨hfresh, hroom⟩ :=
      (admission_eq_fresh_iff (Parcel.index_message hr i p.pieces[i])).1 hadmission
    by_cases hfits : p.pieces.length ≤ r.assembler.maxFragmentCount
    · obtain ⟨-, hnew, -⟩ := h.has_insert hm (hm.index_lt hp hr hi) hfresh
      obtain ⟨result, assembler, htake, -, -, -, hresult⟩ :=
        h.collects.take hp hs hfits hlength hi hnew (hasRoom_iff.1 hroom).1
          (h.alone hm spaced hp hs hi hfresh)
          fun q hq hqs hne j hj => hm.apart hp hr hi hq (Parcel.isReliable_of_isSplit hqs) hne hj
      rw [htake] at hwhole
      rcases hresult with ⟨-, rfl⟩ | ⟨-, rfl⟩
      · exact (Option.some.inj (Except.ok.inj hwhole)).symm
      · cases hwhole
    · obtain ⟨cause, htake⟩ := Assembler.take_of_not_fits hs hlength hi hfits
      rw [htake] at hwhole
      cases hwhole

theorem Reception.reassembled (hm : Manifest settings ps t)
    (spaced : settings.receiveWindow ≤ 131071 ∨ t.cuts ≤ 65536)
    (hpos : 0 < settings.maxFragmentCount) (h : Reception settings ps t done out r)
    (hms : ∀ m ∈ ms, m ∈ Laid.created ps) :
    ∀ m ∈ reassembled ms r, ∃ p ∈ ps, p.isSplit = true ∧ m = p.whole := by
  induction ms generalizing r done out with
  | nil => intro m hmem; cases hmem
  | cons m ms ih =>
    obtain ⟨p, hp, hmem⟩ := List.mem_flatMap.1 (hms m List.mem_cons_self)
    obtain ⟨i, hi, rfl⟩ := Parcel.mem_messages.1 hmem
    obtain ⟨done', htake⟩ := h.take hm spaced hpos hp hi
    intro whole hwhole
    rcases List.mem_append.1 hwhole with hwhole | hwhole
    · split at hwhole
      next hfragment =>
        have hs : p.isSplit = true := by
          by_contra hs
          rw [show (p.message i p.pieces[i]).fragment = none from if_neg hs] at hfragment
          cases hfragment
        exact ⟨p, hp, hs, h.completed?_eq hm spaced hp hi (Option.mem_toList.1 hwhole)⟩
      next => cases hwhole
    · exact ih htake (fun m' hm' => hms m' (List.mem_cons_of_mem _ hm')) whole hwhole

end Receiver

namespace Exchange

variable {settings : Settings} {mtu mtu' : UInt16} {w : Exchange} {ps done : List Parcel}
  {t : Tally}

/-- **What is put together of fragments is the whole payload of one submission**, with everything
else as its first fragment says, if the window has no more than 131071 places or no more than 65536
payloads are split. -/
theorem reassembled_accepted (hvalid : settings.Valid) (hmtu : settings.minMtu ≤ mtu)
    (course : Course settings mtu mtu' Carried w) (few : w.created.length < Serial.half)
    (spaced : settings.receiveWindow ≤ 131071 ∨ w.splits ≤ 65536) {d : Datagram}
    (hd : d ∈ w.datagrams) {m : Message}
    (hm : m ∈ Receiver.reassembled d.messages w.target.receiver) :
    ∃ s ∈ w.accepted, 1 < s.messages.length ∧
      ∃ first ∈ s.messages.head?, m = { first with fragment := none, payload := s.payload } := by
  obtain ⟨-, hpos, -⟩ := hvalid.bounds
  obtain ⟨ps, t, done, h⟩ := course.account hvalid hmtu ⟨few, spaced⟩
  obtain ⟨p, hp, hs, rfl⟩ :=
    h.reception.reassembled h.manifest (h.spaced ⟨few, spaced⟩) hpos (h.sent d hd) m hm
  have haccepted : p.submission ∈ w.accepted := by
    rw [h.accepted_eq]
    exact List.mem_map_of_mem hp
  have hlength := p.length_pos
  refine ⟨p.submission, haccepted, ?_, p.message 0 p.pieces[0], ?_, rfl⟩
  · rw [Parcel.submission, Parcel.length_messages]
    exact of_decide_eq_true hs
  · show p.messages.head? = some _
    rw [Parcel.messages, List.head?_eq_getElem?, List.getElem?_mapIdx,
      List.getElem?_eq_getElem hlength]
    rfl

/-- Of each of two split payloads one fragment is there; the source forgot the first in between. -/
def interleaved : Exchange :=
  let sent := ((fresh {} 400 400).after [.submit .unreliable 0 (List.replicate 500 1),
    .transmit 0 9]).clear.after [.submit .reliable 0 (List.replicate 500 2), .transmit 0 9]
  sent.after (([0, 3].filterMap fun i => sent.datagrams[i]?).map .arrive)

example : interleaved.datagrams.map (fun d =>
    (Receiver.reassembled d.messages interleaved.target.receiver).map (·.payload))
      = [[], [List.replicate 500 1], [List.replicate 500 2], []] := by decide +kernel

end Exchange

end DatagramTransport

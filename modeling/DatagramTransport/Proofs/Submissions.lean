import DatagramTransport.Proofs.Acceptance

/-!
# Submissions — how a queue numbers what it takes

A queue is watched from outside: which payloads it took, and what came to stand at its end for each
of them. In between, messages are taken out and put back, and payloads are refused. **What is taken
is numbered without a gap**: the reliable messages among all of them, the places in the two orders
of a channel among the payloads of that channel, and the fragment numbers among the payloads that
were cut. Each payload has one place, in however many messages it is sent.

`Follows` ties this to the parcels: the payloads that were taken are parcels, each numbered from
where those before it have left the counters. The counters may have stood anywhere at first; a fresh
queue counts from zero.
-/

set_option autoImplicit false

namespace DatagramTransport

/-! ## What a payload is sent as -/

namespace Submission

/-- It is sent in more than one message. -/
def isCut (s : Submission) : Bool := 1 < s.messages.length

/-- The messages make up the payload, and each fits. -/
structure Covered (s : Submission) (capacity : Nat) : Prop where
  payload_eq : (s.messages.map Message.payload).flatten = s.payload
  encodedLength_le : ∀ m ∈ s.messages, m.encodedLength ≤ capacity
  index_isSome : ∀ m ∈ s.messages, m.index.isSome = m.reliability.isReliable
  /-- There is no place in an order unless the guarantee asks for it. -/
  order_none : s.reliability.hasOrder = false → ∀ m ∈ s.messages, m.order = none

/-- It is sent as the one message that it is. -/
def IsWhole (s : Submission) : Prop :=
  ∃ m, s.messages = [m] ∧ m.reliability = s.reliability ∧ m.fragment = none

/-- It is sent as fragments that have one number, announce how many they are and stand in their
order. -/
structure IsCutAs (s : Submission) (id : UInt16) (most : Nat) : Prop where
  two_le : 2 ≤ s.messages.length
  length_le : s.messages.length ≤ most
  fragment : ∀ (i : Nat) (m : Message), s.messages[i]? = some m →
    m.reliability = s.reliability.ofFragments ∧
      ∃ mark : FragmentMark, m.fragment = some mark ∧ mark.id = id ∧
        mark.count.toNat = s.messages.length ∧ mark.index.toNat = i

/-- The payloads of an order are counted up from zero, and each of their messages carries the
place. -/
def CountedUp (channel : UInt8) (payloads : List Submission) : Prop :=
  ∀ (i : Nat) (s : Submission), payloads[i]? = some s →
    ∀ m ∈ s.messages, m.order = some ⟨Serial.ofNat i, channel⟩

end Submission

namespace Parcel

variable {p : Parcel}

@[simp] theorem isCut_submission (p : Parcel) : p.submission.isCut = p.isSplit := by
  simp [Submission.isCut, submission, isSplit]

theorem covered_submission {capacity : Nat}
    (hfits : ∀ m ∈ p.messages, m.encodedLength ≤ capacity) :
    p.submission.Covered capacity where
  payload_eq := congrArg List.flatten p.map_payload_messages
  encodedLength_le := hfits
  index_isSome := by
    intro m hm
    obtain ⟨i, hi, rfl⟩ := mem_messages.1 hm
    show (if p.isReliable then some _ else none).isSome = p.isReliable
    cases p.isReliable <;> rfl
  order_none := by
    intro hnone m hm
    have hnone : p.reliability.hasOrder = false := hnone
    rw [order_of_mem hm, mark?, hnone]
    rfl

theorem isWhole_submission (h : p.isSplit = false) : p.submission.IsWhole := by
  refine ⟨p.whole, ?_, if_neg (by simp [h]), rfl⟩
  refine List.ext_getElem (by simp [submission, pieces_of_not_isSplit h]) fun i hi _ => ?_
  have hi' : i < p.pieces.length := by simpa [submission] using hi
  obtain ⟨rfl, hmessage⟩ := message_eq_whole h hi'
  simpa [submission, messages] using hmessage

theorem isCutAs_submission {most : Nat} (h : p.isSplit = true) (hle : p.pieces.length ≤ most)
    (hmost : most < 4294967296) : p.submission.IsCutAs (UInt16.ofNat p.cut) most where
  two_le := p.length_messages.symm ▸ of_decide_eq_true h
  length_le := p.length_messages.symm ▸ hle
  fragment := by
    intro i m hget
    obtain ⟨hi, rfl⟩ := getElem?_messages_eq_some_iff.1 hget
    refine ⟨if_pos h, _, fragment_message h i _, rfl, ?_, ?_⟩
    · simp only [submission, length_messages]
      exact UInt32.toNat_ofNat_of_lt' (show _ < 4294967296 by omega)
    · exact UInt32.toNat_ofNat_of_lt' (show _ < 4294967296 by omega)

theorem filter_submission (on : Submission → Bool) (on' : Parcel → Bool)
    (hon : ∀ p : Parcel, on p.submission = on' p) (ps : List Parcel) :
    (ps.map submission).filter on = (ps.filter on').map submission := by
  rw [List.filter_map]
  exact congrArg (List.map submission) (List.filter_congr fun p _ => hon p)

end Parcel

namespace Sender

namespace Queue

variable {q q' : Queue} {settings : Settings} {mtu : UInt16}

/-! ## A queue that is watched -/

inductive Call where
  | enqueue (r : Reliability) (channel : UInt8) (payload : Octets) (receipt : Option UInt32)
  /-- Takes messages out. -/
  | pack (limit : Nat)
  /-- Puts messages back to the front. -/
  | requeue (messages : List Outgoing)
  | clear
  deriving DecidableEq, Repr

/-- A queue, and what was put into it. -/
structure Watched where
  queue : Queue
  accepted : List Submission
  deriving DecidableEq, Repr

/-- What came to stand at the end of a queue. -/
def added (before after : Queue) : List Message :=
  (after.entries.toList.drop before.entries.toList.length).map (·.message)

/-- Whether a queue refuses what is put in. -/
def Call.isRefused (q : Queue) : Call → Bool
  | .enqueue r channel payload receipt => !(q.enqueue r channel payload receipt).isOk
  | _ => false

namespace Watched

/-- What a call does. The messages of a payload are read off the queue. -/
def step (s : Watched) : Call → Watched
  | .enqueue r channel payload receipt =>
    match s.queue.enqueue r channel payload receipt with
    | .error _ => s
    | .ok (_, queue) => ⟨queue, s.accepted ++ [⟨r, channel, payload, s.queue.added queue⟩]⟩
  | .pack limit => { s with queue := (s.queue.pack limit).2 }
  | .requeue messages => { s with queue := s.queue.requeue messages }
  | .clear => { s with queue := s.queue.clear }

def steps (s : Watched) (calls : List Call) : Watched := calls.foldl step s

def created (s : Watched) : List Message := s.accepted.flatMap Submission.messages

end Watched

@[simp] theorem added_append (q : Queue) (messages : List Message) (r : Reliability)
    (channel : UInt8) (receipt : Option UInt32) :
    q.added (q.append messages r channel receipt) = messages := by
  have hentries : (q.append messages r channel receipt).entries.toList
      = q.entries.toList ++ messages.map fun m => ⟨m, receipt, false⟩ := Fifo.toList_append _ _
  rw [added, hentries, List.drop_left, List.map_map]
  exact List.map_id messages

/-- What a call can do: it changes at most which messages wait, or it puts in a payload. -/
theorem Watched.step_cases (s : Watched) (call : Call) :
    (∃ entries, s.step call = { s with queue := { s.queue with entries := entries } }) ∨
      ∃ r channel payload receipt, s.queue.refusal? r channel payload = none ∧
        s.step call = ⟨s.queue.append (s.queue.messagesFor r channel payload) r channel receipt,
          s.accepted ++ [⟨r, channel, payload, s.queue.messagesFor r channel payload⟩]⟩ := by
  cases call with
  | enqueue r channel payload receipt =>
    cases hrefusal : s.queue.refusal? r channel payload with
    | some fault =>
      rw [step, enqueue_eq_error_iff.2 hrefusal]
      exact Or.inl ⟨s.queue.entries, rfl⟩
    | none =>
      refine Or.inr ⟨r, channel, payload, receipt, hrefusal, ?_⟩
      simp only [step, enqueue_of_accepted hrefusal, added_append]
  | pack limit => exact Or.inl ⟨_, rfl⟩
  | requeue messages => exact Or.inl ⟨_, rfl⟩
  | clear => exact Or.inl ⟨_, rfl⟩

/-! ## What is taken are parcels -/

/-- What was seen of a queue are parcels, and its counters stand behind them. -/
structure Follows (settings : Settings) (mtu : UInt16) (start : Tally) (ps : List Parcel) (t : Tally)
    (s : Watched) : Prop where
  accepted_eq : s.accepted = ps.map Parcel.submission
  numbered : Numbered start ps t
  counts : s.queue.Counts t
  suits : s.queue.Suits settings mtu
  pieces_le : ∀ p ∈ ps, p.isSplit = true → p.pieces.length ≤ settings.maxFragmentsPerSend
  fits : ∀ p ∈ ps, ∀ m ∈ p.messages,
    m.encodedLength ≤ maxPacketLength mtu - Datagram.headerLength

variable {start t : Tally} {ps : List Parcel} {s : Watched} {call : Call} {calls : List Call}

/-- Where the counters of a queue stand, as if they had never come round. -/
def tally (q : Queue) : Tally where
  index := q.nextIndex.val
  ordered := fun c => q.channels[c.toNat]?.elim 0 fun counters => counters.ordered.val
  sequenced := fun c => q.channels[c.toNat]?.elim 0 fun counters => counters.sequenced.val
  cuts := q.nextFragmentId.toNat

theorem counts_tally (q : Queue) : q.Counts q.tally where
  index_eq := (Serial.ofNat_val _).symm
  fragmentId_eq := UInt16.ofNat_toNat.symm
  channel_eq := by
    intro c hc
    simp [tally, List.getElem?_eq_getElem hc]

theorem follows_start (hcounts : q.Counts start) (hsuits : q.Suits settings mtu) :
    Follows settings mtu start [] start ⟨q, []⟩ where
  accepted_eq := rfl
  numbered := .nil
  counts := hcounts
  suits := hsuits
  pieces_le := fun _ hp => absurd hp List.not_mem_nil
  fits := fun _ hp => absurd hp List.not_mem_nil

/-- Which messages wait makes no difference. -/
theorem Follows.entries (h : Follows settings mtu start ps t s) (entries : Fifo Outgoing) :
    Follows settings mtu start ps t { s with queue := { s.queue with entries := entries } } where
  accepted_eq := h.accepted_eq
  numbered := h.numbered
  counts := ⟨h.counts.index_eq, h.counts.fragmentId_eq, h.counts.channel_eq⟩
  suits := h.suits.entries entries
  pieces_le := h.pieces_le
  fits := h.fits

/-- A payload that is taken is one more parcel. -/
theorem Follows.accept (h : Follows settings mtu start ps t s) (hvalid : settings.Valid)
    (hmtu : settings.minMtu ≤ mtu) {r : Reliability} {channel : UInt8} {payload : Octets}
    (haccepted : s.queue.refusal? r channel payload = none) (receipt : Option UInt32) :
    ∃ p, Follows settings mtu start (ps ++ [p]) (t.after p)
      ⟨s.queue.append (s.queue.messagesFor r channel payload) r channel receipt,
        s.accepted ++ [⟨r, channel, payload, s.queue.messagesFor r channel payload⟩]⟩ := by
  have hcapacity := h.suits.le_capacity hvalid hmtu
  obtain ⟨p, hnumbered, hr, hc, hpayload, hmessages, -, hpieces, hcounts⟩ :=
    h.counts.accept (by omega) haccepted receipt
  rw [← hmessages]
  refine ⟨p, ?_, h.numbered.snoc hnumbered, hcounts, h.suits.append _ _ _ _, fun q hq hs => ?_,
    fun q hq m hm => ?_⟩
  · rw [h.accepted_eq, List.map_append, ← hr, ← hc, ← hpayload]
    rfl
  · rcases List.mem_append.1 hq with hq | hq
    · exact h.pieces_le q hq hs
    · rw [List.mem_singleton.1 hq] at hs ⊢
      rw [← h.suits.maxFragments_eq]
      exact hpieces hs
  · rcases List.mem_append.1 hq with hq | hq
    · exact h.fits q hq m hm
    · rw [List.mem_singleton.1 hq, hmessages] at hm
      rw [← h.suits.capacity_eq]
      exact encodedLength_le (by omega) hm

theorem Follows.step (h : Follows settings mtu start ps t s) (hvalid : settings.Valid)
    (hmtu : settings.minMtu ≤ mtu) (call : Call) :
    ∃ ps' t', Follows settings mtu start ps' t' (s.step call) := by
  rcases Watched.step_cases s call with ⟨entries, hstep⟩ | ⟨r, channel, payload, receipt, haccepted,
    hstep⟩
  · rw [hstep]
    exact ⟨ps, t, h.entries entries⟩
  · obtain ⟨p, h'⟩ := h.accept hvalid hmtu haccepted receipt
    rw [hstep]
    exact ⟨_, _, h'⟩

theorem Follows.steps (h : Follows settings mtu start ps t s) (hvalid : settings.Valid)
    (hmtu : settings.minMtu ≤ mtu) (calls : List Call) :
    ∃ ps' t', Follows settings mtu start ps' t' (s.steps calls) := by
  induction calls generalizing s ps t with
  | nil => exact ⟨ps, t, h⟩
  | cons call rest ih =>
    obtain ⟨ps', t', h'⟩ := h.step hvalid hmtu call
    exact ih h'

/-! ## What is refused leaves nothing behind -/

/-- Queues that were made alike refuse the same. -/
theorem Suits.isRefused_eq (h : q.Suits settings mtu) (h' : q'.Suits settings mtu) (call : Call) :
    call.isRefused q = call.isRefused q' := by
  cases call with
  | enqueue r channel payload receipt =>
    have hrefusal : q.refusal? r channel payload = q'.refusal? r channel payload := by
      simp only [refusal?, maxPayloadLength, fragmentLength, h.length_channels, h'.length_channels,
        h.capacity_eq, h'.capacity_eq, h.maxFragments_eq, h'.maxFragments_eq]
    simp only [Call.isRefused, enqueue, hrefusal]
    cases q'.refusal? r channel payload <;> rfl
  | pack limit => rfl
  | requeue messages => rfl
  | clear => rfl

theorem step_of_isRefused (h : call.isRefused s.queue = true) : s.step call = s := by
  cases call with
  | enqueue r channel payload receipt =>
    simp only [Call.isRefused] at h
    simp only [Watched.step]
    split
    · rfl
    · rename_i heq
      rw [heq] at h
      cases h
  | _ => cases h

theorem Suits.step (h : s.queue.Suits settings mtu) (call : Call) :
    (s.step call).queue.Suits settings mtu := by
  rcases Watched.step_cases s call with ⟨entries, hstep⟩ | ⟨r, channel, payload, receipt, -, hstep⟩
  · rw [hstep]
    exact h.entries entries
  · rw [hstep]
    exact h.append _ _ _ _

/-- The calls that are refused could as well be left out. -/
theorem Suits.steps_filter (h : s.queue.Suits settings mtu) (hq : q.Suits settings mtu)
    (calls : List Call) :
    s.steps (calls.filter fun call => !call.isRefused q) = s.steps calls := by
  induction calls generalizing s with
  | nil => rfl
  | cons call rest ih =>
    by_cases hrefused : call.isRefused q = true
    · rw [List.filter_cons_of_neg (by simp [hrefused]), ih h]
      show s.steps rest = (s.step call).steps rest
      rw [step_of_isRefused (hq.isRefused_eq h call ▸ hrefused)]
    · rw [List.filter_cons_of_pos (by simp [hrefused])]
      exact ih (h.step call)

/-! ## Numbered from zero -/

theorem Follows.indexes (h : Follows settings mtu Tally.zero ps t s) :
    (s.created.filter (·.reliability.isReliable)).map Message.index
      = (List.range (s.created.filter (·.reliability.isReliable)).length).map
          fun k => some (Serial.ofNat k) := by
  have hcreated : s.created = Laid.created ps := by
    rw [Watched.created, h.accepted_eq, List.flatMap_map]
    rfl
  have hindexes := h.numbered.laid.indexes
  have hlength := congrArg List.length hindexes
  rw [List.length_map, List.length_map, List.length_range] at hlength
  rw [hcreated, hlength]
  exact hindexes

/-- What is counted up as parcels is counted up as it was seen. -/
theorem Follows.countedUp (h : Follows settings mtu start ps t s) {on : Submission → Bool}
    {on' : Parcel → Bool} {n : Nat} {channel : UInt8}
    (hon : ∀ p : Parcel, on p.submission = on' p)
    (hcounted : (ps.filter on').map Parcel.place = List.range n)
    (hchannel : ∀ p : Parcel, on' p = true → p.reliability.hasOrder = true ∧ p.channel = channel) :
    Submission.CountedUp channel (s.accepted.filter on) := by
  intro i p hget m hm
  rw [h.accepted_eq, Parcel.filter_submission on on' hon, List.getElem?_map,
    Option.map_eq_some_iff] at hget
  obtain ⟨p, hget, rfl⟩ := hget
  obtain ⟨horder, hp⟩ := hchannel p (List.mem_filter.1 (List.mem_of_getElem? hget)).2
  rw [Parcel.order_of_mem hm, Parcel.mark?, if_pos horder,
    Laid.number_of_counted hcounted hget, hp]

/-- **How a queue numbers what it takes.** Whatever is put in, taken out, put back and refused: the
reliable messages are counted up from zero in the order in which they were created, and so are the
ordered and the sequenced payloads of each channel, every message of a payload carrying its place.
The messages of a payload make it up and fit into a datagram. A payload that is sent in one message
is no fragment; one that is cut has two fragments at least, no more than are allowed, and a number
that is counted up among those that are cut. What is refused is what an empty queue refuses, and it
could as well not have been tried. -/
theorem Watched.numbered_without_gap (hvalid : settings.Valid) (hmtu : settings.minMtu ≤ mtu)
    (hmost : settings.maxFragmentsPerSend < 4294967296) (calls : List Call) :
    let empty := fresh mtu settings.orderChannels settings.maxFragmentsPerSend
    let s := (⟨empty, []⟩ : Watched).steps calls
    let reliable := s.created.filter (·.reliability.isReliable)
    (reliable.map Message.index
      = (List.range reliable.length).map fun k => some (Serial.ofNat k)) ∧
    (∀ channel, Submission.CountedUp channel
      (s.accepted.filter (Submission.isOrderedOn channel))) ∧
    (∀ channel, Submission.CountedUp channel
      (s.accepted.filter (Submission.isSequencedOn channel))) ∧
    (∀ p ∈ s.accepted, p.Covered empty.capacity ∧ (p.isCut = false → p.IsWhole)) ∧
    (∀ (i : Nat) (p : Submission), (s.accepted.filter Submission.isCut)[i]? = some p →
      p.IsCutAs (UInt16.ofNat i) settings.maxFragmentsPerSend) ∧
    (∀ call : Call, call.isRefused s.queue = call.isRefused empty) ∧
    (⟨empty, []⟩ : Watched).steps (calls.filter fun call => !call.isRefused empty) = s := by
  intro empty s reliable
  have hsuits : empty.Suits settings mtu := suits_fresh settings mtu
  obtain ⟨ps, t, h⟩ : ∃ ps t, Follows settings mtu Tally.zero ps t s :=
    (follows_start (counts_fresh _ _ _) hsuits).steps hvalid hmtu calls
  have hlaid := h.numbered.laid
  refine ⟨h.indexes, fun channel => ?_, fun channel => ?_, fun p hp => ?_, fun i p hget => ?_,
    h.suits.isRefused_eq hsuits, Suits.steps_filter hsuits hsuits calls⟩
  · refine h.countedUp (fun _ => rfl) (hlaid.places channel) fun p hon => ?_
    obtain ⟨hordered, hchannel⟩ := Parcel.isOrderedOn_iff.1 hon
    exact ⟨Bool.or_eq_true_iff.2 (Or.inl hordered), hchannel⟩
  · refine h.countedUp (fun _ => rfl) (hlaid.sequencedPlaces channel) fun p hon => ?_
    obtain ⟨hsequenced, hchannel⟩ := Parcel.isSequencedOn_iff.1 hon
    exact ⟨Bool.or_eq_true_iff.2 (Or.inr hsequenced), hchannel⟩
  · rw [h.accepted_eq] at hp
    obtain ⟨p, hmem, rfl⟩ := List.mem_map.1 hp
    rw [Parcel.isCut_submission]
    exact ⟨Parcel.covered_submission (h.fits p hmem), Parcel.isWhole_submission⟩
  · rw [h.accepted_eq, Parcel.filter_submission _ _ Parcel.isCut_submission, List.getElem?_map,
      Option.map_eq_some_iff] at hget
    obtain ⟨p, hget, rfl⟩ := hget
    obtain ⟨hp, hsplit⟩ := List.mem_filter.1 (List.mem_of_getElem? hget)
    rw [← Laid.number_of_counted hlaid.cutNumbers hget]
    exact Parcel.isCutAs_submission hsplit (h.pieces_le p hp hsplit) hmost

/-- A payload in two fragments, the first of which is sent and put back, one for a channel that
there is not, one that is too long, and one whose guarantee is raised for its fragments. -/
theorem Watched.numbered_without_gap_mixed :
    let settings : Settings := { maxFragmentsPerSend := 2 }
    let empty := fresh 400 32 2
    let first : Call := .enqueue .reliableOrdered 3 (List.replicate 400 7) none
    let packed := ((⟨empty, []⟩ : Watched).step first).queue.pack 1
    let calls : List Call :=
      [first, .enqueue .unreliable 40 [1] none, .pack 1, .enqueue .unreliableSequenced 3 [1] none,
        .requeue packed.1.flatten, .enqueue .reliableOrdered 3 [2] (some 5),
        .enqueue .reliableOrdered 3 (List.replicate 700 0) none,
        .enqueue .unreliableSequenced 3 (List.replicate 400 9) none]
    let s := (⟨empty, []⟩ : Watched).steps calls
    settings.Valid ∧ settings.minMtu ≤ 400 ∧ settings.maxFragmentsPerSend < 4294967296 ∧
      packed.1.map List.length = [1] ∧ s.queue.entries.length = 6 ∧
      s.created.map Message.index
        = [some 0, some 1, none, some 2, some 3, some 4].map (Option.map Serial.ofNat) ∧
      s.accepted.map Submission.isCut = [true, false, false, true] ∧
      Submission.CountedUp 3 (s.accepted.filter (Submission.isOrderedOn 3)) ∧
      Submission.CountedUp 3 (s.accepted.filter (Submission.isSequencedOn 3)) ∧
      (∀ p ∈ s.accepted, p.Covered 368) ∧
      (∀ p, (s.accepted.filter Submission.isCut)[1]? = some p → p.IsCutAs 1 2) := by
  intro settings empty first packed calls s
  have hvalid : settings.Valid := by decide +kernel
  have hmtu : settings.minMtu ≤ 400 := by decide
  have hmost : settings.maxFragmentsPerSend < 4294967296 := by decide
  obtain ⟨-, hordered, hsequenced, hmade, hcut, -⟩ :=
    numbered_without_gap hvalid hmtu hmost calls
  exact ⟨hvalid, hmtu, hmost, by decide +kernel, by decide +kernel, by decide +kernel,
    by decide +kernel, hordered 3, hsequenced 3, fun p hp => (hmade p hp).1, hcut 1⟩

end Queue

end Sender

end DatagramTransport

import DatagramTransport.Proofs.Parcel
import DatagramTransport.Sender.Queue

/-!
# The queue numbers parcels

A queue counts modulo the width of its counters what a tally counts without a bound. **What it makes
of a payload that it accepts is the parcel numbered from its tally**, and the counters move on to
the tally after that parcel. So everything that was ever queued is laid out.
-/

set_option autoImplicit false

namespace DatagramTransport

/-! ## Cutting -/

namespace Octets

theorem flatten_chunks {size : Nat} (hsize : size ≠ 0) (bs : Octets) :
    (bs.chunks size).flatten = bs := by
  induction hlength : bs.length using Nat.strongRecOn generalizing bs with
  | ind length ih =>
    by_cases hbs : bs = []
    · rw [hbs, chunks_nil, List.flatten_nil]
    · have hpos := List.length_pos_iff.2 hbs
      rw [chunks_of_ne_nil hbs hsize, List.flatten_cons,
        ih (bs.drop size).length (by rw [List.length_drop]; omega) _ rfl, List.take_append_drop]

/-- A list is cut into at most `n` pieces exactly if it is no longer than `n` pieces. -/
theorem length_chunks_le_iff {size n : Nat} (hsize : size ≠ 0) {bs : Octets} :
    (bs.chunks size).length ≤ n ↔ bs.length ≤ size * n := by
  induction n generalizing bs with
  | zero =>
    by_cases hbs : bs = []
    · rw [hbs, chunks_nil]
      exact iff_of_true (Nat.le_refl 0) (Nat.zero_le _)
    · have hpos := List.length_pos_iff.2 hbs
      rw [chunks_of_ne_nil hbs hsize, List.length_cons]
      exact iff_of_false (Nat.not_succ_le_zero _) (by omega)
  | succ n ih =>
    by_cases hbs : bs = []
    · rw [hbs, chunks_nil]
      exact iff_of_true (Nat.zero_le _) (Nat.zero_le _)
    · rw [chunks_of_ne_nil hbs hsize, List.length_cons, Nat.succ_le_succ_iff, ih,
        List.length_drop, Nat.mul_succ]
      omega

theorem two_le_length_chunks {size : Nat} (hsize : size ≠ 0) {bs : Octets}
    (h : size < bs.length) : 2 ≤ (bs.chunks size).length := by
  have hbs : bs ≠ [] := by
    intro hnil
    rw [hnil] at h
    exact Nat.not_lt_zero _ h
  have hrest : bs.drop size ≠ [] := by
    intro hnil
    have := congrArg List.length hnil
    rw [List.length_drop, List.length_nil] at this
    omega
  rw [chunks_of_ne_nil hbs hsize, chunks_of_ne_nil hrest hsize, List.length_cons,
    List.length_cons]
  omega

end Octets

namespace Sender

namespace Queue

variable {q : Queue} {t : Tally} {r : Reliability} {channel : UInt8} {payload : Octets}

/-- The queue's counters stand where a tally does. -/
structure Counts (q : Queue) (t : Tally) : Prop where
  index_eq : q.nextIndex = Serial.ofNat t.index
  fragmentId_eq : q.nextFragmentId = UInt16.ofNat t.cuts
  channel_eq : ∀ c : UInt8, c.toNat < q.channels.length →
    q.channels[c.toNat]? = some ⟨Serial.ofNat (t.ordered c), Serial.ofNat (t.sequenced c)⟩

theorem counts_fresh (mtu : UInt16) (channels maxFragments : Nat) :
    (fresh mtu channels maxFragments).Counts Tally.zero where
  index_eq := rfl
  fragmentId_eq := rfl
  channel_eq := by
    intro c hc
    have hlength : c.toNat < channels := by simpa [fresh] using hc
    simp [fresh, Tally.zero, hlength]

def pieces (q : Queue) (r : Reliability) (payload : Octets) : List Octets :=
  if q.fitsWhole r payload then [payload] else payload.chunks (q.fragmentLength r)

theorem headerLength_le (r : Reliability) :
    Message.headerLength r false ≤ Message.headerLength r.ofFragments true := by
  cases r <;> decide

theorem headerLength_fragment_le (r : Reliability) :
    Message.headerLength r.ofFragments true ≤ 20 := by
  cases r <;> decide

/-- A fragment holds something, for any size of packet that settings allow. -/
theorem fragmentLength_ne_zero (hcapacity : 20 < q.capacity) (r : Reliability) :
    q.fragmentLength r ≠ 0 := by
  have := headerLength_fragment_le r
  unfold fragmentLength
  omega

/-- What does not fit whole is longer than a fragment. -/
theorem fragmentLength_lt (hwhole : ¬ q.fitsWhole r payload = true) :
    q.fragmentLength r < payload.length ∨ q.fragmentLength r = 0 := by
  have := headerLength_le r
  simp only [fitsWhole, decide_eq_true_eq] at hwhole
  unfold fragmentLength
  omega

theorem flatten_pieces (hcapacity : 20 < q.capacity) (r : Reliability) (payload : Octets) :
    (q.pieces r payload).flatten = payload := by
  unfold pieces
  split
  · exact List.flatten_singleton
  · exact Octets.flatten_chunks (fragmentLength_ne_zero hcapacity r) payload

theorem two_le_length_pieces (hcapacity : 20 < q.capacity)
    (hwhole : ¬ q.fitsWhole r payload = true) : 2 ≤ (q.pieces r payload).length := by
  have hsize := fragmentLength_ne_zero hcapacity r
  rw [pieces, if_neg hwhole]
  exact Octets.two_le_length_chunks hsize ((fragmentLength_lt hwhole).resolve_right hsize)

theorem pieces_ne_nil (hcapacity : 20 < q.capacity) (r : Reliability) (payload : Octets) :
    q.pieces r payload ≠ [] := by
  by_cases hwhole : q.fitsWhole r payload = true
  · rw [pieces, if_pos hwhole]
    exact List.cons_ne_nil _ _
  · intro hnil
    have := two_le_length_pieces hcapacity hwhole
    rw [hnil] at this
    exact absurd this (by decide)

def parcel (q : Queue) (t : Tally) (hcapacity : 20 < q.capacity) (r : Reliability)
    (channel : UInt8) (payload : Octets) : Parcel :=
  t.parcel r channel (q.pieces r payload) (pieces_ne_nil hcapacity r payload)

theorem isSplit_parcel (hcapacity : 20 < q.capacity) :
    (q.parcel t hcapacity r channel payload).isSplit = true
      ↔ ¬ q.fitsWhole r payload = true := by
  constructor
  · intro hsplit hwhole
    have hlength : 1 < (q.pieces r payload).length := of_decide_eq_true hsplit
    rw [pieces, if_pos hwhole] at hlength
    exact Nat.lt_irrefl 1 hlength
  · intro hwhole
    exact decide_eq_true (two_le_length_pieces hcapacity hwhole)

theorem numbered_parcel (hcapacity : 20 < q.capacity) :
    (q.parcel t hcapacity r channel payload).NumberedFrom t where
  first_eq := rfl
  ordered_eq := fun ho => if_pos ho
  sequenced_eq := by
    intro hs
    have hr : r.isSequenced = true := hs
    have hnot : r.isOrdered = false := by cases r <;> simp_all [Reliability.isSequenced,
      Reliability.isOrdered]
    simp [parcel, Tally.parcel, hnot]
  cut_eq := rfl

theorem Counts.orderMark (h : q.Counts t) (hcapacity : 20 < q.capacity)
    (hchannel : channel.toNat < q.channels.length) :
    q.orderMark r channel = (q.parcel t hcapacity r channel payload).mark? := by
  simp only [Queue.orderMark, h.channel_eq channel hchannel, Parcel.mark?, parcel, Tally.parcel,
    ChannelCounters.place?, Reliability.hasOrder]
  cases r <;> rfl

/-- **A payload is sent as the messages of its parcel.** -/
theorem Counts.messagesFor (h : q.Counts t) (hcapacity : 20 < q.capacity)
    (hchannel : channel.toNat < q.channels.length) :
    q.messagesFor r channel payload = (q.parcel t hcapacity r channel payload).messages := by
  have hmark : q.orderMark r channel = (q.parcel t hcapacity r channel payload).mark? :=
    h.orderMark hcapacity hchannel
  by_cases hwhole : q.fitsWhole r payload = true
  · -- one message, without a fragment mark
    have hsplit : (q.parcel t hcapacity r channel payload).isSplit = false := by
      rw [Bool.eq_false_iff]
      exact fun hsplit => (isSplit_parcel hcapacity).1 hsplit hwhole
    have hpieces : (q.parcel t hcapacity r channel payload).pieces = [payload] := by
      show q.pieces r payload = [payload]
      rw [pieces, if_pos hwhole]
    have hsent : (q.parcel t hcapacity r channel payload).sentAs = r := by
      rw [Parcel.sentAs, hsplit]
      rfl
    simp only [Queue.messagesFor, if_pos hwhole, wholeMessage, hmark, h.index_eq, Parcel.messages,
      hpieces, List.mapIdx_cons, List.mapIdx_nil, Parcel.message, hsplit, Parcel.isReliable, hsent]
    rfl
  · -- one message for each piece, and every one has an index
    have hsplit : (q.parcel t hcapacity r channel payload).isSplit = true :=
      (isSplit_parcel hcapacity).2 hwhole
    have hpieces : (q.parcel t hcapacity r channel payload).pieces
        = payload.chunks (q.fragmentLength r) := by
      show q.pieces r payload = _
      rw [pieces, if_neg hwhole]
    have hsent : (q.parcel t hcapacity r channel payload).sentAs = r.ofFragments := by
      rw [Parcel.sentAs, hsplit]
      rfl
    have hmessage : (q.parcel t hcapacity r channel payload).message = fun i piece =>
        { reliability := r.ofFragments
          index := some (Serial.ofNat (t.index + i))
          order := (q.parcel t hcapacity r channel payload).mark?
          fragment := some ⟨UInt32.ofNat (payload.chunks (q.fragmentLength r)).length,
            UInt16.ofNat t.cuts, UInt32.ofNat i⟩
          payload := piece } := by
      funext i piece
      simp only [Parcel.message, hsplit, hsent, hpieces, Parcel.isReliable,
        Reliability.isReliable_ofFragments, if_true]
      rfl
    simp only [Queue.messagesFor, if_neg hwhole, fragmentMessages, hmark, h.index_eq,
      h.fragmentId_eq, Parcel.messages, hpieces, hmessage, Serial.plus_ofNat]

theorem length_pieces_le (hcapacity : 20 < q.capacity) (hwhole : ¬ q.fitsWhole r payload = true)
    (hlength : payload.length ≤ q.maxPayloadLength r) :
    (q.pieces r payload).length ≤ q.maxFragments := by
  rw [pieces, if_neg hwhole]
  exact (Octets.length_chunks_le_iff (fragmentLength_ne_zero hcapacity r)).2 hlength

/-! ## The counters move on -/

theorem countP_index_messages (p : Parcel) :
    p.messages.countP (fun m => m.index.isSome) = p.span := by
  by_cases hreliable : p.isReliable = true
  · rw [Parcel.span_of_isReliable hreliable, ← p.length_messages, List.countP_eq_length]
    intro m hm
    obtain ⟨i, hi, rfl⟩ := Parcel.mem_messages.1 hm
    rw [Parcel.index_message hreliable]
    rfl
  · rw [show p.span = 0 from if_neg hreliable, List.countP_eq_zero]
    intro m hm
    obtain ⟨i, hi, rfl⟩ := Parcel.mem_messages.1 hm
    simp [Parcel.message, hreliable]

theorem any_fragment_messages (p : Parcel) :
    p.messages.any (fun m => m.fragment.isSome) = p.isSplit := by
  rw [Bool.eq_iff_iff, List.any_eq_true]
  constructor
  · rintro ⟨m, hm, hfragment⟩
    obtain ⟨i, hi, rfl⟩ := Parcel.mem_messages.1 hm
    by_contra hsplit
    simp [Parcel.message, hsplit] at hfragment
  · intro hsplit
    exact ⟨_, Parcel.mem_messages.2 ⟨0, p.length_pos, rfl⟩, by simp [Parcel.message, hsplit]⟩

/-- Queueing the messages of a parcel moves the counters on past it. -/
theorem Counts.append (h : q.Counts t) (p : Parcel) (receipt : Option UInt32) :
    (q.append p.messages p.reliability p.channel receipt).Counts (t.after p) where
  index_eq := by
    simp only [Queue.append, countP_index_messages, h.index_eq, Serial.plus_ofNat, Tally.after]
  fragmentId_eq := by
    simp only [Queue.append, any_fragment_messages, h.fragmentId_eq, Tally.after]
    split
    · exact (UInt16.ofNat_add t.cuts 1).symm
    · rfl
  channel_eq := by
    intro c hc
    simp only [Queue.append, List.length_modify] at hc
    simp only [Queue.append, List.getElem?_modify, h.channel_eq c hc, Option.map_eq_map,
      Option.map_some, Option.some.injEq, Tally.after, Parcel.isOrderedOn, Parcel.isOrdered]
    by_cases hpc : p.channel = c
    · simp only [hpc, if_true, ChannelCounters.advance, beq_self_eq_true, Bool.and_true]
      cases p.reliability <;> simp [Reliability.isOrdered, Reliability.isSequenced,
        Serial.next_ofNat]
    · have hne : ¬ p.channel.toNat = c.toNat := fun heq => hpc (UInt8.toNat_inj.1 heq)
      have hbeq : (p.channel == c) = false := beq_eq_false_iff_ne.2 hpc
      simp only [hne, if_false, hbeq, Bool.and_false]
      rfl

theorem refusal?_eq_none_iff : q.refusal? r channel payload = none ↔
    channel.toNat < q.channels.length ∧ payload.length ≤ q.maxPayloadLength r := by
  unfold refusal?
  split
  · simp only [reduceCtorEq, false_iff]
    omega
  · split
    · simp only [reduceCtorEq, false_iff]
      omega
    · simp only [true_iff]
      omega

/-- **What is accepted is laid out behind what was accepted before.** -/
theorem Counts.accept (h : q.Counts t) (hcapacity : 20 < q.capacity)
    (haccepted : q.refusal? r channel payload = none) (receipt : Option UInt32) :
    ∃ p : Parcel, p.NumberedFrom t ∧ p.reliability = r ∧ p.channel = channel ∧
      p.payload = payload ∧ p.messages = q.messagesFor r channel payload ∧
      p.channel.toNat < q.channels.length ∧
      (p.isSplit = true → p.pieces.length ≤ q.maxFragments) ∧
      (q.append p.messages r channel receipt).Counts (t.after p) := by
  obtain ⟨hchannel, hlength⟩ := refusal?_eq_none_iff.1 haccepted
  refine ⟨q.parcel t hcapacity r channel payload, numbered_parcel hcapacity, rfl, rfl,
    flatten_pieces hcapacity r payload, (h.messagesFor hcapacity hchannel).symm, hchannel,
    fun hsplit => ?_, h.append _ receipt⟩
  exact length_pieces_le hcapacity ((isSplit_parcel hcapacity).1 hsplit) hlength

end Queue

end Sender

end DatagramTransport

import DatagramTransport.Proofs.Numbering
import DatagramTransport.Sender.Basic
import Mathlib.Data.List.Basic

/-!
# Custody — where a message is until it is acknowledged

A sender has custody of a message as long as it is queued or in the record of a datagram in flight.
Sending moves it from the one to the other and loss moves it back; **only the acknowledgement of the
datagram whose record has it ends the custody**. That needs the records not to overwrite each other,
so the numbers of the datagrams that were sent are part of the account.
-/

set_option autoImplicit false

namespace DatagramTransport

namespace Sender

variable {s : Sender} {ds : List Datagram} {m : Message}

def Queues (s : Sender) (m : Message) : Prop := ∃ e ∈ s.queue.entries.toList, e.message = m

def Flies (s : Sender) (sequence : Serial) (m : Message) : Prop :=
  ∃ sent, s.inFlight[sequence]? = some sent ∧ ∃ e ∈ sent.messages, e.message = m

def Keeps (s : Sender) (m : Message) : Prop := s.Queues m ∨ ∃ sequence, s.Flies sequence m

def Idle (s : Sender) : Prop := s.queue.entries.toList = [] ∧ s.inFlight.isEmpty = true

instance (s : Sender) : Decidable s.Idle := inferInstanceAs (Decidable (_ ∧ _))

theorem Idle.not_keeps (h : s.Idle) : ¬ s.Keeps m := by
  rintro (⟨e, he, -⟩ | ⟨sequence, sent, hget, -⟩)
  · rw [h.1] at he
    cases he
  · rw [Std.TreeMap.getElem?_of_isEmpty h.2] at hget
    cases hget

/-- The datagrams that were sent are numbered from zero, and each record is about one of them. -/
structure Sends (s : Sender) (ds : List Datagram) : Prop where
  next_eq : s.nextSequence = Serial.ofNat ds.length
  numbered : ∀ i (h : i < ds.length), ds[i].sequence = Serial.ofNat i
  recorded : ∀ sequence m, s.Flies sequence m →
    ∃ d ∈ ds, d.sequence = sequence ∧ m ∈ d.messages

theorem sends_fresh (settings : Settings) (mtu : UInt16) : (fresh settings mtu).Sends [] where
  next_eq := rfl
  numbered := fun i hi => absurd hi (Nat.not_lt_zero i)
  recorded := fun sequence m ⟨sent, hget, _⟩ => by simp [fresh] at hget

theorem getElem?_filter_eq_some {α : Type} {tree : Std.TreeMap Serial α} {f : Serial → α → Bool}
    {k : Serial} {v : α} : (tree.filter f)[k]? = some v ↔ tree[k]? = some v ∧ f k v = true := by
  rw [← Std.TreeMap.mem_toList_iff_getElem?_eq_some, Std.TreeMap.toList_filter, List.mem_filter,
    Std.TreeMap.mem_toList_iff_getElem?_eq_some]

theorem Sends.eq_of_sequence (h : s.Sends ds) (hfew : ds.length ≤ 16777216) {d d' : Datagram}
    (hd : d ∈ ds) (hd' : d' ∈ ds) (heq : d.sequence = d'.sequence) : d = d' := by
  obtain ⟨i, hi, rfl⟩ := List.getElem_of_mem hd
  obtain ⟨j, hj, rfl⟩ := List.getElem_of_mem hd'
  rw [h.numbered i hi, h.numbered j hj] at heq
  obtain rfl := Serial.ofNat_inj heq (by omega) (by omega)
  rfl

theorem Sends.val_lt (h : s.Sends ds) (hfew : ds.length ≤ 16777216) {d : Datagram}
    (hd : d ∈ ds) : d.sequence.val < ds.length := by
  obtain ⟨i, hi, rfl⟩ := List.getElem_of_mem hd
  rw [h.numbered i hi, Serial.val_ofNat_of_lt (by omega)]
  exact hi

/-! ## Sending

Each batch takes the number that is next, and its record is put under that number. Whatever has a
record there already loses it, and with it the custody of its messages. That happens only when the
numbers have come round, so custody is kept as long as fewer datagrams were sent than there are
numbers. -/

theorem mem_messages_ofBatch (now : Nanoseconds) {batch : List Outgoing} {e : Outgoing} :
    e ∈ (SentDatagram.ofBatch now batch).messages
      ↔ e ∈ batch ∧ e.message.reliability.isReliable = true := List.mem_filter

theorem dispatch_sequence (now : Nanoseconds) (batch : List Outgoing) (s : Sender) :
    (s.dispatch now batch).1.sequence = s.nextSequence := rfl

/-- What waits behind some batches stays where it is when they are sent. -/
theorem queue_collect_dispatch (now : Nanoseconds) (batches : List (List Outgoing)) (s : Sender) :
    (Stepwise.collect (Sender.dispatch now) batches s).2.queue = s.queue := by
  induction batches generalizing s with
  | nil => rfl
  | cons batch batches ih =>
    rw [Stepwise.collect_cons]
    exact ih (s.dispatch now batch).2

theorem inFlight_dispatch (now : Nanoseconds) (batch : List Outgoing) (s : Sender) :
    (s.dispatch now batch).2.inFlight
      = if (SentDatagram.ofBatch now batch).isTrivial then s.inFlight
        else s.inFlight.insert s.nextSequence (SentDatagram.ofBatch now batch) := rfl

/-- A record is made of the reliable messages in a batch, under the next number. The other records
stay. -/
theorem flies_dispatch (now : Nanoseconds) (batch : List Outgoing) (s : Sender)
    (sequence : Serial) (m : Message) : (s.dispatch now batch).2.Flies sequence m →
      s.Flies sequence m ∨ (sequence = s.nextSequence ∧ m ∈ batch.map (·.message)) := by
  rintro ⟨sent, hget, e, he, rfl⟩
  rw [inFlight_dispatch] at hget
  split at hget
  · exact Or.inl ⟨sent, hget, e, he, rfl⟩
  · rw [Std.TreeMap.getElem?_insert] at hget
    split at hget
    · rename_i hcmp
      rw [Option.some.injEq] at hget
      subst hget
      exact Or.inr ⟨(Std.LawfulEqCmp.compare_eq_iff_eq.1 hcmp).symm,
        List.mem_map_of_mem ((mem_messages_ofBatch now).1 he).1⟩
    · exact Or.inl ⟨sent, hget, e, he, rfl⟩

theorem flies_dispatch_of_batch {now : Nanoseconds} {batch : List Outgoing} {s : Sender}
    {e : Outgoing} (he : e ∈ batch) (hr : e.message.reliability.isReliable = true) :
    (s.dispatch now batch).2.Flies s.nextSequence e.message := by
  have hmem := (mem_messages_ofBatch now).2 ⟨he, hr⟩
  have hnot : ¬ (SentDatagram.ofBatch now batch).isTrivial = true := by
    intro htrivial
    rw [SentDatagram.isTrivial, Bool.and_eq_true, List.isEmpty_iff] at htrivial
    rw [htrivial.1] at hmem
    cases hmem
  refine ⟨SentDatagram.ofBatch now batch, ?_, e, hmem, rfl⟩
  rw [inFlight_dispatch, if_neg hnot, Std.TreeMap.getElem?_insert_self]

theorem flies_dispatch_of_flies {now : Nanoseconds} {batch : List Outgoing}
    (h : s.Sends ds) (hfew : ds.length < 16777216) {sequence : Serial}
    (hflies : s.Flies sequence m) : (s.dispatch now batch).2.Flies sequence m := by
  obtain ⟨d, hd, hsequence, -⟩ := h.recorded sequence m hflies
  -- the next number is that of no record, as long as it has not come round
  have hne : s.nextSequence ≠ sequence := by
    intro heq
    have hlt := h.val_lt (by omega) hd
    rw [hsequence, ← heq, h.next_eq, Serial.val_ofNat_of_lt hfew] at hlt
    exact Nat.lt_irrefl _ hlt
  obtain ⟨sent, hget, hm⟩ := hflies
  refine ⟨sent, ?_, hm⟩
  rw [inFlight_dispatch]
  split
  · exact hget
  · rw [Std.TreeMap.getElem?_insert,
      if_neg fun hcmp => hne (Std.LawfulEqCmp.compare_eq_iff_eq.1 hcmp), hget]

theorem Sends.dispatch (h : s.Sends ds) (now : Nanoseconds) (batch : List Outgoing) :
    (s.dispatch now batch).2.Sends (ds ++ [(s.dispatch now batch).1]) where
  next_eq := by
    show s.nextSequence.next = _
    rw [h.next_eq, Serial.next_ofNat, List.length_append, List.length_singleton]
  numbered := by
    intro i hi
    rw [List.getElem_append]
    split
    · exact h.numbered i _
    · rw [List.length_append, List.length_singleton] at hi
      rw [List.getElem_singleton, dispatch_sequence, h.next_eq, show i = ds.length by omega]
  recorded := by
    intro sequence m hflies
    rcases flies_dispatch now batch s sequence m hflies with hold | ⟨rfl, hm⟩
    · obtain ⟨d, hd, hrest⟩ := h.recorded sequence m hold
      exact ⟨d, List.mem_append_left _ hd, hrest⟩
    · exact ⟨_, List.mem_append_right _ List.mem_cons_self, rfl, hm⟩

/-- Batches that are sent one after the other: nothing is in flight afterwards that was not before
or is in them, and as long as no number comes round, what was in flight stays, and every reliable
message in them joins it. -/
theorem Sends.collect (h : s.Sends ds) (now : Nanoseconds) (batches : List (List Outgoing))
    {out : List Datagram} {s' : Sender}
    (hcollect : Stepwise.collect (Sender.dispatch now) batches s = (out, s')) :
    s'.Sends (ds ++ out) ∧ s'.queue = s.queue ∧
      (∀ sequence m, s'.Flies sequence m →
        s.Flies sequence m ∨ ∃ e ∈ batches.flatten, e.message = m) ∧
      (∀ d ∈ out, ∀ m ∈ d.messages, ∃ e ∈ batches.flatten, e.message = m) ∧
      ((ds ++ out).length ≤ 16777216 →
        (∀ sequence m, s.Flies sequence m → s'.Flies sequence m) ∧
        ∀ e ∈ batches.flatten, e.message.reliability.isReliable = true →
          ∃ sequence, s'.Flies sequence e.message) := by
  induction batches generalizing s ds out s' with
  | nil =>
    rw [Stepwise.collect_nil, Prod.mk.injEq] at hcollect
    obtain ⟨rfl, rfl⟩ := hcollect
    refine ⟨by rwa [List.append_nil], rfl, fun _ _ hflies => Or.inl hflies, fun d hd => ?_,
      fun _ => ⟨fun _ _ hflies => hflies, fun e he => ?_⟩⟩
    · cases hd
    · cases he
  | cons batch batches ih =>
    rw [Stepwise.collect_cons, Prod.mk.injEq] at hcollect
    obtain ⟨rfl, rfl⟩ := hcollect
    obtain ⟨hsends, hqueue, honly, hout, hstay⟩ := ih (h.dispatch now batch) rfl
    rw [List.append_assoc, List.singleton_append] at hsends hstay
    -- the first batch is sent now, and the rest by a sender that has sent it
    have hleft : ∀ m, m ∈ batch.map (·.message) →
        ∃ e ∈ (batch :: batches).flatten, e.message = m := by
      intro m hm
      obtain ⟨e, he, rfl⟩ := List.mem_map.1 hm
      exact ⟨e, List.mem_append_left _ he, rfl⟩
    have hright : ∀ m, (∃ e ∈ batches.flatten, e.message = m) →
        ∃ e ∈ (batch :: batches).flatten, e.message = m := fun m ⟨e, he, hm⟩ =>
      ⟨e, List.mem_append_right _ he, hm⟩
    refine ⟨hsends, hqueue, fun sequence m hflies => ?_, fun d hd m hm => ?_, fun hfew => ?_⟩
    · rcases honly sequence m hflies with hflies | hm
      · rcases flies_dispatch now batch s sequence m hflies with hflies | ⟨-, hm⟩
        · exact Or.inl hflies
        · exact Or.inr (hleft m hm)
      · exact Or.inr (hright m hm)
    · rcases List.mem_cons.1 hd with rfl | hd
      · exact hleft m hm
      · exact hright m (hout d hd m hm)
    · obtain ⟨hold, hnew⟩ := hstay hfew
      rw [List.length_append, List.length_cons] at hfew
      refine ⟨fun sequence m hflies => ?_, fun e he hr => ?_⟩
      · exact hold sequence m (flies_dispatch_of_flies h (by omega) hflies)
      · rcases List.mem_append.1 he with he | he
        · exact ⟨_, hold _ _ (flies_dispatch_of_batch he hr)⟩
        · exact hnew e he hr

/-- What a flush sends was queued, and it stays in custody if it is reliable. -/
theorem Sends.flush (h : s.Sends ds) {now : Nanoseconds} {limit : Nat} {out : List Datagram}
    {s' : Sender} (hflush : s.flush now limit = (out, s')) :
    s'.Sends (ds ++ out) ∧ (∃ entries, s'.queue = { s.queue with entries := entries }) ∧
      (∀ m, s'.Keeps m → s.Keeps m) ∧ (∀ d ∈ out, ∀ m ∈ d.messages, s.Queues m) ∧
      ((ds ++ out).length ≤ 16777216 →
        ∀ m, m.reliability.isReliable = true → s.Keeps m → s'.Keeps m) := by
  unfold Sender.flush at hflush
  -- what is packed and what stays behind are together what was queued
  have hentries := Queue.pack_entries limit s.queue
  have hqueue : (s.queue.pack limit).2
      = { s.queue with entries := (s.queue.pack limit).2.entries } := rfl
  generalize s.queue.pack limit = packed at hflush hentries hqueue
  obtain ⟨batches, queue⟩ := packed
  simp only at hflush hentries hqueue
  have hsends : ({ s with queue := queue } : Sender).Sends ds := ⟨h.next_eq, h.numbered, h.recorded⟩
  obtain ⟨hsends, hsame, honly, hout, hstay⟩ := hsends.collect now batches hflush
  have hbatched : ∀ m, (∃ e ∈ batches.flatten, e.message = m) → s.Queues m :=
    fun m ⟨e, he, hm⟩ => ⟨e, by rw [← hentries]; exact List.mem_append_left _ he, hm⟩
  refine ⟨hsends, ⟨queue.entries, by rw [hsame]; exact hqueue⟩, fun m hkeeps => ?_,
    fun d hd m hm => hbatched m (hout d hd m hm), fun hfew m hr hkeeps => ?_⟩
  · rcases hkeeps with ⟨e, he, rfl⟩ | ⟨sequence, hflies⟩
    · rw [hsame] at he
      exact Or.inl ⟨e, by rw [← hentries]; exact List.mem_append_right _ he, rfl⟩
    · rcases honly sequence m hflies with hflies | hm
      · exact Or.inr ⟨sequence, hflies⟩
      · exact Or.inl (hbatched m hm)
  · obtain ⟨hold, hnew⟩ := hstay hfew
    rcases hkeeps with ⟨e, he, rfl⟩ | ⟨sequence, hflies⟩
    · rw [← hentries] at he
      rcases List.mem_append.1 he with he | he
      · exact Or.inr (hnew e he hr)
      · exact Or.inl ⟨e, by rw [hsame]; exact he, rfl⟩
    · exact Or.inr ⟨sequence, hold sequence m hflies⟩

/-! ## Loss

Which records are lost is decided by a predicate, by the numbers that a packet names or by the time
that has passed. For custody it does not matter which: what was in a record is in the queue
afterwards. `Recalls` keeps more of it, that the queue grows at its front and records only go. -/

theorem mem_oldestFirst {isLost : Serial → SentDatagram → Bool} {sent : SentDatagram} :
    sent ∈ s.oldestFirst isLost
      ↔ ∃ sequence, s.inFlight[sequence]? = some sent ∧ isLost sequence sent = true := by
  simp only [oldestFirst, List.mem_map, List.mem_mergeSort, Prod.exists, exists_eq_right,
    Std.TreeMap.mem_toList_iff_getElem?_eq_some, getElem?_filter_eq_some]

theorem flies_lose {isLost : Serial → SentDatagram → Bool} {sequence : Serial} :
    (s.lose isLost).2.Flies sequence m
      ↔ ∃ sent, s.inFlight[sequence]? = some sent ∧ isLost sequence sent = false ∧
        ∃ e ∈ sent.messages, e.message = m := by
  simp only [Flies, lose, getElem?_filter_eq_some, Bool.not_eq_true', and_assoc]

/-- A record is lost or stays, and the messages of those that are lost go back to the queue. -/
theorem keeps_lose (isLost : Serial → SentDatagram → Bool) (s : Sender) (m : Message) :
    (s.lose isLost).2.Keeps m ↔ s.Keeps m := by
  have hqueue : ∀ e, e ∈ (s.lose isLost).2.queue.entries.toList
      ↔ (∃ e', (∃ sequence sent, s.inFlight[sequence]? = some sent ∧
          isLost sequence sent = true ∧ e' ∈ sent.messages) ∧ { e' with isResend := true } = e) ∨
        e ∈ s.queue.entries.toList := by
    intro e
    -- in which order the records go back does not matter here
    simp only [lose, Queue.requeue, Fifo.toList_prepend, List.mem_append, List.mem_map,
      List.mem_flatMap, mem_oldestFirst]
    constructor
    · rintro (⟨e', ⟨sent, ⟨sequence, hget, hlost⟩, he'⟩, rfl⟩ | he)
      · exact Or.inl ⟨e', ⟨sequence, sent, hget, hlost, he'⟩, rfl⟩
      · exact Or.inr he
    · rintro (⟨e', ⟨sequence, sent, hget, hlost, he'⟩, rfl⟩ | he)
      · exact Or.inl ⟨e', ⟨sent, ⟨sequence, hget, hlost⟩, he'⟩, rfl⟩
      · exact Or.inr he
  constructor
  · rintro (⟨e, he, rfl⟩ | ⟨sequence, hfly⟩)
    · rcases (hqueue e).1 he with ⟨e', ⟨sequence, sent, hget, -, he'⟩, rfl⟩ | he
      · exact Or.inr ⟨sequence, sent, hget, e', he', rfl⟩
      · exact Or.inl ⟨e, he, rfl⟩
    · obtain ⟨sent, hget, -, hm⟩ := flies_lose.1 hfly
      exact Or.inr ⟨sequence, sent, hget, hm⟩
  · rintro (⟨e, he, rfl⟩ | ⟨sequence, sent, hget, e, he, rfl⟩)
    · exact Or.inl ⟨e, (hqueue e).2 (Or.inr he), rfl⟩
    · cases hlost : isLost sequence sent with
      | true =>
        exact Or.inl ⟨_, (hqueue _).2 (Or.inl ⟨e, ⟨sequence, sent, hget, hlost, he⟩, rfl⟩), rfl⟩
      | false => exact Or.inr ⟨sequence, flies_lose.2 ⟨sent, hget, hlost, e, he, rfl⟩⟩

/-- What is lost goes back to the queue, in front of what waits there. -/
structure Recalls (s s' : Sender) : Prop where
  entries_eq : ∃ back : List Outgoing,
    s'.queue = { s.queue with entries := s.queue.entries.prepend back } ∧
      ∀ e ∈ back, ∃ sequence, s.Flies sequence e.message
  flies : ∀ sequence m, s'.Flies sequence m → s.Flies sequence m

theorem Recalls.refl (s : Sender) : s.Recalls s := ⟨⟨[], rfl, nofun⟩, fun _ _ hflies => hflies⟩

theorem recalls_lose (isLost : Serial → SentDatagram → Bool) (s : Sender) :
    s.Recalls (s.lose isLost).2 where
  entries_eq := by
    refine ⟨_, rfl, fun e he => ?_⟩
    obtain ⟨e', he', rfl⟩ := List.mem_map.1 he
    obtain ⟨sent, hsent, he'⟩ := List.mem_flatMap.1 he'
    obtain ⟨sequence, hget, -⟩ := mem_oldestFirst.1 hsent
    exact ⟨sequence, sent, hget, e', he', rfl⟩
  flies := by
    intro sequence m hflies
    obtain ⟨sent, hget, -, hm⟩ := flies_lose.1 hflies
    exact ⟨sent, hget, hm⟩

theorem Sends.lose (h : s.Sends ds) (isLost : Serial → SentDatagram → Bool) :
    (s.lose isLost).2.Sends ds where
  next_eq := h.next_eq
  numbered := h.numbered
  recorded := fun sequence m ⟨sent, hget, hm⟩ =>
    h.recorded sequence m ⟨sent, (getElem?_filter_eq_some.1 hget).1, hm⟩

/-! ## Acknowledgement -/

theorem flies_acknowledge (now : Nanoseconds) (sequence other : Serial) (s : Sender) (m : Message) :
    (s.acknowledge now sequence).2.Flies other m ↔ s.Flies other m ∧ other ≠ sequence := by
  unfold acknowledge
  cases hget : s.inFlight[sequence]? with
  | none =>
    simp only
    refine ⟨fun hflies => ⟨hflies, ?_⟩, fun hflies => hflies.1⟩
    rintro rfl
    obtain ⟨sent, hsent, -⟩ := hflies
    rw [hget] at hsent
    cases hsent
  | some sent =>
    simp only [Flies, deliver, Std.TreeMap.getElem?_erase]
    by_cases heq : other = sequence
    · subst heq
      simp
    · have hcmp : ¬ compare sequence other = .eq := fun hcmp =>
        heq (Std.LawfulEqCmp.compare_eq_iff_eq.1 hcmp).symm
      simp [hcmp, heq]

@[simp] theorem acknowledge_queue (now : Nanoseconds) (sequence : Serial) (s : Sender) :
    (s.acknowledge now sequence).2.queue = s.queue := by
  unfold acknowledge
  split <;> rfl

@[simp] theorem acknowledge_nextSequence (now : Nanoseconds) (sequence : Serial) (s : Sender) :
    (s.acknowledge now sequence).2.nextSequence = s.nextSequence := by
  unfold acknowledge
  split <;> rfl

theorem acknowledgeAll_cons (now : Nanoseconds) (sequence : Serial) (sequences : List Serial)
    (s : Sender) : (s.acknowledgeAll now (sequence :: sequences)).2
      = ((s.acknowledge now sequence).2.acknowledgeAll now sequences).2 := by
  simp only [acknowledgeAll, Stepwise.collect_cons]

/-- **An acknowledgement ends the custody of what is in the records that it names, and of nothing
else.** -/
theorem acknowledgeAll_spec (now : Nanoseconds) (sequences : List Serial) (s : Sender) :
    (s.acknowledgeAll now sequences).2.queue = s.queue ∧
      (s.acknowledgeAll now sequences).2.nextSequence = s.nextSequence ∧
      ∀ other m, (s.acknowledgeAll now sequences).2.Flies other m
        ↔ s.Flies other m ∧ other ∉ sequences := by
  induction sequences generalizing s with
  | nil => exact ⟨rfl, rfl, fun other m => by simp [acknowledgeAll]⟩
  | cons sequence sequences ih =>
    obtain ⟨hqueue, hnext, hflies⟩ := ih (s.acknowledge now sequence).2
    rw [acknowledgeAll_cons]
    refine ⟨hqueue.trans (acknowledge_queue _ _ _), hnext.trans (acknowledge_nextSequence _ _ _),
      fun other m => ?_⟩
    rw [hflies, flies_acknowledge, List.mem_cons, not_or, and_assoc]

/-! ## Time and packets

A tick and a packet come down to loss and acknowledgement. Of both it is said what becomes of the
custody, and that of the queue nothing changes but its entries. -/

theorem lose_queue (isLost : Serial → SentDatagram → Bool) (s : Sender) :
    ∃ entries, (s.lose isLost).2.queue = { s.queue with entries := entries } := ⟨_, rfl⟩

theorem Sends.tick (h : s.Sends ds) (now : Nanoseconds) :
    (s.tick now).2.Sends ds ∧
      (∃ entries, (s.tick now).2.queue = { s.queue with entries := entries }) ∧
      ∀ m, (s.tick now).2.Keeps m ↔ s.Keeps m := by
  unfold Sender.tick
  split
  · have hbacked : ({ s with timer := s.timer.backOff } : Sender).Sends ds :=
      ⟨h.next_eq, h.numbered, h.recorded⟩
    exact ⟨hbacked.lose _, lose_queue _ _, fun m => keeps_lose _ _ m⟩
  · exact ⟨h, ⟨_, rfl⟩, fun m => Iff.rfl⟩

theorem recalls_tick (now : Nanoseconds) (s : Sender) : s.Recalls (s.tick now).2 := by
  unfold Sender.tick
  split
  · obtain ⟨hentries, hflies⟩ := recalls_lose (fun _ sent => s.isExpired now sent)
      { s with timer := s.timer.backOff }
    exact ⟨hentries, hflies⟩
  · exact Recalls.refl s

theorem recalls_receive (now : Nanoseconds) (a : Acknowledgement) (s : Sender) :
    s.Recalls (s.receive now a).2 := by
  unfold Sender.receive
  split
  · obtain ⟨hqueue, -, hflies⟩ := acknowledgeAll_spec now a.numbers s
    exact ⟨⟨[], hqueue, nofun⟩, fun sequence m hfly => ((hflies sequence m).1 hfly).1⟩
  · exact recalls_lose _ s

/-- What leaves the custody on a packet is in a record that the packet acknowledges. -/
theorem Sends.receive (h : s.Sends ds) (now : Nanoseconds) (a : Acknowledgement) :
    (s.receive now a).2.Sends ds ∧
      (∃ entries, (s.receive now a).2.queue = { s.queue with entries := entries }) ∧
      (∀ m, (s.receive now a).2.Keeps m → s.Keeps m) ∧
      ∀ m, s.Keeps m → (s.receive now a).2.Keeps m ∨
        (a.kind = .ack ∧ ∃ sequence ∈ a.numbers, s.Flies sequence m) := by
  unfold Sender.receive
  cases hkind : a.kind with
  | ack =>
    obtain ⟨hqueue, hnext, hflies⟩ := acknowledgeAll_spec now a.numbers s
    simp only
    refine ⟨⟨by rw [hnext, h.next_eq], h.numbered, fun sequence m hfly => ?_⟩,
      ⟨s.queue.entries, hqueue⟩, fun m hkeeps => ?_, fun m hkeeps => ?_⟩
    · exact h.recorded sequence m ((hflies sequence m).1 hfly).1
    · rcases hkeeps with ⟨e, he, rfl⟩ | ⟨sequence, hfly⟩
      · rw [hqueue] at he
        exact Or.inl ⟨e, he, rfl⟩
      · exact Or.inr ⟨sequence, ((hflies sequence m).1 hfly).1⟩
    · rcases hkeeps with ⟨e, he, rfl⟩ | ⟨sequence, hfly⟩
      · refine Or.inl (Or.inl ⟨e, ?_, rfl⟩)
        rwa [hqueue]
      · by_cases hmem : sequence ∈ a.numbers
        · exact Or.inr ⟨trivial, sequence, hmem, hfly⟩
        · exact Or.inl (Or.inr ⟨sequence, (hflies sequence m).2 ⟨hfly, hmem⟩⟩)
  | nack =>
    exact ⟨h.lose _, lose_queue _ _, fun m => (keeps_lose _ _ m).1,
      fun m hkeeps => Or.inl ((keeps_lose _ _ m).2 hkeeps)⟩

/-! ## Queueing -/

theorem send_eq_ok {r : Reliability} {channel : UInt8} {payload : Octets} {s' : Sender}
    {receipt : Option UInt32} (h : s.send r channel payload = .ok (receipt, s')) :
    s.queue.refusal? r channel payload = none ∧
      s'.queue = s.queue.append (s.queue.messagesFor r channel payload) r channel receipt ∧
      s'.nextSequence = s.nextSequence ∧ s'.inFlight = s.inFlight := by
  unfold Sender.send Queue.enqueue at h
  simp only at h
  split at h
  · cases h
  · rename_i hok
    split at hok
    · cases hok
    · rename_i hrefusal
      cases hok
      split at h
      · rename_i hreceipt
        cases h
        exact ⟨hrefusal, by rw [hreceipt], rfl, rfl⟩
      · rename_i hreceipt
        cases h
        exact ⟨hrefusal, by rw [hreceipt], rfl, rfl⟩

theorem Sends.send (h : s.Sends ds) {r : Reliability} {channel : UInt8} {payload : Octets}
    {s' : Sender} {receipt : Option UInt32}
    (hsend : s.send r channel payload = .ok (receipt, s')) :
    s'.Sends ds ∧
      ∀ m, s'.Keeps m ↔ s.Keeps m ∨ m ∈ s.queue.messagesFor r channel payload := by
  obtain ⟨-, hqueue, hnext, hflight⟩ := send_eq_ok hsend
  have hflies : ∀ sequence m, s'.Flies sequence m ↔ s.Flies sequence m := by
    intro sequence m
    rw [Flies, Flies, hflight]
  have hqueues : ∀ m, s'.Queues m
      ↔ s.Queues m ∨ m ∈ s.queue.messagesFor r channel payload := by
    intro m
    simp only [Queues, hqueue, Queue.append, Fifo.toList_append, List.mem_append, List.mem_map]
    constructor
    · rintro ⟨e, he | ⟨m', hm', rfl⟩, rfl⟩
      · exact Or.inl ⟨e, he, rfl⟩
      · exact Or.inr hm'
    · rintro (⟨e, he, rfl⟩ | hm)
      · exact ⟨e, Or.inl he, rfl⟩
      · exact ⟨_, Or.inr ⟨m, hm, rfl⟩, rfl⟩
  refine ⟨⟨by rw [hnext, h.next_eq], h.numbered, fun sequence m hfly => ?_⟩, fun m => ?_⟩
  · exact h.recorded sequence m ((hflies sequence m).1 hfly)
  · simp only [Keeps, hqueues, hflies]
    rw [or_right_comm]

/-! ## Giving up -/

theorem not_keeps_clear (s : Sender) (m : Message) : ¬ s.clear.Keeps m :=
  Idle.not_keeps ⟨rfl, Std.TreeMap.isEmpty_emptyc⟩

theorem Sends.clear (h : s.Sends ds) : s.clear.Sends ds where
  next_eq := h.next_eq
  numbered := h.numbered
  recorded := fun sequence m hflies => absurd (Or.inr ⟨sequence, hflies⟩) (not_keeps_clear s m)

end Sender

end DatagramTransport

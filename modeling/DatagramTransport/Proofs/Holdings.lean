import DatagramTransport.Proofs.Custody
import Mathlib.Data.List.Perm.Basic

/-!
# Holdings — what a sender has, counted

Custody says that a message is somewhere; this file counts how often. What a sender holds of its
reliable messages is a multiset, those in the queue and those in the records of datagrams in flight.
**Sending and loss move messages within it, and an acknowledgement takes out what is in the records
that it removes**. Sending needs its numbers to be free, as a record is overwritten by another one
with the same number.

Unreliable messages are a line. They leave the queue in the order in which they were put into it and
never come back, so what was sent and what is still queued are together what was ever put in.
-/

set_option autoImplicit false

namespace DatagramTransport

namespace Outgoing

/-- The message and its receipt, whether it was sent before or not. -/
def asNew (e : Outgoing) : Outgoing := { e with isResend := false }

def isReliable (e : Outgoing) : Bool := e.message.reliability.isReliable

@[simp] theorem isReliable_asNew (e : Outgoing) : e.asNew.isReliable = e.isReliable := rfl

end Outgoing

namespace Sender

variable {s : Sender} {α : Type}

/-! ## Records as a list -/

theorem nodup_toList (tree : Std.TreeMap Serial α) : tree.toList.Nodup := by
  refine Std.TreeMap.distinct_keys_toList.imp fun {a b} hcmp heq => hcmp ?_
  rw [heq]
  exact Std.ReflCmp.compare_self

theorem toList_perm {tree tree' : Std.TreeMap Serial α} (h : ∀ k : Serial, tree[k]? = tree'[k]?) :
    tree.toList.Perm tree'.toList := by
  refine (List.perm_ext_iff_of_nodup (nodup_toList tree) (nodup_toList tree')).2 fun ⟨k, v⟩ => ?_
  rw [Std.TreeMap.mem_toList_iff_getElem?_eq_some, Std.TreeMap.mem_toList_iff_getElem?_eq_some,
    h k]

/-- What some records have of a kind. -/
def gather {β : Type} (f : SentDatagram → List β) (records : Std.TreeMap Serial SentDatagram) :
    List β := records.toList.flatMap fun record => f record.2

section

variable {β : Type} (f : SentDatagram → List β)

theorem gather_perm {records records' : Std.TreeMap Serial SentDatagram}
    (h : ∀ k : Serial, records[k]? = records'[k]?) :
    (gather f records).Perm (gather f records') := (toList_perm h).flatMap_right _

/-- Each record is among those that are chosen or among the others. -/
theorem gather_filter (chosen : Serial → SentDatagram → Bool)
    (records : Std.TreeMap Serial SentDatagram) :
    (gather f (records.filter chosen)
        ++ gather f (records.filter fun k sent => !chosen k sent)).Perm (gather f records) := by
  unfold gather
  rw [← List.flatMap_append, Std.TreeMap.toList_filter, Std.TreeMap.toList_filter]
  exact (List.filter_append_perm (fun record => chosen record.1 record.2)
    records.toList).flatMap_right _

theorem gather_insert {records : Std.TreeMap Serial SentDatagram} {sequence : Serial}
    (hfree : sequence ∉ records) (sent : SentDatagram) :
    (gather f (records.insert sequence sent)).Perm (f sent ++ gather f records) := by
  have hothers : records.toList.filter (fun record => decide ¬ (sequence == record.1) = true)
      = records.toList := by
    refine List.filter_eq_self.2 fun record hrecord => ?_
    have hget := Std.TreeMap.mem_toList_iff_getElem?_eq_some.1 hrecord
    rw [decide_eq_true_eq, beq_iff_eq]
    rintro rfl
    exact hfree (Std.TreeMap.mem_iff_isSome_getElem?.2 (by rw [hget]; rfl))
  have hperm := Std.TreeMap.toList_insert_perm (t := records) (k := sequence) (v := sent)
  rw [hothers] at hperm
  exact hperm.flatMap_right _

/-- A record is put back where it was taken out. -/
theorem gather_erase {records : Std.TreeMap Serial SentDatagram} {sequence : Serial}
    {sent : SentDatagram} (hget : records[sequence]? = some sent) :
    (gather f records).Perm (f sent ++ gather f (records.erase sequence)) := by
  have hback : ∀ k : Serial,
      records[k]? = ((records.erase sequence).insert sequence sent)[k]? := by
    intro k
    rw [Std.TreeMap.getElem?_insert, Std.TreeMap.getElem?_erase]
    split
    · rename_i hcmp
      rw [← Std.LawfulEqCmp.compare_eq_iff_eq.1 hcmp, hget]
    · rfl
  exact (gather_perm f hback).trans (gather_insert f (by simp) sent)

end

/-- The messages in some records. -/
def contents (records : Std.TreeMap Serial SentDatagram) : List Outgoing :=
  records.toList.flatMap fun record => record.2.messages.map Outgoing.asNew

/-- What is left of some records, and what is not. -/
theorem contents_left {records left : Std.TreeMap Serial SentDatagram}
    (h : ∀ (k : Serial) (sent : SentDatagram), left[k]? = some sent → records[k]? = some sent) :
    (contents left ++ contents (records.filter fun k _ => !left.contains k)).Perm
      (contents records) := by
  have hleft : ∀ k : Serial, (records.filter fun k _ => left.contains k)[k]? = left[k]? := by
    intro k
    refine Option.ext fun sent => ?_
    rw [getElem?_filter_eq_some, Std.TreeMap.contains_iff_mem,
      Std.TreeMap.mem_iff_isSome_getElem?]
    constructor
    · rintro ⟨hget, hsome⟩
      obtain ⟨sent', hget'⟩ := Option.isSome_iff_exists.1 hsome
      rw [hget', ← h k sent' hget', hget]
    · intro hget
      exact ⟨h k sent hget, by rw [hget]; rfl⟩
  exact ((gather_perm (·.messages.map Outgoing.asNew) hleft).symm.append_right _).trans
    (gather_filter (·.messages.map Outgoing.asNew) _ records)

/-! ## What a sender holds -/

def queued (s : Sender) : List Outgoing := s.queue.entries.toList.map Outgoing.asNew

def flying (s : Sender) : List Outgoing := contents s.inFlight

/-- The reliable messages that are queued or in flight. -/
def held (s : Sender) : List Outgoing := s.queued.filter Outgoing.isReliable ++ s.flying

def waiting (s : Sender) : List Message := s.queue.entries.toList.map (·.message)

def unreliable (messages : List Message) : List Message :=
  messages.filter fun m => !m.reliability.isReliable

/-- Only reliable messages are remembered. -/
def RemembersReliable (s : Sender) : Prop :=
  ∀ (sequence : Serial) (sent : SentDatagram), s.inFlight[sequence]? = some sent →
    ∀ e ∈ sent.messages, e.isReliable = true

theorem remembersReliable_fresh (settings : Settings) (mtu : UInt16) :
    (fresh settings mtu).RemembersReliable := by
  intro sequence sent hget
  simp [fresh] at hget

@[simp] theorem unreliable_append (ms ms' : List Message) :
    unreliable (ms ++ ms') = unreliable ms ++ unreliable ms' := List.filter_append ms ms'

theorem unreliable_eq_nil {ms : List Message}
    (h : ∀ m ∈ ms, m.reliability.isReliable = true) : unreliable ms = [] := by
  rw [unreliable, List.filter_eq_nil_iff]
  intro m hm
  simp [h m hm]

/-! ## Queueing -/

theorem queued_send {r : Reliability} {channel : UInt8} {payload : Octets}
    {receipt : Option UInt32} {s' : Sender} (h : s.send r channel payload = .ok (receipt, s')) :
    s'.queued = s.queued
        ++ (s.queue.messagesFor r channel payload).map (⟨·, receipt, false⟩) ∧
      s'.waiting = s.waiting ++ s.queue.messagesFor r channel payload ∧
      s'.inFlight = s.inFlight := by
  obtain ⟨-, hqueue, -, hflight⟩ := send_eq_ok h
  refine ⟨?_, ?_, hflight⟩
  · simp only [queued, hqueue, Queue.append, Fifo.toList_append, List.map_append, List.map_map]
    rfl
  · simp only [waiting, hqueue, Queue.append, Fifo.toList_append, List.map_append, List.map_map]
    exact congrArg _ (List.map_id _)

/-! ## Sending -/

/-- None of the numbers that these batches are sent under is that of a record in flight. -/
def NumbersFree (now : Nanoseconds) : List (List Outgoing) → Sender → Prop
  | [], _ => True
  | batch :: batches, s =>
    s.nextSequence ∉ s.inFlight ∧ NumbersFree now batches (s.dispatch now batch).2

instance NumbersFree.decide (now : Nanoseconds) (batches : List (List Outgoing)) (s : Sender) :
    Decidable (NumbersFree now batches s) :=
  match batches with
  | [] => inferInstanceAs (Decidable True)
  | batch :: batches =>
    have := NumbersFree.decide now batches (s.dispatch now batch).2
    inferInstanceAs (Decidable (_ ∧ _))

/-- The record of a batch is put beside the others. -/
theorem flying_dispatch (now : Nanoseconds) (batch : List Outgoing)
    (hfree : s.nextSequence ∉ s.inFlight) :
    (s.dispatch now batch).2.flying.Perm
      ((batch.filter Outgoing.isReliable).map Outgoing.asNew ++ s.flying) := by
  unfold flying
  rw [inFlight_dispatch]
  split
  · rename_i htrivial
    rw [SentDatagram.isTrivial, Bool.and_eq_true, List.isEmpty_iff] at htrivial
    have hnone : batch.filter Outgoing.isReliable = [] := htrivial.1
    rw [hnone, List.map_nil, List.nil_append]
  · exact gather_insert (·.messages.map Outgoing.asNew) hfree _

theorem RemembersReliable.dispatch (h : s.RemembersReliable) (now : Nanoseconds)
    (batch : List Outgoing) : (s.dispatch now batch).2.RemembersReliable := by
  intro sequence sent hget
  rw [inFlight_dispatch] at hget
  split at hget
  · exact h sequence sent hget
  · rw [Std.TreeMap.getElem?_insert] at hget
    split at hget
    · rw [Option.some.injEq] at hget
      rw [← hget]
      exact fun e he => ((mem_messages_ofBatch now).1 he).2
    · exact h sequence sent hget

theorem collect_dispatch (now : Nanoseconds) (batches : List (List Outgoing)) (s : Sender)
    (h : s.RemembersReliable) :
    (Stepwise.collect (Sender.dispatch now) batches s).2.RemembersReliable ∧
      (Stepwise.collect (Sender.dispatch now) batches s).2.queue = s.queue ∧
      (Stepwise.collect (Sender.dispatch now) batches s).1.flatMap Datagram.messages
        = batches.flatten.map (·.message) ∧
      (NumbersFree now batches s →
        (Stepwise.collect (Sender.dispatch now) batches s).2.flying.Perm
          ((batches.flatten.filter Outgoing.isReliable).map Outgoing.asNew ++ s.flying)) := by
  induction batches generalizing s with
  | nil => exact ⟨h, rfl, rfl, fun _ => List.Perm.refl _⟩
  | cons batch batches ih =>
    obtain ⟨hreliable, hqueue, hmessages, hflying⟩ := ih _ (h.dispatch now batch)
    rw [Stepwise.collect_cons]
    refine ⟨hreliable, hqueue, ?_, fun hfree => ?_⟩
    · rw [List.flatMap_cons, hmessages, List.flatten_cons, List.map_append]
      rfl
    · refine (hflying hfree.2).trans ?_
      refine ((flying_dispatch now batch hfree.1).append_left _).trans ?_
      rw [List.flatten_cons, List.filter_append, List.map_append, ← List.append_assoc]
      exact List.perm_append_comm.append_right _

/-- The numbers under which a flush sends are not those of records in flight. -/
def FlushesFreely (now : Nanoseconds) (limit : Nat) (s : Sender) : Prop :=
  NumbersFree now (s.queue.pack limit).1 { s with queue := (s.queue.pack limit).2 }

instance (now : Nanoseconds) (limit : Nat) (s : Sender) : Decidable (s.FlushesFreely now limit) :=
  inferInstanceAs (Decidable (NumbersFree _ _ _))

/-- **A flush sends the front of the queue as it stands, and keeps what is reliable in it.** -/
theorem held_flush (h : s.RemembersReliable) (now : Nanoseconds) (limit : Nat) :
    (s.flush now limit).2.RemembersReliable ∧
      (s.flush now limit).1.flatMap Datagram.messages ++ (s.flush now limit).2.waiting
        = s.waiting ∧
      (s.FlushesFreely now limit → (s.flush now limit).2.held.Perm s.held) := by
  have hentries := Queue.pack_entries limit s.queue
  have hflush : s.flush now limit = Stepwise.collect (Sender.dispatch now) (s.queue.pack limit).1
      { s with queue := (s.queue.pack limit).2 } := rfl
  have hstart : ({ s with queue := (s.queue.pack limit).2 } : Sender).RemembersReliable := h
  obtain ⟨hreliable, hqueue, hmessages, hflying⟩ :=
    collect_dispatch now (s.queue.pack limit).1 { s with queue := (s.queue.pack limit).2 } hstart
  refine ⟨hreliable, ?_, fun hfree => ?_⟩
  · rw [waiting, waiting, hflush, hmessages, hqueue, ← hentries, List.map_append]
  · have hheld : s.held = ((s.queue.pack limit).1.flatten.filter Outgoing.isReliable).map
          Outgoing.asNew ++ ((s.queue.pack limit).2.entries.toList.map Outgoing.asNew).filter
          Outgoing.isReliable ++ s.flying := by
      rw [held, queued, ← hentries, List.map_append, List.filter_append, List.filter_map]
      rfl
    have hleft : (s.flush now limit).2.queued
        = (s.queue.pack limit).2.entries.toList.map Outgoing.asNew := by
      rw [queued, hflush, hqueue]
    rw [hheld, held, hleft]
    refine ((hflying hfree).append_left _).trans ?_
    rw [← List.append_assoc]
    exact List.perm_append_comm.append_right _

/-! ## Loss -/

theorem messages_oldestFirst (isLost : Serial → SentDatagram → Bool) (s : Sender) :
    (((s.oldestFirst isLost).flatMap (·.messages)).map Outgoing.asNew).Perm
      (contents (s.inFlight.filter isLost)) := by
  unfold oldestFirst contents
  rw [List.flatMap_map, List.map_flatMap]
  exact (List.mergeSort_perm _ _).flatMap_right _

/-- **What is lost goes from its records back to the queue, and nothing else happens.** -/
theorem held_lose (h : s.RemembersReliable) (isLost : Serial → SentDatagram → Bool) :
    (s.lose isLost).2.RemembersReliable ∧
      unreliable (s.lose isLost).2.waiting = unreliable s.waiting ∧
      (s.lose isLost).2.held.Perm s.held := by
  have hlost : ∀ e ∈ (s.oldestFirst isLost).flatMap (·.messages), e.isReliable = true := by
    intro e he
    have hmem := (messages_oldestFirst isLost s).subset (List.mem_map_of_mem he)
    obtain ⟨⟨sequence, sent⟩, hrecord, he'⟩ := List.mem_flatMap.1 hmem
    obtain ⟨e', he', heq⟩ := List.mem_map.1 he'
    have hget := Std.TreeMap.mem_toList_iff_getElem?_eq_some.1 hrecord
    have := h sequence sent (getElem?_filter_eq_some.1 hget).1 e' he'
    rwa [← Outgoing.isReliable_asNew, ← heq, Outgoing.isReliable_asNew]
  refine ⟨fun sequence sent hget => h sequence sent (getElem?_filter_eq_some.1 hget).1, ?_, ?_⟩
  · simp only [waiting, lose, Queue.requeue, Fifo.toList_prepend, List.map_append, List.map_map,
      unreliable_append]
    rw [unreliable_eq_nil, List.nil_append]
    intro m hm
    obtain ⟨e, he, rfl⟩ := List.mem_map.1 hm
    exact hlost e he
  · have hqueued : (s.lose isLost).2.queued
        = ((s.oldestFirst isLost).flatMap (·.messages)).map Outgoing.asNew ++ s.queued := by
      simp only [queued, lose, Queue.requeue, Fifo.toList_prepend, List.map_append, List.map_map]
      rfl
    have hkept : (((s.oldestFirst isLost).flatMap (·.messages)).map Outgoing.asNew).filter
        Outgoing.isReliable = ((s.oldestFirst isLost).flatMap (·.messages)).map Outgoing.asNew := by
      refine List.filter_eq_self.2 fun e he => ?_
      obtain ⟨e', he', rfl⟩ := List.mem_map.1 he
      exact hlost e' he'
    rw [held, held, hqueued, List.filter_append, hkept]
    -- what is not lost stays in its record
    have hflying : ((s.lose isLost).2.flying)
        = contents (s.inFlight.filter fun sequence sent => !isLost sequence sent) := rfl
    rw [hflying]
    refine (((messages_oldestFirst isLost s).append_right _).append_right _).trans ?_
    refine (List.perm_append_comm.append_right _).trans ?_
    rw [List.append_assoc]
    exact (gather_filter (·.messages.map Outgoing.asNew) isLost s.inFlight).append_left _

theorem held_tick (h : s.RemembersReliable) (now : Nanoseconds) :
    (s.tick now).2.RemembersReliable ∧ unreliable (s.tick now).2.waiting = unreliable s.waiting ∧
      (s.tick now).2.held.Perm s.held := by
  unfold Sender.tick
  split
  · exact held_lose (s := { s with timer := s.timer.backOff }) h _
  · exact ⟨h, rfl, List.Perm.refl _⟩

/-! ## Acknowledgement -/

theorem getElem?_acknowledge (now : Nanoseconds) (sequence : Serial) (s : Sender) (k : Serial) :
    (s.acknowledge now sequence).2.inFlight[k]?
      = if k = sequence then none else s.inFlight[k]? := by
  unfold acknowledge
  split
  next hget =>
    split
    next heq => rw [heq, hget]
    next => rfl
  next sent hget =>
    simp only [deliver, Std.TreeMap.getElem?_erase, Std.LawfulEqCmp.compare_eq_iff_eq]
    exact if_congr eq_comm rfl rfl

/-- The records of numbers that are acknowledged are removed. -/
theorem getElem?_acknowledgeAll (now : Nanoseconds) (sequences : List Serial) (s : Sender)
    (k : Serial) : (s.acknowledgeAll now sequences).2.inFlight[k]?
      = if k ∈ sequences then none else s.inFlight[k]? := by
  induction sequences generalizing s with
  | nil => rfl
  | cons sequence sequences ih =>
    rw [acknowledgeAll_cons, ih, getElem?_acknowledge]
    by_cases hk : k = sequence <;> simp [hk]

/-- What was in records that are gone. -/
def removed (before after : Sender) : List Outgoing :=
  contents (before.inFlight.filter fun sequence _ => !after.inFlight.contains sequence)

/-- **A positive acknowledgement takes out what is in the records that it removes, and a negative
one nothing.** -/
theorem held_receive (h : s.RemembersReliable) (now : Nanoseconds) (a : Acknowledgement) :
    (s.receive now a).2.RemembersReliable ∧
      unreliable (s.receive now a).2.waiting = unreliable s.waiting ∧
      ((s.receive now a).2.held
          ++ if a.kind = .ack then s.removed (s.receive now a).2 else []).Perm s.held := by
  unfold Sender.receive
  cases hkind : a.kind with
  | ack =>
    have hget := getElem?_acknowledgeAll now a.numbers s
    obtain ⟨hqueue, -⟩ := acknowledgeAll_spec now a.numbers s
    have hleft : ∀ (k : Serial) (sent : SentDatagram),
        (s.acknowledgeAll now a.numbers).2.inFlight[k]? = some sent →
          s.inFlight[k]? = some sent := by
      intro k sent hsome
      rw [hget] at hsome
      split at hsome
      · cases hsome
      · exact hsome
    refine ⟨fun sequence sent hsome => h sequence sent (hleft sequence sent hsome), ?_, ?_⟩
    · simp only [waiting, hqueue]
    · simp only [held, queued, hqueue, if_true, List.append_assoc]
      exact (contents_left hleft).append_left _
  | nack =>
    obtain ⟨hreliable, hwaiting, hheld⟩ := held_lose h _
    refine ⟨hreliable, hwaiting, ?_⟩
    rw [if_neg nofun, List.append_nil]
    exact hheld

end Sender

end DatagramTransport

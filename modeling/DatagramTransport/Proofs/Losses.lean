import DatagramTransport.Proofs.Envelope
import DatagramTransport.Proofs.Settling

/-!
# Losses — what is sent again, and in which order

Datagrams are lost because the peer says so or because it said nothing for too long. Their records
are kept by number, and in whatever order they are looked through, **what is lost is gone through by
age, the oldest first**: its reliable messages go in front of everything that waits, and its
receipts are told. The age is the distance to the next number, which tells any two records apart and goes
on counting where the numbers come round.

A report may name a number twice, or one that nothing hangs on. It makes no difference how a record
was found to be lost, so `Loses` says once what becomes of the records that are.
-/

set_option autoImplicit false

namespace DatagramTransport

/-- The same message, marked as one that was sent before. -/
def Outgoing.again (e : Outgoing) : Outgoing := { e with isResend := true }

namespace Sender

variable {s : Sender}

/-! ## By age -/

/-- The order in which lost records are gone through. -/
def notYounger (s : Sender) (a b : Serial × SentDatagram) : Bool := s.age b.1 ≤ s.age a.1

/-- The records that are lost, with their numbers. -/
def lostRecords (isLost : Serial → SentDatagram → Bool) (s : Sender) :
    List (Serial × SentDatagram) :=
  (s.inFlight.filter isLost).toList.mergeSort s.notYounger

variable {isLost isLost' : Serial → SentDatagram → Bool} {record : Serial × SentDatagram}

theorem mem_lostRecords : record ∈ s.lostRecords isLost
    ↔ s.inFlight[record.1]? = some record.2 ∧ isLost record.1 record.2 = true := by
  rw [lostRecords, List.mem_mergeSort, Std.TreeMap.mem_toList_iff_getElem?_eq_some,
    getElem?_filter_eq_some]

/-- No two numbers are equally old. -/
theorem age_inj {a b : Serial} (h : s.age a = s.age b) : a = b := by
  have := a.isLt
  have := b.isLt
  ext
  simp only [age, Serial.distanceFrom] at h
  omega

/-- Records under different numbers are put in one order, whichever order they come in. -/
theorem pairwise_mergeSort_notYounger {listing : List (Serial × SentDatagram)}
    (hdistinct : listing.Pairwise fun a b => a.1 ≠ b.1) :
    (listing.mergeSort s.notYounger).Pairwise fun a b => s.age b.1 < s.age a.1 := by
  have hsorted : (listing.mergeSort s.notYounger).Pairwise fun a b => s.notYounger a b = true := by
    refine List.pairwise_mergeSort (fun a b c hab hbc => ?_) (fun a b => ?_) listing
    · exact decide_eq_true (Nat.le_trans (of_decide_eq_true hbc) (of_decide_eq_true hab))
    · simp only [notYounger, Bool.or_eq_true, decide_eq_true_eq]
      exact Nat.le_total _ _
  have hapart := (List.Perm.pairwise_iff (R := fun a b : Serial × SentDatagram => a.1 ≠ b.1)
    (fun hne heq => hne heq.symm) (List.mergeSort_perm listing s.notYounger)).2 hdistinct
  refine (hsorted.and hapart).imp fun {a b} hab => ?_
  have hle : s.age b.1 ≤ s.age a.1 := of_decide_eq_true hab.1
  exact Nat.lt_of_le_of_ne hle fun heq => hab.2 (age_inj heq).symm

/-- Some records are those that are lost, the oldest first. -/
structure Ranks (s : Sender) (isLost : Serial → SentDatagram → Bool)
    (records : List (Serial × SentDatagram)) : Prop where
  mem_iff : ∀ record, record ∈ records
    ↔ s.inFlight[record.1]? = some record.2 ∧ isLost record.1 record.2 = true
  oldest_first : records.Pairwise fun a b => s.age b.1 < s.age a.1
  /-- Whichever order the records are listed in, sorting those that are lost comes to the same. -/
  of_listing : ∀ listing : List (Serial × SentDatagram), listing.Perm s.inFlight.toList →
    (listing.filter fun record => isLost record.1 record.2).mergeSort s.notYounger = records

theorem distinct_of_perm {listing : List (Serial × SentDatagram)}
    (h : listing.Perm s.inFlight.toList) : listing.Pairwise fun a b => a.1 ≠ b.1 := by
  refine (List.Perm.pairwise_iff (fun hne heq => hne heq.symm) h).2 ?_
  refine Std.TreeMap.distinct_keys_toList.imp fun {a b} hcmp heq => hcmp ?_
  rw [heq]
  exact Std.ReflCmp.compare_self

theorem ranks_lostRecords (isLost : Serial → SentDatagram → Bool) (s : Sender) :
    s.Ranks isLost (s.lostRecords isLost) := by
  have htoList : (s.inFlight.filter isLost).toList
      = s.inFlight.toList.filter fun record => isLost record.1 record.2 :=
    Std.TreeMap.toList_filter
  have hsorted (listing : List (Serial × SentDatagram)) (h : listing.Perm s.inFlight.toList) :=
    pairwise_mergeSort_notYounger (s := s)
      ((distinct_of_perm h).filter fun record => isLost record.1 record.2)
  have hlost : s.lostRecords isLost = (s.inFlight.toList.filter fun record =>
      isLost record.1 record.2).mergeSort s.notYounger := by rw [lostRecords, htoList]
  refine ⟨fun record => mem_lostRecords, hlost ▸ hsorted _ (List.Perm.refl _), fun listing h => ?_⟩
  rw [hlost]
  refine List.Perm.eq_of_pairwise ?_ (hsorted listing h) (hsorted _ (List.Perm.refl _)) ?_
  · intro a b _ _ hab hba
    exact absurd hab (Nat.lt_asymm hba)
  · exact (List.mergeSort_perm _ _).trans ((h.filter _).trans (List.mergeSort_perm _ _).symm)

theorem any_eq_any_toList {α β : Type} {cmp : α → α → Ordering} (tree : Std.TreeMap α β cmp)
    (f : α → β → Bool) : tree.any f = tree.toList.any fun entry => f entry.1 entry.2 := by
  have hloop : tree.any f = Id.run (do
      for entry in tree do
        if f entry.1 entry.2 then return true
      return false) := rfl
  rw [hloop, Std.TreeMap.forIn_eq_forIn_toList]
  induction tree.toList with
  | nil => rfl
  | cons entry entries ih =>
    rw [List.any_cons, ← ih, List.forIn_cons]
    cases f entry.1 entry.2 <;> rfl

theorem any_inFlight_iff : s.inFlight.any isLost = true ↔
    ∃ (k : Serial) (record : SentDatagram),
      s.inFlight[k]? = some record ∧ isLost k record = true := by
  rw [any_eq_any_toList, List.any_eq_true]
  constructor
  · rintro ⟨⟨k, record⟩, hmem, hlost⟩
    exact ⟨k, record, Std.TreeMap.mem_toList_iff_getElem?_eq_some.1 hmem, hlost⟩
  · rintro ⟨k, record, hget, hlost⟩
    exact ⟨(k, record), Std.TreeMap.mem_toList_iff_getElem?_eq_some.2 hget, hlost⟩

/-- What is found to be lost depends on the records alone. -/
theorem lostRecords_congr (h : ∀ (k : Serial) (record : SentDatagram),
    s.inFlight[k]? = some record → isLost k record = isLost' k record) :
    s.lostRecords isLost = s.lostRecords isLost' := by
  have hmem : ∀ record ∈ s.inFlight.toList, isLost record.1 record.2 = isLost' record.1 record.2 :=
    fun record hrecord => h _ _ (Std.TreeMap.mem_toList_iff_getElem?_eq_some.1 hrecord)
  rw [lostRecords, lostRecords, Std.TreeMap.toList_filter, Std.TreeMap.toList_filter,
    List.filter_congr hmem]

theorem lostRecords_eq_nil (h : ∀ (k : Serial) (record : SentDatagram),
    s.inFlight[k]? = some record → isLost k record = false) : s.lostRecords isLost = [] := by
  refine List.eq_nil_iff_forall_not_mem.2 fun record hrecord => ?_
  obtain ⟨hget, hlost⟩ := mem_lostRecords.1 hrecord
  rw [h _ _ hget] at hlost
  cases hlost

/-! ## What becomes of them -/

/-- Some records are given up, and some receipts were told. -/
structure Loses (s : Sender) (records : List (Serial × SentDatagram)) (told : List Receipt)
    (s' : Sender) : Prop where
  queue_eq : s'.queue.entries.toList
    = (records.flatMap fun record => record.2.messages.map Outgoing.again)
      ++ s.queue.entries.toList
  inFlight_eq : ∀ k : Serial,
    s'.inFlight[k]? = if k ∈ records.map Prod.fst then none else s.inFlight[k]?
  /-- Each receipt that is pending is told once, where it comes first. -/
  told_eq : told = (((records.flatMap fun record => record.2.receipts).filter
    s.pendingReceipts.contains).eraseDups).map Receipt.lost
  pending_eq : ∀ id : UInt32, s'.pendingReceipts.contains id
    = (s.pendingReceipts.contains id && !(records.flatMap fun record => record.2.receipts).contains id)

theorem Loses.inFlight_of {s' : Sender} {records : List (Serial × SentDatagram)}
    {told : List Receipt} (h : s.Loses records told s') {k : Serial} {record : SentDatagram}
    (hget : s'.inFlight[k]? = some record) : s.inFlight[k]? = some record := by
  rw [h.inFlight_eq] at hget
  split at hget
  · cases hget
  · exact hget

/-- Receipts are released once, and only if they are pending. -/
theorem settle_release (outcome : UInt32 → Receipt) (ids : List UInt32) (pending : Pending) :
    (settle (release outcome) ids pending).1
        = ((ids.filter pending.contains).eraseDups).map outcome ∧
      ∀ id, (settle (release outcome) ids pending).2.contains id
        = (pending.contains id && !ids.contains id) := by
  induction ids generalizing pending with
  | nil =>
    refine ⟨rfl, fun id => ?_⟩
    simp [settle]
  | cons first ids ih =>
    rw [settle_cons]
    cases hpending : pending.contains first with
    | true =>
      obtain ⟨hdue, hleft⟩ := ih (pending.erase first)
      have herase (id : UInt32) :
          (pending.erase first).contains id = (!(id == first) && pending.contains id) := by
        rw [Std.TreeMap.contains_erase]
        congr 1
        rw [Bool.eq_iff_iff, bne_iff_ne, Bool.not_eq_true', beq_eq_false_iff_ne]
        exact not_congr (Std.LawfulEqCmp.compare_eq_iff_eq.trans eq_comm)
      have hothers : ids.filter (pending.erase first).contains
          = (ids.filter pending.contains).filter fun id => !(id == first) := by
        rw [List.filter_filter]
        exact List.filter_congr fun id _ => herase id
      simp only [release, hpending, if_true]
      refine ⟨?_, fun id => ?_⟩
      · rw [hdue, hothers, List.filter_cons_of_pos hpending, List.eraseDups_cons]
        rfl
      · rw [hleft, herase, List.contains_cons, Bool.not_or, Bool.and_right_comm, Bool.and_comm,
          ← Bool.and_assoc]
    | false =>
      obtain ⟨hdue, hleft⟩ := ih pending
      have hrelease : release outcome first pending = ([], pending) := by
        rw [release, hpending]
        rfl
      rw [hrelease]
      refine ⟨?_, fun id => ?_⟩
      · rw [List.filter_cons_of_neg (by simp [hpending])]
        exact hdue
      · rw [hleft, List.contains_cons]
        by_cases hid : id = first
        · rw [hid, hpending, Bool.false_and, Bool.false_and]
        · rw [beq_false_of_ne hid, Bool.false_or]

/-- **What is lost is given up in one way**, however it was found to be lost. -/
theorem loses_lose (isLost : Serial → SentDatagram → Bool) (s : Sender) :
    s.Loses (s.lostRecords isLost) (s.lose isLost).1 (s.lose isLost).2 := by
  have hrecords : s.oldestFirst isLost = (s.lostRecords isLost).map Prod.snd := rfl
  have hreceipts : (s.oldestFirst isLost).flatMap (·.receipts)
      = (s.lostRecords isLost).flatMap fun record => record.2.receipts := by
    rw [hrecords, List.flatMap_map]
  obtain ⟨htold, hpending⟩ := settle_release .lost
    ((s.oldestFirst isLost).flatMap (·.receipts)) s.pendingReceipts
  refine ⟨?_, fun k => ?_, hreceipts ▸ htold, hreceipts ▸ hpending⟩
  · simp only [lose, Queue.requeue, Fifo.toList_prepend, hrecords, List.flatMap_map,
      List.map_flatMap]
    rfl
  · have hleft (record : SentDatagram) : (s.lose isLost).2.inFlight[k]? = some record
        ↔ s.inFlight[k]? = some record ∧ isLost k record = false := by
      rw [← Bool.not_eq_true']
      exact getElem?_filter_eq_some
    have hlost : k ∈ (s.lostRecords isLost).map Prod.fst
        ↔ ∃ record, s.inFlight[k]? = some record ∧ isLost k record = true := by
      simp only [List.mem_map, mem_lostRecords, Prod.exists, exists_and_right, exists_eq_right]
    refine Option.ext fun record => ?_
    rw [hleft]
    split
    next hk =>
      obtain ⟨other, hget, hother⟩ := hlost.1 hk
      refine iff_of_false (fun hleft => ?_) (Option.some_ne_none record).symm
      obtain ⟨hrecord, hstays⟩ := hleft
      obtain rfl : other = record := Option.some.inj (hget.symm.trans hrecord)
      rw [hother] at hstays
      cases hstays
    next hk =>
      refine and_iff_left_of_imp fun hget => ?_
      rw [← Bool.not_eq_true]
      exact fun h => hk (hlost.2 ⟨record, hget, h⟩)

/-! ## How they are found -/

/-- Whether an event finds a record to be lost: it is reported, or it was not acknowledged in
time. -/
def finds (s : Sender) : Link.Event → Serial → SentDatagram → Bool
  | .learn _ a, k, _ => a.kind = .nack && a.numbers.contains k
  | .tick now, _, record => s.timer.rto ≤ now - record.sentAt
  | _, _, _ => false

theorem loses_loseReported (numbers : List Serial) (s : Sender) :
    s.Loses (s.lostRecords fun k _ => numbers.contains k) (s.loseReported numbers).1
      (s.loseReported numbers).2 := by
  have hreported : s.lostRecords (fun k _ => numbers.contains k) = s.lostRecords fun k _ =>
      (Std.TreeSet.ofList (numbers.filter s.inFlight.contains)).contains k := by
    refine lostRecords_congr fun k record hget => ?_
    have hk : s.inFlight.contains k = true := by
      rw [Std.TreeMap.contains_eq_isSome_getElem?, hget]
      rfl
    rw [Std.TreeSet.contains_ofList, Bool.eq_iff_iff, List.contains_iff_mem, List.contains_iff_mem,
      List.mem_filter]
    exact (and_iff_left hk).symm
  rw [hreported]
  exact loses_lose _ s

/-- Where nothing is lost, nothing changes. -/
theorem loses_nil (s : Sender) : s.Loses [] [] s where
  queue_eq := rfl
  inFlight_eq := fun _ => rfl
  told_eq := rfl
  pending_eq := fun _ => (Bool.and_true _).symm

theorem loses_tick (now : Nanoseconds) (s : Sender) :
    s.Loses (s.lostRecords fun _ record => s.isExpired now record) (s.tick now).1
      (s.tick now).2 := by
  unfold tick
  split
  · obtain ⟨hqueue, hflight, htold, hpending⟩ := loses_lose (fun _ record => s.isExpired now record)
      { s with timer := s.timer.backOff }
    exact ⟨hqueue, hflight, htold, hpending⟩
  · rename_i hnone
    have hnil : s.lostRecords (fun _ record => s.isExpired now record) = [] := by
      refine lostRecords_eq_nil fun k record hget => Bool.eq_false_iff.2 fun hexpired => ?_
      exact hnone (any_inFlight_iff.2 ⟨k, record, hget, hexpired⟩)
    rw [hnil]
    exact loses_nil s

end Sender

namespace Link

/-- The event can tell of losses: a report of missing datagrams, or the time. -/
def Event.tellsOfLosses : Event → Bool
  | .learn _ a => a.kind = .nack
  | .tick _ => true
  | _ => false

/-- The receipts that are told with an event. -/
def told (l : Link) : Event → List Receipt
  | .learn now a => (l.receiveAcknowledgement now a).1
  | .tick now => (l.tick now).1
  | _ => []

theorem loses_step (l : Link) {e : Event} (h : e.tellsOfLosses = true) :
    l.sender.Loses (l.sender.lostRecords (l.sender.finds e)) (l.told e) (l.step e).sender := by
  cases e with
  | learn now a =>
    have hkind : a.kind = .nack := of_decide_eq_true h
    have hfinds : l.sender.finds (.learn now a) = fun k _ => a.numbers.contains k := by
      funext k record
      simp [Sender.finds, hkind]
    have hreceive : l.sender.receive now a = l.sender.loseReported a.numbers := by
      rw [Sender.receive, hkind]
    rw [hfinds]
    simp only [told, step, receiveAcknowledgement, hreceive]
    exact Sender.loses_loseReported a.numbers l.sender
  | tick now => exact Sender.loses_tick now l.sender
  | _ => cases h

/-- No record comes about when a peer tells something or time passes. -/
theorem inFlight_of_learn {l : Link} {now : Nanoseconds} {a : Acknowledgement} {k : Serial}
    {record : SentDatagram} (hget : (l.step (.learn now a)).sender.inFlight[k]? = some record) :
    l.sender.inFlight[k]? = some record := by
  cases hkind : a.kind with
  | ack =>
    have hreceive : l.sender.receive now a = l.sender.acknowledgeAll now a.numbers := by
      rw [Sender.receive, hkind]
    simp only [step, receiveAcknowledgement, hreceive, Sender.getElem?_acknowledgeAll] at hget
    split at hget
    · cases hget
    · exact hget
  | nack => exact (loses_step l (e := .learn now a) (decide_eq_true hkind)).inFlight_of hget

theorem inFlight_of_tick {l : Link} {now : Nanoseconds} {k : Serial} {record : SentDatagram}
    (hget : (l.step (.tick now)).sender.inFlight[k]? = some record) :
    l.sender.inFlight[k]? = some record :=
  (loses_step l (e := .tick now) rfl).inFlight_of hget

end Link

end DatagramTransport

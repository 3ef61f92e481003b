import DatagramTransport.Proofs.Journal

/-!
# Sampling — which round trips are measured

An acknowledgement says that a datagram arrived, and the time since it was sent is a sample for the
timer. It is not, if the peer may have meant an earlier one: a message that went into two datagrams
may have been taken from either. So **a datagram is measured only if nothing in it was ever sent
before**, and once at most, since its record goes with the sample.

The timer is followed through a whole run by what happens to it. `timing` says this of one event, by
the journal and not by the marks that the sender keeps.
-/

set_option autoImplicit false

namespace DatagramTransport

/-- What happens to a retransmission timer. -/
inductive Timing where
  /-- A round trip was measured with the datagram at a place among those that were sent. -/
  | sampled (place : Nat) (measured : Nanoseconds)
  | backedOff
  deriving DecidableEq, Repr

namespace Timing

def apply (t : RetransmissionTimer) : Timing → RetransmissionTimer
  | sampled _ measured => t.sample measured
  | backedOff => t.backOff

def place? : Timing → Option Nat
  | sampled place _ => some place
  | backedOff => none

/-- The datagrams that were measured. -/
def places (timings : List Timing) : List Nat := timings.filterMap place?

theorem mem_places {timings : List Timing} {n : Nat} :
    n ∈ places timings ↔ ∃ measured, .sampled n measured ∈ timings := by
  simp only [places, List.mem_filterMap]
  constructor
  · intro h
    obtain ⟨timing, htiming, hplace⟩ := h
    cases timing with
    | sampled place measured =>
      cases hplace
      exact ⟨measured, htiming⟩
    | backedOff => cases hplace
  · intro h
    obtain ⟨measured, hmem⟩ := h
    exact ⟨_, hmem, rfl⟩

end Timing

namespace Journal

/-- None of the messages in the datagram at a place went into a datagram before it. -/
def isNew (j : Journal) (n : Nat) : Bool := !(j.datagram n).any (j.wasSentBefore n)

/-- What an acknowledgement of one number measures, if there is a record under it. -/
def sample (j : Journal) (now : Nanoseconds) (k : Serial) : Option SentDatagram → List Timing
  | some record =>
    if j.isNew (j.origin k) then [.sampled (j.origin k) (now - record.sentAt)] else []
  | none => []

/-- What an acknowledgement measures. A record is gone when its number was named. -/
def samples (j : Journal) (now : Nanoseconds) :
    List Serial → Std.TreeMap Serial SentDatagram → List Timing
  | [], _ => []
  | k :: ks, records => j.sample now k records[k]? ++ j.samples now ks (records.erase k)

/-- What an event means for the timer of a link. -/
def timing (l : Link) (j : Journal) : Link.Event → List Timing
  | .learn now a => if a.kind = .ack then j.samples now a.numbers l.sender.inFlight else []
  | .tick now =>
    if l.sender.inFlight.any fun _ record => l.sender.isExpired now record then [.backedOff] else []
  | _ => []

/-- What happens to the timer of a link while events happen to it. -/
def timings (l : Link) (j : Journal) : List Link.Event → List Timing
  | [] => []
  | e :: es => j.timing l e ++ timings (l.step e) (j.note l.sender e) es

variable {j : Journal} {l : Link} {s : Sender} {now : Nanoseconds}
  {records : Std.TreeMap Serial SentDatagram} {ks : List Serial}

theorem getElem?_erase_eq_some {k k' : Serial} {record : SentDatagram} :
    (records.erase k)[k']? = some record ↔ k' ≠ k ∧ records[k']? = some record := by
  rw [Std.TreeMap.getElem?_erase]
  by_cases h : k' = k
  · rw [h, if_pos Std.ReflCmp.compare_self]
    simp
  · rw [if_neg fun hcmp => h (Std.LawfulEqCmp.compare_eq_iff_eq.1 hcmp).symm]
    exact (and_iff_right h).symm

/-! ## What is measured

These are facts about the journal alone. An acknowledgement is gone through number by number, and a
record is gone when its number was named, so a number that is named twice measures nothing the
second time. -/

/-- A number is measured by its record, and only if that is about a new datagram. -/
theorem mem_sample {k : Serial} {found : Option SentDatagram} {n : Nat} {measured : Nanoseconds}
    (h : .sampled n measured ∈ j.sample now k found) :
    ∃ record, found = some record ∧ j.origin k = n ∧ j.isNew n = true ∧
      measured = now - record.sentAt := by
  cases found with
  | none => cases h
  | some record =>
    rw [sample] at h
    split at h
    · rename_i hnew
      obtain ⟨rfl, rfl⟩ := Timing.sampled.inj (List.mem_singleton.1 h)
      exact ⟨record, rfl, rfl, hnew, rfl⟩
    · cases h

theorem mem_samples {n : Nat} {measured : Nanoseconds}
    (h : .sampled n measured ∈ j.samples now ks records) :
    ∃ k ∈ ks, ∃ record, records[k]? = some record ∧ j.origin k = n ∧ j.isNew n = true ∧
      measured = now - record.sentAt := by
  induction ks generalizing records with
  | nil => cases h
  | cons k ks ih =>
    rcases List.mem_append.1 h with hfirst | hlater
    · obtain ⟨record, hget, hrest⟩ := mem_sample hfirst
      exact ⟨k, List.mem_cons_self, record, hget, hrest⟩
    · obtain ⟨k', hk', record, hget, hrest⟩ := ih hlater
      exact ⟨k', List.mem_cons_of_mem k hk', record, (getElem?_erase_eq_some.1 hget).2, hrest⟩

theorem nodup_sample (k : Serial) (found : Option SentDatagram) :
    (Timing.places (j.sample now k found)).Nodup := by
  cases found with
  | none => exact List.nodup_nil
  | some record =>
    rw [sample]
    split
    · exact List.pairwise_singleton _ _
    · exact List.nodup_nil

/-- An acknowledgement measures no datagram twice, even if it names a number twice. -/
theorem nodup_samples (hnumber : ∀ (k : Serial) (record : SentDatagram),
    records[k]? = some record → Serial.ofNat (j.origin k) = k) (now : Nanoseconds)
    (ks : List Serial) : (Timing.places (j.samples now ks records)).Nodup := by
  induction ks generalizing records with
  | nil => exact List.nodup_nil
  | cons k ks ih =>
    have hlater : (Timing.places (j.samples now ks (records.erase k))).Nodup :=
      ih fun k' record hget => hnumber k' record (getElem?_erase_eq_some.1 hget).2
    rw [samples, Timing.places, List.filterMap_append]
    refine List.nodup_append.2 ⟨nodup_sample k _, hlater, ?_⟩
    intro n hn n' hn' heq
    obtain ⟨measured, hfirst⟩ := Timing.mem_places.1 hn
    obtain ⟨measured', hsecond⟩ := Timing.mem_places.1 hn'
    obtain ⟨record, hget, horigin, -⟩ := mem_sample hfirst
    obtain ⟨k', -, record', hget', horigin', -⟩ := mem_samples hsecond
    obtain ⟨hne, hget'⟩ := getElem?_erase_eq_some.1 hget'
    -- the place of a record tells its number
    rw [← hnumber k record hget, ← hnumber k' record' hget', horigin, horigin', heq] at hne
    exact hne rfl

/-! ## What becomes of the timer

A sender marks in a record whether anything in it is sent again. The mark is right, as the journal
tells what the sender knows (`Journal.Tells`), so the sender measures what the journal says. Nothing
else touches the timer except a tick that finds something expired. -/

/-- A record knows whether its datagram is new. -/
theorem Tells.isResend_eq {line : List Outgoing} (h : j.Tells line s) {k : Serial}
    {record : SentDatagram} (hget : s.inFlight[k]? = some record) :
    record.isResend = !j.isNew (j.origin k) := by
  rw [(h.records k record hget).isResend_eq, isNew, Bool.not_not]

theorem timer_acknowledge {line : List Outgoing} (h : j.Tells line s) (now : Nanoseconds)
    (k : Serial) : (s.acknowledge now k).2.timer
      = (j.sample now k s.inFlight[k]?).foldl Timing.apply s.timer := by
  unfold Sender.acknowledge
  cases hget : s.inFlight[k]? with
  | none => rfl
  | some record =>
    simp only [Sender.deliver, h.isResend_eq hget, sample]
    cases j.isNew (j.origin k) <;> rfl

theorem timer_acknowledgeAll {line : List Outgoing} (h : j.Tells line s) (now : Nanoseconds)
    (ks : List Serial) (hsame : ∀ k : Serial, records[k]? = s.inFlight[k]?) :
    (s.acknowledgeAll now ks).2.timer = (j.samples now ks records).foldl Timing.apply s.timer := by
  induction ks generalizing s records with
  | nil => rfl
  | cons k ks ih =>
    have hleft (k' : Serial) :
        (records.erase k)[k']? = (s.acknowledge now k).2.inFlight[k']? := by
      refine Option.ext fun record => ?_
      rw [getElem?_erase_eq_some, Sender.getElem?_acknowledge, hsame]
      split
      · simp [*]
      · simp [*]
    have hfewer : j.Tells line (s.acknowledge now k).2 := by
      refine h.mono (Sender.acknowledge_nextSequence now k s) fun k' record hget => ?_
      rw [← hleft, getElem?_erase_eq_some, hsame] at hget
      exact hget.2
    rw [Sender.acknowledgeAll_cons, ih hfewer hleft, samples, List.foldl_append, hsame,
      timer_acknowledge h now k]

theorem timer_collect_dispatch (now : Nanoseconds) (batches : List (List Outgoing)) (s : Sender) :
    (Stepwise.collect (Sender.dispatch now) batches s).2.timer = s.timer := by
  induction batches generalizing s with
  | nil => rfl
  | cons batch batches ih =>
    rw [Stepwise.collect_cons]
    exact ih (s.dispatch now batch).2

theorem timer_send {r : Reliability} {channel : UInt8} {payload : Octets} {s' : Sender}
    {receipt : Option UInt32} (h : s.send r channel payload = .ok (receipt, s')) :
    s'.timer = s.timer := by
  unfold Sender.send at h
  simp only at h
  split at h
  · cases h
  · split at h
    · cases h
      rfl
    · cases h
      rfl

/-- What happens to the timer with an event is what the journal says. -/
theorem Follows.timer_step (h : j.Follows l) (e : Link.Event) :
    (l.step e).sender.timer = (j.timing l e).foldl Timing.apply l.sender.timer := by
  cases e with
  | submit r channel payload =>
    simp only [Link.step, Link.send, timing]
    cases hsend : l.sender.send r channel payload with
    | error fault => rfl
    | ok result => exact timer_send hsend
  | clear | hear d => rfl
  | learn now a =>
    simp only [Link.step, Link.receiveAcknowledgement, Sender.receive, timing]
    cases hkind : a.kind with
    | ack => exact timer_acknowledgeAll h now a.numbers fun _ => rfl
    | nack => rfl
  | tick now =>
    simp only [Link.step, Link.tick, Sender.tick, timing]
    split <;> rfl
  | flushDatagrams now limit | flush now limit =>
    exact timer_collect_dispatch now _ { l.sender with queue := (l.sender.queue.pack limit).2 }

/-! ## No datagram twice

A datagram is named by its place among all that were sent, since its number comes round. Once it was
measured its record is gone, and it never comes back: a record that is there after a step was there
before, about the same datagram, or it is about one that was sent in this step. -/

/-- Each record afterwards was there before, or it is about a datagram that was sent since. -/
structure Continues (j : Journal) (s : Sender) (j' : Journal) (s' : Sender) : Prop where
  le : j.sent.length ≤ j'.sent.length
  origin : ∀ (k : Serial) (record : SentDatagram), s'.inFlight[k]? = some record →
    (s.inFlight[k]? = some record ∧ j'.origin k = j.origin k) ∨ j.sent.length ≤ j'.origin k

/-- Nothing is sent, and no record comes about. -/
theorem continues_of_sent_eq {j' : Journal} {s' : Sender} (hsent : j'.sent = j.sent)
    (horigin : j'.origin = j.origin)
    (hflight : ∀ (k : Serial) (record : SentDatagram),
      s'.inFlight[k]? = some record → s.inFlight[k]? = some record) : j.Continues s j' s' where
  le := Nat.le_of_eq (congrArg List.length hsent.symm)
  origin := fun k record hget => Or.inl ⟨hflight k record hget, congrFun horigin k⟩

theorem Continues.trans {j' j'' : Journal} {s' s'' : Sender} (h : j.Continues s j' s')
    (h' : j'.Continues s' j'' s'') : j.Continues s j'' s'' where
  le := Nat.le_trans h.le h'.le
  origin := by
    intro k record hget
    rcases h'.origin k record hget with ⟨hget', horigin'⟩ | hlater
    · rw [horigin']
      exact h.origin k record hget'
    · exact Or.inr (Nat.le_trans h.le hlater)

theorem Tells.continues_dispatch {line : List Outgoing} (h : j.Tells line s) (now : Nanoseconds)
    (batch : List Outgoing) : j.Continues s (j.dispatch now batch) (s.dispatch now batch).2 where
  le := by simp [Journal.dispatch]
  origin := by
    intro k record hget
    rcases h.record_dispatch hget with hold | ⟨-, -, horigin⟩
    · exact Or.inl hold
    · exact Or.inr (Nat.le_of_eq horigin.symm)

theorem Tells.continues_flush {batches : List (List Outgoing)} {rest : List Outgoing}
    (h : j.Tells (batches.flatten ++ rest) s) (now : Nanoseconds) :
    j.Continues s (batches.foldl (fun j batch => j.dispatch now batch) j)
      (Stepwise.collect (Sender.dispatch now) batches s).2 := by
  induction batches generalizing j s with
  | nil => exact continues_of_sent_eq rfl rfl fun _ _ hget => hget
  | cons batch batches ih =>
    rw [Stepwise.collect_cons]
    rw [List.flatten_cons, List.append_assoc] at h
    exact (h.continues_dispatch now batch).trans (ih (h.dispatch now))

theorem foldl_add (messages : List Message) (receipt : Option UInt32) (j : Journal) :
    (messages.foldl (fun j m => j.add ⟨m, receipt, false⟩) j).sent = j.sent ∧
      (messages.foldl (fun j m => j.add ⟨m, receipt, false⟩) j).origin = j.origin := by
  induction messages generalizing j with
  | nil => exact ⟨rfl, rfl⟩
  | cons m messages ih => exact ih (j.add ⟨m, receipt, false⟩)

theorem Follows.continues (h : j.Follows l) (e : Link.Event) :
    j.Continues l.sender (j.note l.sender e) (l.step e).sender := by
  cases e with
  | submit r channel payload =>
    simp only [note, Link.step, Link.send]
    cases hsend : l.sender.send r channel payload with
    | error fault => exact continues_of_sent_eq rfl rfl fun _ _ hget => hget
    | ok result =>
      obtain ⟨receipt, s'⟩ := result
      obtain ⟨-, -, -, hflight⟩ := Sender.send_eq_ok hsend
      obtain ⟨hsent, horigin⟩ := foldl_add (l.sender.queue.messagesFor r channel payload) receipt j
      exact continues_of_sent_eq hsent horigin fun k record hget => hflight ▸ hget
  | clear =>
    refine continues_of_sent_eq rfl rfl fun k record hget => ?_
    have hnone : (l.step .clear).sender.inFlight[k]? = none := Std.TreeMap.getElem?_emptyc
    rw [hnone] at hget
    cases hget
  | hear d => exact continues_of_sent_eq rfl rfl fun _ _ hget => hget
  | learn now a => exact continues_of_sent_eq rfl rfl fun _ _ hget => Link.inFlight_of_learn hget
  | tick now => exact continues_of_sent_eq rfl rfl fun _ _ hget => Link.inFlight_of_tick hget
  | flushDatagrams now limit | flush now limit =>
    obtain ⟨hle, horigin⟩ := (h.packed limit).continues_flush now
    exact ⟨hle, horigin⟩

/-- **A round trip is measured only with the record of a new datagram that an acknowledgement
removes.** -/
theorem mem_timing {e : Link.Event} {n : Nat} {measured : Nanoseconds}
    (h : .sampled n measured ∈ j.timing l e) :
    ∃ now a, e = .learn now a ∧ a.kind = .ack ∧ ∃ k ∈ a.numbers, ∃ record,
      l.sender.inFlight[k]? = some record ∧ (l.step e).sender.inFlight[k]? = none ∧
        j.origin k = n ∧ j.isNew n = true ∧ measured = now - record.sentAt := by
  cases e with
  | learn now a =>
    rw [timing] at h
    split at h
    · rename_i hkind
      obtain ⟨k, hk, record, hget, hrest⟩ := mem_samples h
      refine ⟨now, a, rfl, hkind, k, hk, record, hget, ?_, hrest⟩
      simp only [Link.step, Link.receiveAcknowledgement, Sender.receive, hkind]
      rw [Sender.getElem?_acknowledgeAll, if_pos hk]
    · cases h
  | tick now =>
    rw [timing] at h
    split at h
    · cases List.mem_singleton.1 h
    · cases h
  | _ => cases h

theorem Follows.nodup_timing (h : j.Follows l) (e : Link.Event) :
    (Timing.places (j.timing l e)).Nodup := by
  cases e with
  | learn now a =>
    rw [timing]
    split
    · exact nodup_samples (fun k record hget => (h.records k record hget).number_eq) now a.numbers
    · exact List.nodup_nil
  | tick now =>
    rw [timing]
    split <;> exact List.nodup_nil
  | _ => exact List.nodup_nil

/-- The datagrams that were measured are different ones, and there is no record of them any more. -/
structure Measured (j : Journal) (s : Sender) (measured : List Nat) : Prop where
  nodup : measured.Nodup
  lt : ∀ n ∈ measured, n < j.sent.length
  gone : ∀ n ∈ measured, ∀ (k : Serial) (record : SentDatagram),
    s.inFlight[k]? = some record → j.origin k ≠ n

theorem Measured.step {measured : List Nat} (h : j.Measured l.sender measured)
    (hfollows : j.Follows l) (e : Link.Event) :
    (j.note l.sender e).Measured (l.step e).sender
      (measured ++ Timing.places (j.timing l e)) := by
  obtain ⟨hle, horigin⟩ := hfollows.continues e
  have hnow : ∀ n ∈ Timing.places (j.timing l e), ∃ k record, l.sender.inFlight[k]? = some record ∧
      (l.step e).sender.inFlight[k]? = none ∧ j.origin k = n := by
    intro n hn
    obtain ⟨t, ht⟩ := Timing.mem_places.1 hn
    obtain ⟨now, a, -, -, k, -, record, hget, hgone, hplace, -⟩ := mem_timing ht
    exact ⟨k, record, hget, hgone, hplace⟩
  have hlt : ∀ n ∈ measured ++ Timing.places (j.timing l e), n < j.sent.length := by
    intro n hn
    rcases List.mem_append.1 hn with hold | hnew
    · exact h.lt n hold
    · obtain ⟨k, record, hget, -, rfl⟩ := hnow n hnew
      exact (hfollows.records k record hget).lt
  refine ⟨List.nodup_append.2 ⟨h.nodup, hfollows.nodup_timing e, ?_⟩,
    fun n hn => Nat.lt_of_lt_of_le (hlt n hn) hle, fun n hn k record hget => ?_⟩
  · intro n hn n' hn' heq
    obtain ⟨k, record, hget, -, hplace⟩ := hnow n' hn'
    exact h.gone n hn k record hget (hplace.trans heq.symm)
  · rcases horigin k record hget with ⟨hbefore, hsame⟩ | hlater
    · rw [hsame]
      rcases List.mem_append.1 hn with hold | hnew
      · exact h.gone n hold k record hbefore
      · obtain ⟨k', record', hget', hgone, rfl⟩ := hnow n hnew
        intro heq
        -- the place of a record tells its number, and under that there is none any more
        have hk : k = k' := by
          rw [← (hfollows.records k record hbefore).number_eq,
            ← (hfollows.records k' record' hget').number_eq, heq]
        rw [hk, hgone] at hget
        cases hget
    · exact Nat.ne_of_gt (Nat.lt_of_lt_of_le (hlt n hn) hlater)

/-- Nothing is measured twice, and the timer follows what is measured. -/
theorem Measured.timings {measured : List Nat} (h : j.Measured l.sender measured)
    (hfollows : j.Follows l) (es : List Link.Event) :
    (j.notes l es).Measured (l.after es).sender (measured ++ Timing.places (j.timings l es)) ∧
      (l.after es).sender.timer = (j.timings l es).foldl Timing.apply l.sender.timer := by
  induction es generalizing j l measured with
  | nil =>
    refine ⟨?_, rfl⟩
    have hnone : measured ++ Timing.places (j.timings l []) = measured := List.append_nil measured
    rwa [hnone]
  | cons e es ih =>
    obtain ⟨hmeasured, htimer⟩ := ih (h.step hfollows e) (hfollows.step e)
    have hplaces : Timing.places (j.timings l (e :: es)) = Timing.places (j.timing l e)
        ++ Timing.places ((j.note l.sender e).timings (l.step e) es) := List.filterMap_append
    have hfold : (j.timings l (e :: es)).foldl Timing.apply l.sender.timer
        = ((j.note l.sender e).timings (l.step e) es).foldl Timing.apply
            (l.step e).sender.timer := by
      rw [hfollows.timer_step e]
      exact List.foldl_append
    rw [hplaces, hfold, ← List.append_assoc]
    exact ⟨hmeasured, htimer⟩

theorem ids_ne_of_isNew {n : Nat} (h : j.isNew n = true) :
    ∀ g ∈ j.datagram n, ∀ i < n, ∀ g' ∈ j.datagram i, g'.id ≠ g.id := by
  intro g hg i hi g' hg'
  rw [isNew, Bool.not_eq_true', List.any_eq_false] at h
  have hnever := Bool.eq_false_iff.2 (h g hg)
  refine isAmong_eq_false.1 hnever g' (List.mem_flatten.2 ⟨j.datagram i, ?_, hg'⟩)
  -- what is in a datagram is in one that was sent
  rw [datagram, List.getD_eq_getElem?_getD] at hg' ⊢
  cases hget : j.sent[i]? with
  | none =>
    rw [hget] at hg'
    cases hg'
  | some gs =>
    rw [Option.getD_some]
    exact List.mem_of_getElem? ((List.getElem?_take_of_lt hi).trans hget)

/-- **What is measured, and what is not.** Whatever happens to a link, its timer is what comes of
the samples and the doublings that are noted along the way. A sample is noted only when an
acknowledgement removes the record of a datagram, and only if none of the messages in that datagram
went into one before it; what is measured is then the time since it was sent. No datagram is
measured twice. The numbers of datagrams may come round and be used again meanwhile. -/
theorem only_new_measured (settings : Settings) (mtu : UInt16) (es : List Link.Event) :
    let start := Link.fresh settings mtu
    let l := start.after es
    let j := empty.notes start es
    l.sender.timer = (empty.timings start es).foldl Timing.apply start.sender.timer ∧
      (Timing.places (empty.timings start es)).Nodup ∧
      ∀ (e : Link.Event) (n : Nat) (measured : Nanoseconds), .sampled n measured ∈ j.timing l e →
        ∃ now a, e = .learn now a ∧ a.kind = .ack ∧ ∃ k ∈ a.numbers, ∃ record,
          l.sender.inFlight[k]? = some record ∧ (l.step e).sender.inFlight[k]? = none ∧
            j.RecordOf n k record ∧ measured = now - record.sentAt ∧
            ∀ g ∈ j.datagram n, ∀ i < n, ∀ g' ∈ j.datagram i, g'.id ≠ g.id := by
  intro start l j
  have hstart : empty.Follows start := tells_empty settings mtu
  have hnothing : empty.Measured start.sender [] :=
    ⟨List.nodup_nil, fun _ hn => absurd hn List.not_mem_nil, fun _ hn => absurd hn List.not_mem_nil⟩
  obtain ⟨hmeasured, htimer⟩ := hnothing.timings hstart es
  refine ⟨htimer, hmeasured.nodup, fun e n measured hsampled => ?_⟩
  obtain ⟨now, a, he, hkind, k, hk, record, hget, hgone, hplace, hnew, hmeasure⟩ :=
    mem_timing hsampled
  refine ⟨now, a, he, hkind, k, hk, record, hget, hgone, ?_, hmeasure, ids_ne_of_isNew hnew⟩
  rw [← hplace]
  exact (hstart.notes es).records k record hget

/-- A message is lost and sent again together with a new one, and then a new one is sent alone. All
three datagrams are acknowledged, the last of them twice. -/
def resentAmongNew : List Link.Event :=
  [.submit .reliable 0 [1], .flush 0 1, .learn 1 ⟨.nack, [.single (Serial.ofNat 0)]⟩,
    .submit .reliable 0 [2], .flush 1 1, .submit .reliable 0 [3], .flush 1 1,
    .learn 5 ⟨.ack, [⟨Serial.ofNat 0, Serial.ofNat 2⟩, .single (Serial.ofNat 2)]⟩]

theorem only_new_measured_resentAmongNew :
    let start := Link.fresh {} 400
    empty.timings start resentAmongNew = [.sampled 2 4] ∧
      (start.after resentAmongNew).sender.timer = start.sender.timer.sample 4 := by
  intro start
  have htimings : empty.timings start resentAmongNew = [.sampled 2 4] := by decide +kernel
  have htimer := (only_new_measured {} 400 resentAmongNew).1
  refine ⟨htimings, ?_⟩
  rw [htimer, htimings, List.foldl_cons, List.foldl_nil, Timing.apply]

end Journal

end DatagramTransport

import DatagramTransport.Proofs.Losses

/-!
# Journal — which message is which

Two messages may look the same, and one that is sent again looks the same each time. To say of a
message that it was never sent before, or of a datagram that it has nothing in it that another one
had, each message gets a name when it is made, and a journal follows it: where it stands in the
queue, and in which datagrams it went. **A message is marked as sent before if and only if it was**,
and a record knows whether there is such a message in its datagram.

The journal only reads what the sender does. It goes on through anything that can happen to a link,
also past the point where the numbers of datagrams come round and a record takes the place of
another.
-/

set_option autoImplicit false

namespace DatagramTransport

/-- A message that a sender was given, and which one it is. -/
structure Given where
  id : Nat
  /-- As it was made. -/
  entry : Outgoing
  deriving DecidableEq, Repr

/-- The message is one of these. -/
def Given.isAmong (gs : List Given) (g : Given) : Bool := gs.any (·.id == g.id)

/-- What became of each message that a sender was given. -/
structure Journal where
  /-- How many there were. -/
  count : Nat
  /-- Those that wait in the queue, in its order. -/
  waiting : List Given
  /-- Those that went into each datagram that was sent. -/
  sent : List (List Given)
  /-- The place, among all that were sent, of the datagram that the record under a number is
  about. -/
  origin : Serial → Nat

namespace Journal

def empty : Journal := ⟨0, [], [], fun _ => 0⟩

/-- The messages in the datagram at a place. -/
def datagram (j : Journal) (n : Nat) : List Given := j.sent.getD n []

/-- The message went into a datagram. -/
def wasSent (j : Journal) (g : Given) : Bool := g.isAmong j.sent.flatten

/-- The message went into a datagram before the one at a place. -/
def wasSentBefore (j : Journal) (n : Nat) (g : Given) : Bool := g.isAmong (j.sent.take n).flatten

/-- How the message has to stand in the queue. -/
def asQueued (j : Journal) (g : Given) : Outgoing := { g.entry with isResend := j.wasSent g }

/-! ## What is noted -/

def add (entry : Outgoing) (j : Journal) : Journal :=
  { j with count := j.count + 1, waiting := j.waiting ++ [⟨j.count, entry⟩] }

/-- A batch from the front of the queue is sent. There is a record of it unless it is trivial. -/
def dispatch (now : Nanoseconds) (batch : List Outgoing) (j : Journal) : Journal :=
  { j with
    waiting := j.waiting.drop batch.length
    sent := j.sent ++ [j.waiting.take batch.length]
    origin := fun k =>
      if !(SentDatagram.ofBatch now batch).isTrivial && k == Serial.ofNat j.sent.length then
        j.sent.length
      else j.origin k }

/-- What is reliable in the datagrams of these records is queued again. -/
def lose (numbers : List Serial) (j : Journal) : Journal :=
  { j with
    waiting := (numbers.flatMap fun k => (j.datagram (j.origin k)).filter (·.entry.isReliable))
      ++ j.waiting }

/-- What an event means for the messages of a sender. -/
def note (s : Sender) (j : Journal) : Link.Event → Journal
  | .submit r channel payload =>
    match s.send r channel payload with
    | .error _ => j
    | .ok (receipt, _) =>
      (s.queue.messagesFor r channel payload).foldl (fun j m => j.add ⟨m, receipt, false⟩) j
  | .clear => { j with waiting := [] }
  | .hear _ => j
  | .learn now a => j.lose ((s.lostRecords (s.finds (.learn now a))).map Prod.fst)
  | .tick now => j.lose ((s.lostRecords (s.finds (.tick now))).map Prod.fst)
  | .flushDatagrams now limit | .flush now limit =>
    (s.queue.pack limit).1.foldl (fun j batch => j.dispatch now batch) j

/-- What is noted while events happen to a link. -/
def notes (l : Link) (j : Journal) : List Link.Event → Journal
  | [] => j
  | e :: es => notes (l.step e) (j.note l.sender e) es

/-! ## The journal is right -/

/-- A record is about the datagram at a place: it is kept under its number, has the reliable
messages in it and knows whether one of them went into a datagram before. -/
structure RecordOf (j : Journal) (n : Nat) (k : Serial) (record : SentDatagram) : Prop where
  lt : n < j.sent.length
  number_eq : Serial.ofNat n = k
  messages_eq : record.messages.map Outgoing.again
    = ((j.datagram n).filter (·.entry.isReliable)).map (·.entry.again)
  isResend_eq : record.isResend = (j.datagram n).any (j.wasSentBefore n)

/-- The journal tells of a sender in whose queue these messages stand. -/
structure Tells (j : Journal) (line : List Outgoing) (s : Sender) : Prop where
  next_eq : s.nextSequence = Serial.ofNat j.sent.length
  line_eq : line = j.waiting.map j.asQueued
  /-- What was sent before stands in front of what was not, and nothing of that stands there
  twice. -/
  sorted : j.waiting.Pairwise fun g g' =>
    j.wasSent g = false → j.wasSent g' = false ∧ g.id ≠ g'.id
  id_lt : ∀ g ∈ j.waiting ++ j.sent.flatten, g.id < j.count
  records : ∀ (k : Serial) (record : SentDatagram), s.inFlight[k]? = some record →
    j.RecordOf (j.origin k) k record

variable {j : Journal} {s s' : Sender} {line batch rest : List Outgoing} {now : Nanoseconds}

theorem isAmong_eq_false {gs : List Given} {g : Given} :
    g.isAmong gs = false ↔ ∀ g' ∈ gs, g'.id ≠ g.id := by
  simp [Given.isAmong]

theorem isAmong_append (gs gs' : List Given) (g : Given) :
    g.isAmong (gs ++ gs') = (g.isAmong gs || g.isAmong gs') := List.any_append

theorem tells_empty (settings : Settings) (mtu : UInt16) :
    empty.Tells [] (Sender.fresh settings mtu) where
  next_eq := rfl
  line_eq := rfl
  sorted := List.Pairwise.nil
  id_lt := fun _ hg => absurd hg List.not_mem_nil
  records := fun k record hget => by simp [Sender.fresh] at hget

/-- A journal tells of a sender by its numbers and its records. -/
theorem Tells.mono (h : j.Tells line s) (hnext : s'.nextSequence = s.nextSequence)
    (hflight : ∀ (k : Serial) (record : SentDatagram),
      s'.inFlight[k]? = some record → s.inFlight[k]? = some record) : j.Tells line s' :=
  ⟨hnext.trans h.next_eq, h.line_eq, h.sorted, h.id_lt,
    fun k record hget => h.records k record (hflight k record hget)⟩

/-- What was not made yet was not sent. -/
theorem Tells.wasSent_of_le (h : j.Tells line s) {g : Given} (hg : j.count ≤ g.id) :
    j.wasSent g = false := by
  refine isAmong_eq_false.2 fun g' hg' heq => ?_
  have := h.id_lt g' (List.mem_append_right _ hg')
  omega

theorem Tells.add (h : j.Tells line s) {entry : Outgoing} (hnew : entry.isResend = false) :
    (j.add entry).Tells (line ++ [entry]) s where
  next_eq := h.next_eq
  line_eq := by
    have hunsent : j.wasSent ⟨j.count, entry⟩ = false := h.wasSent_of_le (Nat.le_refl _)
    have hentry : j.asQueued ⟨j.count, entry⟩ = entry := by
      rw [asQueued, hunsent, ← hnew]
    show _ = (j.waiting ++ [(⟨j.count, entry⟩ : Given)]).map j.asQueued
    rw [List.map_append, ← h.line_eq, List.map_singleton, hentry]
  sorted := by
    refine List.pairwise_append.2 ⟨h.sorted, List.pairwise_singleton _ _, fun g hg g' hg' _ => ?_⟩
    rw [List.mem_singleton.1 hg']
    have := h.id_lt g (List.mem_append_left _ hg)
    exact ⟨h.wasSent_of_le (Nat.le_refl _), Nat.ne_of_lt this⟩
  id_lt := by
    intro g hg
    show g.id < j.count + 1
    rcases List.mem_append.1 hg with hwaiting | hsent
    · rcases List.mem_append.1 hwaiting with hold | hnow
      · exact Nat.lt_succ_of_lt (h.id_lt g (List.mem_append_left _ hold))
      · rw [List.mem_singleton.1 hnow]
        exact Nat.lt_succ_self _
    · exact Nat.lt_succ_of_lt (h.id_lt g (List.mem_append_right _ hsent))
  records := fun k record hget =>
    let ⟨hlt, hnumber, hmessages, hresend⟩ := h.records k record hget
    ⟨hlt, hnumber, hmessages, hresend⟩

/-- The messages of a payload are noted one after the other. -/
theorem Tells.make (h : j.Tells line s) (messages : List Message) (receipt : Option UInt32) :
    (messages.foldl (fun j m => j.add ⟨m, receipt, false⟩) j).Tells
      (line ++ messages.map (⟨·, receipt, false⟩)) s := by
  induction messages generalizing j line with
  | nil => rwa [List.map_nil, List.append_nil]
  | cons m messages ih =>
    have hadd : (j.add ⟨m, receipt, false⟩).Tells (line ++ [⟨m, receipt, false⟩]) s := h.add rfl
    have hrest := ih hadd
    rwa [List.append_assoc] at hrest

/-! ## Sending -/

theorem flatten_sent_dispatch (j : Journal) (now : Nanoseconds) (batch : List Outgoing) :
    (j.dispatch now batch).sent.flatten = j.sent.flatten ++ j.waiting.take batch.length := by
  simp [dispatch]

/-- Sending a batch makes no difference to what waits behind it. -/
theorem Tells.wasSent_dispatch (h : j.Tells line s) {g : Given}
    (hg : g ∈ j.waiting.drop batch.length) : (j.dispatch now batch).wasSent g = j.wasSent g := by
  rw [wasSent, flatten_sent_dispatch, isAmong_append, wasSent]
  cases hold : g.isAmong j.sent.flatten with
  | true => rfl
  | false =>
    refine isAmong_eq_false.2 fun g' hg' heq => ?_
    have hsorted := h.sorted
    rw [← List.take_append_drop batch.length j.waiting, List.pairwise_append] at hsorted
    cases hsent' : j.wasSent g' with
    | true =>
      rw [wasSent, Given.isAmong, heq] at hsent'
      rw [Given.isAmong, hsent'] at hold
      cases hold
    | false => exact (hsorted.2.2 g' hg' g hg hsent').2 heq

theorem RecordOf.dispatch {n : Nat} {k : Serial} {record : SentDatagram}
    (h : j.RecordOf n k record) (now : Nanoseconds) (batch : List Outgoing) :
    (j.dispatch now batch).RecordOf n k record := by
  have hdatagram : (j.dispatch now batch).datagram n = j.datagram n := by
    simp only [datagram, Journal.dispatch, List.getD_eq_getElem?_getD,
      List.getElem?_append_left h.lt]
  have hbefore : (j.dispatch now batch).wasSentBefore n = j.wasSentBefore n := by
    funext g
    simp only [wasSentBefore, Journal.dispatch, List.take_append_of_le_length (Nat.le_of_lt h.lt)]
  refine ⟨?_, h.number_eq, hdatagram ▸ h.messages_eq, hdatagram ▸ hbefore ▸ h.isResend_eq⟩
  simp only [Journal.dispatch, List.length_append, List.length_singleton]
  exact Nat.lt_succ_of_lt h.lt

/-- The record of a batch is about the datagram that is sent with it. -/
theorem Tells.recordOf_ofBatch (h : j.Tells (batch ++ rest) s) (now : Nanoseconds) :
    (j.dispatch now batch).RecordOf j.sent.length (Serial.ofNat j.sent.length)
      (SentDatagram.ofBatch now batch) := by
  have hbatch : batch = (j.waiting.take batch.length).map j.asQueued := by
    rw [List.map_take, ← h.line_eq, List.take_left]
  have hdatagram : (j.dispatch now batch).datagram j.sent.length
      = j.waiting.take batch.length := by
    simp [datagram, Journal.dispatch]
  have hbefore : (j.dispatch now batch).wasSentBefore j.sent.length = j.wasSent := by
    funext g
    simp [wasSentBefore, wasSent, Journal.dispatch]
  refine ⟨?_, rfl, ?_, ?_⟩
  · simp [Journal.dispatch]
  · have hmessages : (SentDatagram.ofBatch now batch).messages
        = ((j.waiting.take batch.length).map j.asQueued).filter Outgoing.isReliable :=
      congrArg (List.filter Outgoing.isReliable) hbatch
    rw [hdatagram, hmessages, List.filter_map, List.map_map]
    rfl
  · have hresend : (SentDatagram.ofBatch now batch).isResend
        = ((j.waiting.take batch.length).map j.asQueued).any (·.isResend) :=
      congrArg (fun sent : List Outgoing => sent.any (·.isResend)) hbatch
    rw [hdatagram, hbefore, hresend, List.any_map]
    rfl

/-- When a batch is sent, a record was there before or is that of the batch. -/
theorem Tells.record_dispatch (h : j.Tells line s) {k : Serial} {record : SentDatagram}
    (hget : (s.dispatch now batch).2.inFlight[k]? = some record) :
    (s.inFlight[k]? = some record ∧ (j.dispatch now batch).origin k = j.origin k) ∨
      (k = Serial.ofNat j.sent.length ∧ record = SentDatagram.ofBatch now batch ∧
        (j.dispatch now batch).origin k = j.sent.length) := by
  rw [Sender.inFlight_dispatch, h.next_eq] at hget
  simp only [Journal.dispatch]
  cases htrivial : (SentDatagram.ofBatch now batch).isTrivial with
  | true =>
    rw [htrivial] at hget
    exact Or.inl ⟨hget, rfl⟩
  | false =>
    rw [htrivial, if_neg Bool.false_ne_true, Std.TreeMap.getElem?_insert] at hget
    by_cases hk : k = Serial.ofNat j.sent.length
    · rw [hk, if_pos Std.ReflCmp.compare_self, Option.some.injEq] at hget
      exact Or.inr ⟨hk, hget.symm, by simp [hk]⟩
    · rw [if_neg fun hcmp => hk (Std.LawfulEqCmp.compare_eq_iff_eq.1 hcmp).symm] at hget
      exact Or.inl ⟨hget, by simp [hk]⟩

theorem Tells.dispatch (h : j.Tells (batch ++ rest) s) (now : Nanoseconds) :
    (j.dispatch now batch).Tells rest (s.dispatch now batch).2 where
  next_eq := by
    show s.nextSequence.next = _
    rw [h.next_eq, Serial.next_ofNat]
    simp [Journal.dispatch]
  line_eq := by
    have hrest : rest = (j.waiting.drop batch.length).map j.asQueued := by
      rw [List.map_drop, ← h.line_eq, List.drop_left]
    rw [hrest]
    refine List.map_congr_left fun g hg => ?_
    rw [asQueued, asQueued, h.wasSent_dispatch hg]
  sorted := by
    refine (h.sorted.sublist (List.drop_sublist _ _)).imp_of_mem fun {g g'} hg hg' hgg' => ?_
    rw [h.wasSent_dispatch hg, h.wasSent_dispatch hg']
    exact hgg'
  id_lt := by
    intro g hg
    rw [flatten_sent_dispatch, List.mem_append, List.mem_append] at hg
    rcases hg with hleft | hold | hnow
    · exact h.id_lt g (List.mem_append_left _ (List.mem_of_mem_drop hleft))
    · exact h.id_lt g (List.mem_append_right _ hold)
    · exact h.id_lt g (List.mem_append_left _ (List.mem_of_mem_take hnow))
  records := by
    intro k record hget
    rcases h.record_dispatch hget with ⟨hold, horigin⟩ | ⟨rfl, rfl, horigin⟩
    · rw [horigin]
      exact (h.records k record hold).dispatch now batch
    · rw [horigin]
      exact h.recordOf_ofBatch now

/-- Batches are noted as they are sent. -/
theorem Tells.flush {batches : List (List Outgoing)} (h : j.Tells (batches.flatten ++ rest) s)
    (now : Nanoseconds) :
    (batches.foldl (fun j batch => j.dispatch now batch) j).Tells rest
      (Stepwise.collect (Sender.dispatch now) batches s).2 := by
  induction batches generalizing j s with
  | nil => exact h
  | cons batch batches ih =>
    rw [Stepwise.collect_cons]
    rw [List.flatten_cons, List.append_assoc] at h
    exact ih (h.dispatch now)

/-! ## Loss -/

/-- The reliable messages in the datagrams of some records. -/
theorem Tells.mem_sent (h : j.Tells line s) {records : List (Serial × SentDatagram)}
    (hrecords : ∀ record ∈ records, s.inFlight[record.1]? = some record.2) {g : Given}
    (hg : g ∈ (records.map Prod.fst).flatMap fun k =>
      (j.datagram (j.origin k)).filter (·.entry.isReliable)) : g ∈ j.sent.flatten := by
  obtain ⟨k, hk, hg⟩ := List.mem_flatMap.1 hg
  obtain ⟨record, hrecord, rfl⟩ := List.mem_map.1 hk
  have hlt := (h.records _ _ (hrecords record hrecord)).lt
  refine List.mem_flatten.2 ⟨j.datagram (j.origin record.1), ?_, (List.mem_filter.1 hg).1⟩
  rw [datagram, List.getD_eq_getElem?_getD, List.getElem?_eq_getElem hlt]
  exact List.getElem_mem hlt

theorem wasSent_of_mem {g : Given} (hg : g ∈ j.sent.flatten) : j.wasSent g = true :=
  List.any_eq_true.2 ⟨g, hg, beq_self_eq_true _⟩

/-- What is lost was sent before, and it is put in front. -/
theorem Tells.lose (h : j.Tells line s) {records : List (Serial × SentDatagram)}
    (hrecords : ∀ record ∈ records, s.inFlight[record.1]? = some record.2) :
    (j.lose (records.map Prod.fst)).Tells
      ((records.flatMap fun record => record.2.messages.map Outgoing.again) ++ line) s where
  next_eq := h.next_eq
  line_eq := by
    show _ = (_ ++ j.waiting).map j.asQueued
    rw [List.map_append, ← h.line_eq, List.flatMap_map, List.map_flatMap]
    congr 1
    refine List.flatMap_congr fun record hrecord => ?_
    obtain ⟨hlt, -, hmessages, -⟩ := h.records _ _ (hrecords record hrecord)
    rw [hmessages]
    refine List.map_congr_left fun g hg => ?_
    have hmem : g ∈ j.sent.flatten := h.mem_sent hrecords
      (List.mem_flatMap.2 ⟨record.1, List.mem_map_of_mem hrecord, hg⟩)
    rw [asQueued, wasSent_of_mem hmem]
    rfl
  sorted := by
    refine List.pairwise_append.2 ⟨?_, h.sorted, fun g hg g' _ hnever => ?_⟩
    · refine List.pairwise_of_forall_mem_list fun g hg g' _ hnever => ?_
      exact absurd (hnever.symm.trans (wasSent_of_mem (h.mem_sent hrecords hg))) Bool.false_ne_true
    · exact absurd (hnever.symm.trans (wasSent_of_mem (h.mem_sent hrecords hg))) Bool.false_ne_true
  id_lt := by
    intro g hg
    rcases List.mem_append.1 hg with hwaiting | hsent
    · rcases List.mem_append.1 hwaiting with hlost | hold
      · exact h.id_lt g (List.mem_append_right _ (h.mem_sent hrecords hlost))
      · exact h.id_lt g (List.mem_append_left _ hold)
    · exact h.id_lt g (List.mem_append_right _ hsent)
  records := fun k record hget =>
    let ⟨hlt, hnumber, hmessages, hresend⟩ := h.records k record hget
    ⟨hlt, hnumber, hmessages, hresend⟩

/-! ## Every event -/

/-- The journal of a link tells of its sender. -/
def Follows (j : Journal) (l : Link) : Prop := j.Tells l.sender.queue.entries.toList l.sender

variable {l : Link}

theorem Follows.submit (h : j.Follows l) (r : Reliability) (channel : UInt8) (payload : Octets) :
    (j.note l.sender (.submit r channel payload)).Follows
      (l.step (.submit r channel payload)) := by
  simp only [note, Link.step, Link.send]
  cases hsend : l.sender.send r channel payload with
  | error fault => exact h
  | ok result =>
    obtain ⟨receipt, s'⟩ := result
    obtain ⟨-, hqueue, hnext, hflight⟩ := Sender.send_eq_ok hsend
    have hmade := Tells.make h (l.sender.queue.messagesFor r channel payload) receipt
    have hline : s'.queue.entries.toList = l.sender.queue.entries.toList
        ++ (l.sender.queue.messagesFor r channel payload).map (⟨·, receipt, false⟩) := by
      rw [hqueue]
      exact Fifo.toList_append _ _
    rw [← hline] at hmade
    exact hmade.mono hnext fun k record hget => hflight ▸ hget

theorem Follows.lose (h : j.Follows l) {e : Link.Event} (he : e.tellsOfLosses = true)
    (hnext : (l.step e).sender.nextSequence = l.sender.nextSequence) :
    (j.lose ((l.sender.lostRecords (l.sender.finds e)).map Prod.fst)).Follows (l.step e) := by
  have hloses := Link.loses_step l he
  have hflying : ∀ record ∈ l.sender.lostRecords (l.sender.finds e),
      l.sender.inFlight[record.1]? = some record.2 :=
    fun record hrecord => (Sender.mem_lostRecords.1 hrecord).1
  have hlost := Tells.lose h hflying
  rw [← hloses.queue_eq] at hlost
  exact hlost.mono hnext fun k record hget => hloses.inFlight_of hget

theorem Follows.learn (h : j.Follows l) (now : Nanoseconds) (a : Acknowledgement) :
    (j.note l.sender (.learn now a)).Follows (l.step (.learn now a)) := by
  cases hkind : a.kind with
  | ack =>
    -- nothing is lost, and a journal tells of fewer records as well
    have hnone : l.sender.lostRecords (l.sender.finds (.learn now a)) = [] :=
      Sender.lostRecords_eq_nil fun k record _ => by simp [Sender.finds, hkind]
    have hstep : (l.step (.learn now a)).sender = (l.sender.acknowledgeAll now a.numbers).2 := by
      simp only [Link.step, Link.receiveAcknowledgement, Sender.receive, hkind]
    obtain ⟨hqueue, hnext, -⟩ := Sender.acknowledgeAll_spec now a.numbers l.sender
    rw [← hstep] at hqueue hnext
    rw [Follows, note, hnone, hqueue]
    exact Tells.mono h hnext fun k record hget => Link.inFlight_of_learn hget
  | nack =>
    refine h.lose (e := .learn now a) (decide_eq_true hkind) ?_
    simp only [Link.step, Link.receiveAcknowledgement, Sender.receive, hkind]
    rfl

theorem Follows.tick (h : j.Follows l) (now : Nanoseconds) :
    (j.note l.sender (.tick now)).Follows (l.step (.tick now)) := by
  refine h.lose (e := .tick now) rfl ?_
  simp only [Link.step, Link.tick, Sender.tick]
  split <;> rfl

/-- What is packed stands in front of what is left. -/
theorem Follows.packed (h : j.Follows l) (limit : Nat) :
    j.Tells ((l.sender.queue.pack limit).1.flatten
        ++ (l.sender.queue.pack limit).2.entries.toList)
      { l.sender with queue := (l.sender.queue.pack limit).2 } := by
  rw [l.sender.queue.pack_entries limit]
  exact Tells.mono h rfl fun _ _ hget => hget

theorem Follows.flush (h : j.Follows l) (now : Nanoseconds) (limit : Nat) :
    ((l.sender.queue.pack limit).1.foldl (fun j batch => j.dispatch now batch) j).Tells
      (l.sender.flush now limit).2.queue.entries.toList (l.sender.flush now limit).2 := by
  have hqueue : (l.sender.flush now limit).2.queue = (l.sender.queue.pack limit).2 :=
    Sender.queue_collect_dispatch now _ _
  rw [hqueue]
  exact (h.packed limit).flush now

theorem Follows.step (h : j.Follows l) (e : Link.Event) :
    (j.note l.sender e).Follows (l.step e) := by
  cases e with
  | submit r channel payload => exact h.submit r channel payload
  | clear =>
    refine ⟨h.next_eq, rfl, List.Pairwise.nil, fun g hg => ?_, fun k record hget => ?_⟩
    · exact h.id_lt g (List.mem_append_right _ hg)
    · have hnone : (l.step .clear).sender.inFlight[k]? = none := Std.TreeMap.getElem?_emptyc
      rw [hnone] at hget
      cases hget
  | hear d => exact h
  | learn now a => exact h.learn now a
  | tick now => exact h.tick now
  | flushDatagrams now limit | flush now limit => exact h.flush now limit

/-- **The journal is right, whatever happens to a link.** -/
theorem Follows.notes (h : j.Follows l) (es : List Link.Event) :
    (j.notes l es).Follows (l.after es) := by
  induction es generalizing j l with
  | nil => exact h
  | cons e es ih => exact ih (h.step e)

end Journal

end DatagramTransport

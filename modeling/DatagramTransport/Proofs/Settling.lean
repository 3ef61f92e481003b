import DatagramTransport.Proofs.Holdings

/-!
# Settling — what becomes due when messages go

Every receipt that was promised hangs on messages. Those of a reliable payload are held until they
are acknowledged, and the receipt is due with the last of them; an unreliable message goes once, and
what becomes of its datagram decides on its receipt at once. **The pending count of a receipt is the
number of messages that it hangs on**, and a receipt comes due in the step in which that number
reaches zero, so it comes due once.

The argument is about counts alone. `Settles` says of two counts what was due on the way from one to
the other, and it composes; a step of the sender is then known by what it takes out of the
multiset of outstanding receipts.
-/

set_option autoImplicit false

namespace DatagramTransport

namespace Sender

/-! ## Counting down

Receipts are gone through one after the other, by `confirm` those of reliable messages and by
`release` those of unreliable ones. The two do different things with a count, and still they are one
thing under the right condition: a step takes one from its count (`CountsDown`). `confirm` does so
wherever there is something to take; `release` throws the whole count away, which is one if a single
message hangs on it. Everything behind that is about any step that counts down. -/

/-- On the way from some counts to others, what was due are the receipts that came to nothing. -/
structure Settles (before after : UInt32 → Nat) (due : List UInt32) : Prop where
  nodup : due.Nodup
  le : ∀ id, after id ≤ before id
  mem_iff : ∀ id, id ∈ due ↔ 0 < before id ∧ after id = 0

theorem Settles.refl (count : UInt32 → Nat) : Settles count count [] where
  nodup := List.nodup_nil
  le := fun _ => Nat.le_refl _
  mem_iff := by
    intro id
    simp only [List.not_mem_nil, false_iff]
    omega

theorem Settles.trans {before between after : UInt32 → Nat} {due due' : List UInt32}
    (h : Settles before between due) (h' : Settles between after due') :
    Settles before after (due ++ due') where
  nodup := by
    refine List.nodup_append.2 ⟨h.nodup, h'.nodup, ?_⟩
    rintro id hid _ hid' rfl
    have hnone := ((h.mem_iff id).1 hid).2
    have hsome := ((h'.mem_iff id).1 hid').1
    omega
  le := fun id => Nat.le_trans (h'.le id) (h.le id)
  mem_iff := by
    intro id
    have hle := h.le id
    have hle' := h'.le id
    rw [List.mem_append, h.mem_iff, h'.mem_iff]
    omega

/-- How many messages a receipt is still waiting for. -/
def Pending.count (pending : Pending) (id : UInt32) : Nat := pending.getD id 0

theorem Pending.count_erase (pending : Pending) (id other : UInt32) :
    count (pending.erase id) other = if other = id then 0 else count pending other := by
  simp only [count, Std.TreeMap.getD_erase, Std.LawfulEqCmp.compare_eq_iff_eq, eq_comm (a := id)]

theorem Pending.count_insert (pending : Pending) (id other : UInt32) (n : Nat) :
    count (pending.insert id n) other = if other = id then n else count pending other := by
  simp only [count, Std.TreeMap.getD_insert, Std.LawfulEqCmp.compare_eq_iff_eq, eq_comm (a := id)]

/-- A step for a receipt takes one from its count, and makes it due if that was the last. -/
structure CountsDown (step : UInt32 → Pending → List Receipt × Pending)
    (outcome : UInt32 → Receipt) (id : UInt32) (pending : Pending) : Prop where
  due_eq : (step id pending).1 = if pending.count id = 1 then [outcome id] else []
  count_eq : ∀ other, (step id pending).2.count other
    = if other = id then pending.count id - 1 else pending.count other

theorem countsDown_confirm {id : UInt32} {pending : Pending} (h : 0 < pending.count id) :
    CountsDown confirm .acked id pending := by
  have hget : pending[id]? = some (pending.count id) := by
    cases hget : pending[id]? with
    | none =>
      rw [Pending.count, Std.TreeMap.getD_eq_getD_getElem?, hget] at h
      exact absurd h (Nat.lt_irrefl 0)
    | some count =>
      rw [Pending.count, Std.TreeMap.getD_eq_getD_getElem?, hget]
      rfl
  unfold confirm
  by_cases hone : pending.count id = 1
  · refine ⟨?_, fun other => ?_⟩
    · simp only [hget, hone, Nat.le_refl, if_true]
    · simp only [hget, hone, Nat.le_refl, if_true, Pending.count_erase, Nat.sub_self]
  · have hmany : ¬ pending.count id ≤ 1 := by omega
    refine ⟨?_, fun other => ?_⟩
    · simp only [hget, hmany, hone, if_false]
    · simp only [hget, hmany, if_false, Pending.count_insert]

theorem countsDown_release (outcome : UInt32 → Receipt) {id : UInt32} {pending : Pending}
    (h : pending.count id = 1) : CountsDown (release outcome) outcome id pending := by
  have hcontains : pending.contains id = true := by
    rw [Std.TreeMap.contains_eq_isSome_getElem?]
    cases hget : pending[id]? with
    | none =>
      rw [Pending.count, Std.TreeMap.getD_eq_getD_getElem?, hget] at h
      cases h
    | some count => rfl
  unfold release
  refine ⟨?_, fun other => ?_⟩
  · simp only [hcontains, if_true, h]
  · simp only [hcontains, if_true, h, Pending.count_erase, Nat.sub_self]

theorem CountsDown.le {step : UInt32 → Pending → List Receipt × Pending}
    {outcome : UInt32 → Receipt} {id : UInt32} {pending : Pending}
    (h : CountsDown step outcome id pending) (other : UInt32) :
    (step id pending).2.count other ≤ pending.count other := by
  rw [h.count_eq]
  split
  next heq =>
    rw [heq]
    omega
  next => exact Nat.le_refl _

/-- What a step makes due is the receipt that it takes the last one from. -/
theorem CountsDown.settles {step : UInt32 → Pending → List Receipt × Pending}
    {outcome : UInt32 → Receipt} {id : UInt32} {pending : Pending}
    (h : CountsDown step outcome id pending) (hpos : 0 < pending.count id) :
    Settles pending.count (step id pending).2.count
      (if pending.count id = 1 then [id] else []) := by
  refine ⟨by split <;> simp, h.le, fun other => ?_⟩
  rw [h.count_eq]
  by_cases hother : other = id
  · subst hother
    by_cases hone : pending.count other = 1
    · simp [hone]
    · simp only [hone, if_false, if_true, List.not_mem_nil, false_iff]
      omega
  · simp only [hother, if_false]
    split
    · simp only [List.mem_singleton, hother, false_iff]
      omega
    · simp only [List.not_mem_nil, false_iff]
      omega

theorem settle_cons (step : UInt32 → Pending → List Receipt × Pending) (id : UInt32)
    (ids : List UInt32) (pending : Pending) :
    settle step (id :: ids) pending
      = ((step id pending).1 ++ (settle step ids (step id pending).2).1,
          (settle step ids (step id pending).2).2) := by
  simp only [settle, Stepwise.collect_cons, List.flatten_cons]

/-- **Going through receipts takes each from its count as often as it comes**, and those that come
to nothing are due, once each. -/
theorem settle_spec (step : UInt32 → Pending → List Receipt × Pending)
    (outcome : UInt32 → Receipt) (ids : List UInt32) (pending : Pending)
    (hstep : ∀ id ∈ ids, ∀ p : Pending, 0 < p.count id → p.count id ≤ pending.count id →
      CountsDown step outcome id p)
    (henough : ∀ id, ids.count id ≤ pending.count id) :
    ∃ due, (settle step ids pending).1 = due.map outcome ∧
      Settles pending.count (settle step ids pending).2.count due ∧
      ∀ id, (settle step ids pending).2.count id = pending.count id - ids.count id := by
  induction ids generalizing pending with
  | nil => exact ⟨[], rfl, Settles.refl _, fun id => rfl⟩
  | cons id ids ih =>
    have hpos := henough id
    rw [List.count_cons_self] at hpos
    have hfirst := hstep id List.mem_cons_self pending (by omega) (Nat.le_refl _)
    -- what the rest takes was not taken by the first step
    have hrest : ∀ other, ids.count other ≤ (step id pending).2.count other := by
      intro other
      have hother := henough other
      rw [List.count_cons] at hother
      rw [hfirst.count_eq]
      split
      · rename_i heq
        simp only [heq, beq_self_eq_true, if_true] at hother ⊢
        omega
      · omega
    obtain ⟨due, hlater, hsettles, hleft⟩ := ih _
      (fun other hother p hpos hle => hstep other (List.mem_cons_of_mem _ hother) p hpos
        (Nat.le_trans hle (hfirst.le other))) hrest
    rw [settle_cons]
    refine ⟨(if pending.count id = 1 then [id] else []) ++ due, ?_,
      (hfirst.settles (by omega)).trans hsettles, fun other => ?_⟩
    · rw [hlater, hfirst.due_eq, List.map_append]
      split <;> rfl
    · simp only [hleft, hfirst.count_eq, List.count_cons]
      by_cases hother : other = id
      · subst hother
        simp only [if_true, beq_self_eq_true]
        omega
      · simp only [hother, if_false, beq_iff_eq, Ne.symm hother]
        omega

/-! ## What receipts hang on

The receipts are read off the messages that a sender has, as a list in which a receipt stands once
for each message that it hangs on. Then the order and the place of messages do not matter, and what
an operation does to the list is said up to permutation. `Squares` ties the counts to the list;
`Passes` is one step for both, and all of them compose. -/

variable {s : Sender}

/-- The receipts of the unreliable messages among some. -/
def looseAmong (es : List Outgoing) : List UInt32 :=
  es.filterMap fun e => if e.isReliable then none else e.receipt

/-- The receipts of unreliable messages that are queued or in flight. -/
def loose (s : Sender) : List UInt32 := looseAmong s.queued ++ gather (·.receipts) s.inFlight

/-- The receipts of reliable messages that are queued or in flight. -/
def tied (s : Sender) : List UInt32 := s.held.filterMap (·.receipt)

/-- The receipts that are not due yet, each as often as there are messages that it hangs on. -/
def outstanding (s : Sender) : List UInt32 := s.tied ++ s.loose

theorem tied_perm {s' : Sender} (h : s'.held.Perm s.held) : s'.tied.Perm s.tied :=
  h.filterMap _

@[simp] theorem looseAmong_append (es es' : List Outgoing) :
    looseAmong (es ++ es') = looseAmong es ++ looseAmong es' := List.filterMap_append

@[simp] theorem looseAmong_map_asNew (es : List Outgoing) :
    looseAmong (es.map Outgoing.asNew) = looseAmong es := List.filterMap_map

theorem looseAmong_eq_nil {es : List Outgoing} (h : ∀ e ∈ es, e.isReliable = true) :
    looseAmong es = [] := by
  refine List.filterMap_eq_nil_iff.2 fun e he => ?_
  rw [h e he]
  rfl

theorem receipts_map_asNew (es : List Outgoing) :
    (es.map Outgoing.asNew).filterMap (·.receipt) = es.filterMap (·.receipt) :=
  List.filterMap_map

/-- The pending counts are those of the messages, and a loose receipt hangs on one message. -/
structure Squares (s : Sender) : Prop where
  remembers : s.RemembersReliable
  count_eq : ∀ id, s.pendingReceipts.count id = s.outstanding.count id
  single : ∀ id ∈ s.loose, s.outstanding.count id = 1

theorem squares_fresh (settings : Settings) (mtu : UInt16) : (fresh settings mtu).Squares where
  remembers := remembersReliable_fresh settings mtu
  count_eq := fun _ => rfl
  single := fun _ hid => nomatch (hid : _ ∈ [])

/-- A sender that has promised nothing has gone on to another, and what was due on the way. -/
structure Passes (s s' : Sender) (due : List UInt32) : Prop where
  squares : s'.Squares
  settles : Settles (s.outstanding.count ·) (s'.outstanding.count ·) due
  tied : s'.tied ⊆ s.tied
  loose : s'.loose ⊆ s.loose
  nextReceipt_eq : s'.nextReceipt = s.nextReceipt

theorem Passes.trans {s' s'' : Sender} {due due' : List UInt32} (h : Passes s s' due)
    (h' : Passes s' s'' due') : Passes s s'' (due ++ due') where
  squares := h'.squares
  settles := h.settles.trans h'.settles
  tied := fun _ hid => h.tied (h'.tied hid)
  loose := fun _ hid => h.loose (h'.loose hid)
  nextReceipt_eq := h'.nextReceipt_eq.trans h.nextReceipt_eq

/-- What is taken out of the outstanding receipts has to be taken from the pending counts. -/
theorem Squares.pass (h : s.Squares) {s' : Sender} (ids : List UInt32) {due : List UInt32}
    (hremembers : s'.RemembersReliable) (hout : s.outstanding.Perm (ids ++ s'.outstanding))
    (htied : s'.tied ⊆ s.tied) (hloose : s'.loose ⊆ s.loose)
    (hnext : s'.nextReceipt = s.nextReceipt)
    (hsettles : Settles s.pendingReceipts.count s'.pendingReceipts.count due)
    (hcount : ∀ id, s'.pendingReceipts.count id = s.pendingReceipts.count id - ids.count id) :
    Passes s s' due := by
  have hsplit : ∀ id, s.outstanding.count id = ids.count id + s'.outstanding.count id := by
    intro id
    rw [hout.count_eq id, List.count_append]
  have hsquare : ∀ id, s'.pendingReceipts.count id = s'.outstanding.count id := by
    intro id
    rw [hcount, h.count_eq, hsplit]
    omega
  refine ⟨⟨hremembers, hsquare, fun id hid => ?_⟩, ?_, htied, hloose, hnext⟩
  · have hone := h.single id (hloose hid)
    have hmem : id ∈ s'.outstanding := List.mem_append_right _ hid
    have hpos := List.count_pos_iff.2 hmem
    have := hsplit id
    omega
  · have hbefore : s.pendingReceipts.count = fun id => s.outstanding.count id :=
      funext h.count_eq
    have hafter : s'.pendingReceipts.count = fun id => s'.outstanding.count id :=
      funext hsquare
    rwa [hbefore, hafter] at hsettles

/-- Where nothing is due, everything has to be outstanding as before. -/
theorem Squares.stay (h : s.Squares) {s' : Sender} (hremembers : s'.RemembersReliable)
    (htied : s'.tied.Perm s.tied) (hloose : s'.loose.Perm s.loose)
    (hpending : s'.pendingReceipts = s.pendingReceipts)
    (hnext : s'.nextReceipt = s.nextReceipt) : Passes s s' [] := by
  refine h.pass [] hremembers (htied.append hloose).symm htied.subset hloose.subset hnext
    ?_ fun id => ?_
  · rw [hpending]
    exact Settles.refl _
  · rw [hpending]
    rfl

/-! ## Acknowledgement

A record goes with its messages. The list of what is outstanding is cut in two at this record, into
what its messages have and what all the others have, and the sender goes through exactly the first
part. That no receipt of an unreliable message stands anywhere else in the list is what allows
`release` there. -/

/-- What is outstanding with a record is what its messages have, and what is so without it. -/
theorem outstanding_erase {sequence : Serial} {sent : SentDatagram}
    (hget : s.inFlight[sequence]? = some sent) :
    let left : Sender := { s with inFlight := s.inFlight.erase sequence }
    let ids := sent.messages.filterMap (·.receipt)
    s.tied.Perm (ids ++ left.tied) ∧ s.loose.Perm (sent.receipts ++ left.loose) ∧
      s.outstanding.Perm ((ids ++ sent.receipts) ++ left.outstanding) := by
  intro left ids
  have htied : s.tied.Perm (ids ++ left.tied) := by
    have hflying := gather_erase (·.messages.map Outgoing.asNew) hget
    have hheld := ((hflying.append_left (s.queued.filter Outgoing.isReliable)).trans
      (List.perm_append_comm_assoc _ _ _)).filterMap (·.receipt)
    rwa [List.filterMap_append (l := sent.messages.map Outgoing.asNew),
      receipts_map_asNew] at hheld
  have hloose : s.loose.Perm (sent.receipts ++ left.loose) :=
    ((gather_erase (·.receipts) hget).append_left (looseAmong s.queued)).trans
      (List.perm_append_comm_assoc _ _ _)
  refine ⟨htied, hloose, (htied.append hloose).trans ?_⟩
  rw [List.append_assoc, List.append_assoc]
  exact (List.perm_append_comm_assoc _ _ _).append_left _

/-- The receipts of a record are settled in two rounds, and the second is about receipts that the
first has left alone. -/
theorem settle_both {pending : Pending} {ids single : List UInt32}
    (henough : ∀ id, ids.count id + single.count id ≤ pending.count id)
    (hsingle : ∀ id ∈ single, pending.count id = 1) :
    ∃ due due', (settle confirm ids pending).1 = due.map .acked ∧
      (settle (release .acked) single (settle confirm ids pending).2).1 = due'.map .acked ∧
      Settles pending.count
        (settle (release .acked) single (settle confirm ids pending).2).2.count (due ++ due') ∧
      ∀ id, (settle (release .acked) single (settle confirm ids pending).2).2.count id
        = pending.count id - (ids ++ single).count id := by
  obtain ⟨due, hdue, hsettles, hcount⟩ := settle_spec confirm .acked ids pending
    (fun _ _ _ hpos _ => countsDown_confirm hpos)
    fun id => Nat.le_trans (Nat.le_add_right _ _) (henough id)
  obtain ⟨due', hdue', hsettles', hcount'⟩ := settle_spec (release .acked) .acked single
    (settle confirm ids pending).2
    (fun id hid p hpos hle => countsDown_release .acked (by
      have := hsingle id hid
      have := hcount id
      omega))
    (fun id => by
      have := henough id
      rw [hcount]
      omega)
  refine ⟨due, due', hdue, hdue', hsettles.trans hsettles', fun id => ?_⟩
  rw [hcount', hcount, List.count_append]
  omega

/-- **The acknowledgement of a datagram takes one from the count of a receipt for each message in
its record.** -/
theorem Squares.acknowledge (h : s.Squares) (now : Nanoseconds) (sequence : Serial) :
    ∃ due, (s.acknowledge now sequence).1 = due.map .acked ∧
      Passes s (s.acknowledge now sequence).2 due := by
  unfold Sender.acknowledge
  cases hget : s.inFlight[sequence]? with
  | none =>
    exact ⟨[], rfl, h.stay h.remembers (List.Perm.refl _) (List.Perm.refl _) rfl rfl⟩
  | some sent =>
    obtain ⟨htied, hloose, hout⟩ := outstanding_erase hget
    have henough : ∀ id, (sent.messages.filterMap (·.receipt)).count id + sent.receipts.count id
        ≤ s.pendingReceipts.count id := by
      intro id
      rw [h.count_eq, hout.count_eq, List.count_append, List.count_append]
      exact Nat.le_add_right _ _
    have hsingle : ∀ id ∈ sent.receipts, s.pendingReceipts.count id = 1 := fun id hid =>
      (h.count_eq id).trans (h.single id (hloose.symm.subset (List.mem_append_left _ hid)))
    obtain ⟨due, due', hdue, hdue', hsettles, hcount⟩ := settle_both henough hsingle
    refine ⟨due ++ due', ?_, ?_⟩
    · simp only [deliver, hdue, hdue', List.map_append]
    · refine h.pass (sent.messages.filterMap (·.receipt) ++ sent.receipts) ?_ hout
        (fun id hid => htied.symm.subset (List.mem_append_right _ hid))
        (fun id hid => hloose.symm.subset (List.mem_append_right _ hid)) rfl hsettles hcount
      intro other sent' hsent'
      refine h.remembers other sent' ?_
      simp only [deliver, Std.TreeMap.getElem?_erase] at hsent'
      split at hsent'
      · cases hsent'
      · exact hsent'

theorem acknowledgeAll_cons_due (now : Nanoseconds) (sequence : Serial) (sequences : List Serial)
    (s : Sender) : (s.acknowledgeAll now (sequence :: sequences)).1
      = (s.acknowledge now sequence).1
        ++ ((s.acknowledge now sequence).2.acknowledgeAll now sequences).1 := by
  simp only [acknowledgeAll, Stepwise.collect_cons, List.flatten_cons]

theorem Squares.acknowledgeAll (h : s.Squares) (now : Nanoseconds) (sequences : List Serial) :
    ∃ due, (s.acknowledgeAll now sequences).1 = due.map .acked ∧
      Passes s (s.acknowledgeAll now sequences).2 due := by
  induction sequences generalizing s with
  | nil => exact ⟨[], rfl, h.stay h.remembers (List.Perm.refl _) (List.Perm.refl _) rfl rfl⟩
  | cons sequence sequences ih =>
    obtain ⟨due, hdue, hpasses⟩ := h.acknowledge now sequence
    obtain ⟨due', hdue', hpasses'⟩ := ih hpasses.squares
    rw [acknowledgeAll_cons_due, acknowledgeAll_cons]
    exact ⟨due ++ due', by rw [hdue, hdue', List.map_append], hpasses.trans hpasses'⟩

/-! ## Loss

The messages that are lost do not leave the sender if they are reliable: they change their place,
and nothing becomes of their receipts. Those of the unreliable ones are all that the sender goes
through. -/

theorem receipts_oldestFirst (isLost : Serial → SentDatagram → Bool) (s : Sender) :
    ((s.oldestFirst isLost).flatMap (·.receipts)).Perm
      (gather (·.receipts) (s.inFlight.filter isLost)) := by
  unfold oldestFirst gather
  rw [List.flatMap_map]
  exact (List.mergeSort_perm _ _).flatMap_right _

/-- **The loss of datagrams settles the receipts of the unreliable messages in them**, and changes
no other count: what was reliable in them is queued again. -/
theorem Squares.lose (h : s.Squares) (isLost : Serial → SentDatagram → Bool) :
    ∃ due, (s.lose isLost).1 = due.map .lost ∧ due ⊆ s.loose ∧
      Passes s (s.lose isLost).2 due := by
  let ids := (s.oldestFirst isLost).flatMap (·.receipts)
  obtain ⟨hremembers, -, hheld⟩ := held_lose h.remembers isLost
  have htied := tied_perm hheld
  have hback : looseAmong ((s.oldestFirst isLost).flatMap (·.messages)) = [] := by
    rw [← looseAmong_map_asNew]
    refine looseAmong_eq_nil fun e he => ?_
    obtain ⟨⟨sequence, sent⟩, hrecord, he⟩ :=
      List.mem_flatMap.1 ((messages_oldestFirst isLost s).subset he)
    obtain ⟨e', he', rfl⟩ := List.mem_map.1 he
    have hget := Std.TreeMap.mem_toList_iff_getElem?_eq_some.1 hrecord
    exact h.remembers sequence sent (getElem?_filter_eq_some.1 hget).1 e' he'
  have hloose : s.loose.Perm (ids ++ (s.lose isLost).2.loose) := by
    have hqueued : looseAmong (s.lose isLost).2.queued = looseAmong s.queued := by
      have hmap : (s.lose isLost).2.queued
          = ((s.oldestFirst isLost).flatMap (·.messages)).map Outgoing.asNew ++ s.queued := by
        simp only [queued, Sender.lose, Queue.requeue, Fifo.toList_prepend, List.map_append,
          List.map_map]
        rfl
      rw [hmap, looseAmong_append, looseAmong_map_asNew, hback, List.nil_append]
    rw [loose, loose, hqueued]
    refine ((gather_filter (·.receipts) isLost s.inFlight).symm.append_left _).trans ?_
    exact (List.perm_append_comm_assoc _ _ _).trans
      ((receipts_oldestFirst isLost s).symm.append_right _)
  have hout : s.outstanding.Perm (ids ++ (s.lose isLost).2.outstanding) :=
    (htied.symm.append hloose).trans (List.perm_append_comm_assoc _ _ _)
  have hsubset : ids ⊆ s.loose := fun id hid => hloose.symm.subset (List.mem_append_left _ hid)
  obtain ⟨due, hdue, hsettles, hcount⟩ := settle_spec (release .lost) .lost ids s.pendingReceipts
    (fun id hid p hpos hle => countsDown_release .lost (by
      have := h.single id (hsubset hid)
      have := h.count_eq id
      omega))
    (fun id => by
      rw [h.count_eq, hout.count_eq, List.count_append]
      exact Nat.le_add_right _ _)
  have hpasses : Passes s (s.lose isLost).2 due :=
    h.pass ids hremembers hout htied.subset
      (fun id hid => hloose.symm.subset (List.mem_append_right _ hid)) rfl hsettles hcount
  refine ⟨due, hdue, fun id hid => ?_, hpasses⟩
  -- a receipt that came to nothing is one of those that were gone through
  obtain ⟨hpos, hzero⟩ := (hsettles.mem_iff id).1 hid
  have := hcount id
  exact hsubset (List.count_pos_iff.1 (by omega))

theorem Squares.tick (h : s.Squares) (now : Nanoseconds) :
    ∃ due, (s.tick now).1 = due.map .lost ∧ due ⊆ s.loose ∧ Passes s (s.tick now).2 due := by
  unfold Sender.tick
  split
  · have hbacked : ({ s with timer := s.timer.backOff } : Sender).Squares :=
      ⟨h.remembers, h.count_eq, h.single⟩
    obtain ⟨due, hdue, hsubset, hpasses⟩ := hbacked.lose _
    exact ⟨due, hdue, hsubset, hpasses.squares, hpasses.settles, hpasses.tied, hpasses.loose,
      hpasses.nextReceipt_eq⟩
  · exact ⟨[], rfl, List.nil_subset _,
      h.stay h.remembers (List.Perm.refl _) (List.Perm.refl _) rfl rfl⟩

theorem Squares.receive (h : s.Squares) (now : Nanoseconds) (a : Acknowledgement) :
    ∃ due, Passes s (s.receive now a).2 due ∧
      ((a.kind = .ack ∧ (s.receive now a).1 = due.map .acked) ∨
        (a.kind = .nack ∧ (s.receive now a).1 = due.map .lost ∧ due ⊆ s.loose)) := by
  unfold Sender.receive
  cases hkind : a.kind with
  | ack =>
    obtain ⟨due, hdue, hpasses⟩ := h.acknowledgeAll now a.numbers
    exact ⟨due, hpasses, Or.inl ⟨rfl, hdue⟩⟩
  | nack =>
    obtain ⟨due, hdue, hsubset, hpasses⟩ := h.lose _
    exact ⟨due, hpasses, Or.inr ⟨rfl, hdue, hsubset⟩⟩

/-! ## Sending

With a flush messages change their place in the other direction, from the queue into records. It
promises nothing and settles nothing, so all there is to show is that the list stays the same, as
long as no record is put in the place of another one. -/

theorem gather_receipts_dispatch (now : Nanoseconds) (batch : List Outgoing)
    (hfree : s.nextSequence ∉ s.inFlight) :
    (gather (·.receipts) (s.dispatch now batch).2.inFlight).Perm
      (looseAmong batch ++ gather (·.receipts) s.inFlight) := by
  rw [inFlight_dispatch]
  split
  · rename_i htrivial
    rw [SentDatagram.isTrivial, Bool.and_eq_true, List.isEmpty_iff, List.isEmpty_iff] at htrivial
    have hnone : looseAmong batch = [] := htrivial.2
    rw [hnone, List.nil_append]
  · exact gather_insert (·.receipts) hfree _

theorem gather_receipts_collect (now : Nanoseconds) (batches : List (List Outgoing)) (s : Sender)
    (hfree : NumbersFree now batches s) :
    (gather (·.receipts) (Stepwise.collect (Sender.dispatch now) batches s).2.inFlight).Perm
      (looseAmong batches.flatten ++ gather (·.receipts) s.inFlight) := by
  induction batches generalizing s with
  | nil => exact List.Perm.refl _
  | cons batch batches ih =>
    rw [Stepwise.collect_cons]
    refine (ih _ hfree.2).trans ?_
    rw [List.flatten_cons, looseAmong_append, List.append_assoc]
    refine ((gather_receipts_dispatch now batch hfree.1).append_left _).trans ?_
    exact List.perm_append_comm_assoc _ _ _

/-- Sending datagrams neither promises nor settles anything. -/
theorem receipts_flush (now : Nanoseconds) (limit : Nat) (s : Sender) :
    (s.flush now limit).2.pendingReceipts = s.pendingReceipts ∧
      (s.flush now limit).2.nextReceipt = s.nextReceipt := by
  have hcollect : ∀ (batches : List (List Outgoing)) (s : Sender),
      (Stepwise.collect (Sender.dispatch now) batches s).2.pendingReceipts = s.pendingReceipts ∧
        (Stepwise.collect (Sender.dispatch now) batches s).2.nextReceipt = s.nextReceipt := by
    intro batches
    induction batches with
    | nil => exact fun s => ⟨rfl, rfl⟩
    | cons batch batches ih =>
      intro s
      rw [Stepwise.collect_cons]
      exact ih (s.dispatch now batch).2
  exact hcollect _ _

theorem Squares.flush (h : s.Squares) {now : Nanoseconds} {limit : Nat}
    (hfree : s.FlushesFreely now limit) : Passes s (s.flush now limit).2 [] := by
  obtain ⟨hremembers, -, hheld⟩ := held_flush h.remembers now limit
  have hperm := gather_receipts_collect now _ _ hfree
  obtain ⟨hpending, hnext⟩ := receipts_flush now limit s
  have hqueue := (collect_dispatch now (s.queue.pack limit).1
    { s with queue := (s.queue.pack limit).2 } h.remembers).2.1
  refine h.stay hremembers (tied_perm (hheld hfree)) ?_ hpending hnext
  have hentries := Queue.pack_entries limit s.queue
  have hleft : (s.flush now limit).2.queued
      = (s.queue.pack limit).2.entries.toList.map Outgoing.asNew := congrArg
    (fun q : Queue => q.entries.toList.map Outgoing.asNew) hqueue
  have hwhole : looseAmong s.queued = looseAmong (s.queue.pack limit).1.flatten
      ++ looseAmong (s.queue.pack limit).2.entries.toList := by
    rw [queued, looseAmong_map_asNew, ← looseAmong_append, hentries]
  rw [loose, loose, hleft, hwhole, looseAmong_map_asNew, List.append_assoc]
  exact (hperm.append_left _).trans (List.perm_append_comm_assoc _ _ _)

/-! ## Queueing

Only here do counts go up. The count that is noted for a new receipt is the number of messages that
the payload is sent as, and the receipt hangs on each of them. It must not be outstanding already,
or two payloads would share one count: the numbers of receipts come round. -/

/-- A payload becomes reliable messages, or one unreliable message that is not a fragment. -/
theorem messagesFor_cases (q : Queue) (r : Reliability) (channel : UInt8) (payload : Octets) :
    (∀ m ∈ q.messagesFor r channel payload, m.reliability.isReliable = true ∧
        (r.isReliable = true ∨ m.fragment.isSome = true)) ∨
      (r.isReliable = false ∧ ∃ m, q.messagesFor r channel payload = [m] ∧ m.reliability = r ∧
        m.fragment = none) := by
  unfold Queue.messagesFor
  split
  · cases hr : r.isReliable with
    | true =>
      refine Or.inl fun m hm => ?_
      rw [List.mem_singleton.1 hm]
      exact ⟨hr, Or.inl rfl⟩
    | false => exact Or.inr ⟨rfl, _, rfl, rfl, rfl⟩
  · refine Or.inl fun m hm => ?_
    simp only [Queue.fragmentMessages, List.mem_mapIdx] at hm
    obtain ⟨i, hi, rfl⟩ := hm
    exact ⟨r.isReliable_ofFragments, Or.inr rfl⟩

/-- The receipt that is promised, and what is noted of it. -/
theorem receipt_of_send {r : Reliability} {channel : UInt8} {payload : Octets}
    {receipt : Option UInt32} {s' : Sender} (hsend : s.send r channel payload = .ok (receipt, s')) :
    (receipt = none ∧ s'.pendingReceipts = s.pendingReceipts ∧ s'.nextReceipt = s.nextReceipt) ∨
      (receipt = some s.nextReceipt ∧ r.wantsReceipt = true ∧
        s'.pendingReceipts = s.pendingReceipts.insert s.nextReceipt
          (s.queue.messagesFor r channel payload).length ∧
        s'.nextReceipt = s.nextReceipt + 1) := by
  unfold Sender.send Queue.enqueue at hsend
  simp only at hsend
  split at hsend
  · cases hsend
  · rename_i hok
    split at hok
    · cases hok
    · cases hok
      split at hsend
      · cases hsend
        exact Or.inl ⟨rfl, rfl, rfl⟩
      · rename_i hreceipt
        cases hsend
        cases hwants : r.wantsReceipt with
        | false =>
          rw [hwants] at hreceipt
          cases hreceipt
        | true =>
          rw [hwants] at hreceipt
          cases hreceipt
          exact Or.inr ⟨rfl, rfl, rfl, rfl⟩

/-- What hangs on the messages of a payload: its receipt, on each of them. -/
theorem outstanding_send {r : Reliability} {channel : UInt8} {payload : Octets}
    {receipt : Option UInt32} {s' : Sender} (hsend : s.send r channel payload = .ok (receipt, s')) :
    ((∀ m ∈ s.queue.messagesFor r channel payload,
          r.isReliable = true ∨ m.fragment.isSome = true) ∧
        s'.tied.Perm (s.tied
          ++ (s.queue.messagesFor r channel payload).filterMap fun _ => receipt) ∧
        s'.loose = s.loose) ∨
      (r.isReliable = false ∧ (∃ m, s.queue.messagesFor r channel payload = [m] ∧
          m.reliability = r ∧ m.fragment = none) ∧
        s'.tied = s.tied ∧ s'.loose.Perm (s.loose ++ receipt.toList)) := by
  obtain ⟨hqueued, -, hflight⟩ := queued_send hsend
  have htied : s'.tied = ((s.queued ++ (s.queue.messagesFor r channel payload).map
      fun m => (⟨m, receipt, false⟩ : Outgoing)).filter Outgoing.isReliable
        ++ s.flying).filterMap (·.receipt) := by
    rw [tied, held, hqueued, flying, hflight]
    rfl
  have hloose : s'.loose = looseAmong (s.queued ++ (s.queue.messagesFor r channel payload).map
      fun m => (⟨m, receipt, false⟩ : Outgoing)) ++ gather (·.receipts) s.inFlight := by
    rw [loose, hqueued, hflight]
  rw [List.filter_append] at htied
  rw [looseAmong_append] at hloose
  rcases messagesFor_cases s.queue r channel payload with hall | ⟨hr, m, hone, hm, hfragment⟩
  · left
    have hreliable : ∀ e ∈ (s.queue.messagesFor r channel payload).map
        (fun m => (⟨m, receipt, false⟩ : Outgoing)), e.isReliable = true := by
      intro e he
      obtain ⟨m, hm, rfl⟩ := List.mem_map.1 he
      exact (hall m hm).1
    rw [List.filter_eq_self.2 hreliable, List.append_assoc] at htied
    rw [looseAmong_eq_nil hreliable, List.append_nil] at hloose
    refine ⟨fun m hm => (hall m hm).2, ?_, hloose⟩
    rw [htied, tied, held, List.filterMap_append, List.filterMap_append, List.filterMap_append,
      List.filterMap_map, List.append_assoc]
    exact List.perm_append_comm.append_left _
  · right
    have hnot : (⟨m, receipt, false⟩ : Outgoing).isReliable = false := by
      rw [Outgoing.isReliable, hm, hr]
    refine ⟨hr, ⟨m, hone, hm, hfragment⟩, ?_, ?_⟩
    · rw [htied, hone, List.map_singleton, List.filter_singleton, hnot, cond_false,
        List.append_nil]
      rfl
    · have hnew : looseAmong [(⟨m, receipt, false⟩ : Outgoing)] = receipt.toList := by
        rw [looseAmong, List.filterMap_cons, hnot]
        cases receipt <;> rfl
      rw [hloose, hone, List.map_singleton, hnew, loose, List.append_assoc, List.append_assoc]
      exact List.perm_append_comm.append_left _

theorem outstanding_perm_send {r : Reliability} {channel : UInt8} {payload : Octets}
    {receipt : Option UInt32} {s' : Sender} (hsend : s.send r channel payload = .ok (receipt, s')) :
    s'.outstanding.Perm
      (s.outstanding ++ (s.queue.messagesFor r channel payload).filterMap fun _ => receipt) := by
  unfold outstanding
  rcases outstanding_send hsend with ⟨-, htied, hloose⟩ | ⟨-, ⟨m, hone, -⟩, htied, hloose⟩
  · rw [hloose, List.append_assoc]
    refine (htied.append_right _).trans ?_
    rw [List.append_assoc]
    exact List.perm_append_comm.append_left _
  · have hnew : (s.queue.messagesFor r channel payload).filterMap (fun _ => receipt)
        = receipt.toList := by
      rw [hone]
      cases receipt <;> rfl
    rw [htied, hnew, List.append_assoc]
    exact hloose.append_left _

/-- **A receipt that is promised hangs on as many messages as are counted for it.** It has to be
none that is outstanding already. -/
theorem Squares.send (h : s.Squares) {r : Reliability} {channel : UInt8} {payload : Octets}
    {receipt : Option UInt32} {s' : Sender} (hsend : s.send r channel payload = .ok (receipt, s'))
    (hfresh : s.nextReceipt ∉ s.outstanding) : s'.Squares := by
  obtain ⟨-, -, hflight⟩ := queued_send hsend
  have hremembers : s'.RemembersReliable := by
    intro sequence sent hget
    rw [hflight] at hget
    exact h.remembers sequence sent hget
  have hout := outstanding_send hsend
  have hout' := outstanding_perm_send hsend
  have hnone := List.count_eq_zero.2 hfresh
  rcases receipt_of_send hsend with ⟨rfl, hpending, -⟩ | ⟨rfl, -, hpending, -⟩
  · -- no receipt, so nothing hangs on the new messages
    have hnil : (s.queue.messagesFor r channel payload).filterMap
        (fun _ => (none : Option UInt32)) = [] := List.filterMap_eq_nil_iff.2 fun _ _ => rfl
    rw [hnil, List.append_nil] at hout'
    refine ⟨hremembers, fun id => ?_, fun id hid => ?_⟩
    · rw [hpending, hout'.count_eq, h.count_eq]
    · rw [hout'.count_eq]
      refine h.single id ?_
      rcases hout with ⟨-, -, hloose⟩ | ⟨-, -, -, hloose⟩
      · rwa [hloose] at hid
      · simpa using hloose.subset hid
  · have hcount : ∀ id, s'.outstanding.count id
        = if id = s.nextReceipt then (s.queue.messagesFor r channel payload).length
          else s.outstanding.count id := by
      intro id
      rw [hout'.count_eq, List.count_append, List.filterMap_eq_map', List.map_const',
        List.count_replicate]
      by_cases hid : id = s.nextReceipt
      · simp [hid, hnone]
      · simp [hid, Ne.symm hid]
    refine ⟨hremembers, fun id => ?_, fun id hid => ?_⟩
    · rw [hpending, Pending.count_insert, hcount, h.count_eq]
    · have hother : id ∈ s.loose → s'.outstanding.count id = 1 := by
        intro hold
        have hne : id ≠ s.nextReceipt := by
          rintro rfl
          exact hfresh (List.mem_append_right _ hold)
        rw [hcount, if_neg hne]
        exact h.single id hold
      rcases hout with ⟨-, -, hloose⟩ | ⟨-, ⟨m, hone, -⟩, -, hloose⟩
      · exact hother (by rwa [hloose] at hid)
      · rcases List.mem_append.1 (hloose.subset hid) with hold | hnew
        · exact hother hold
        · rw [hcount, if_pos (by simpa using hnew), hone]
          rfl

end Sender

end DatagramTransport

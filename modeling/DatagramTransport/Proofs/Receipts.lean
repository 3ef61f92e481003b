import DatagramTransport.Proofs.Outbox
import DatagramTransport.Proofs.Settling
import Mathlib.Data.List.Nodup

/-!
# Receipts — what was promised comes once, and at the right moment

A payload that was accepted with a receipt is a **promise**: the receipt, and the messages that the
payload was made into. A promise is *tied* to its messages if these are sent until they are
acknowledged, because the guarantee is reliable or because the payload had to be split; it is
*loose* if it hangs on one unreliable message, which goes once. What a peer says is not restricted:
it may name any numbers, as often as it likes, as arrived and as missing.

**A promise is kept once**. If it is tied, in the step that removes the last record with one of its
messages; that it was lost is said of loose promises only. The receipts are numbered and the
numbers come round, so that this holds as long as a number is not promised again.
-/

set_option autoImplicit false

namespace DatagramTransport

def Receipt.id : Receipt → UInt32
  | acked id | lost id => id

/-- A receipt, and the payload that it was promised for. -/
structure Promise where
  id : UInt32
  reliability : Reliability
  messages : List Message
  deriving DecidableEq, Repr

namespace Promise

def isSplit (p : Promise) : Bool := p.messages.any (·.fragment.isSome)

/-- The receipt waits for every message. -/
def isTied (p : Promise) : Bool := p.reliability.isReliable || p.isSplit

/-- The receipt is for one message that is not sent again. -/
def IsLoose (p : Promise) : Prop := p.reliability = .unreliableWithReceipt ∧ p.isSplit = false

theorem IsLoose.not_isTied {p : Promise} (h : p.IsLoose) : p.isTied = false := by
  rw [isTied, h.1, h.2]
  rfl

end Promise

namespace Sender

/-- How many messages with a receipt are queued or in the record of a datagram in flight. -/
def carriers (s : Sender) (id : UInt32) : Nat :=
  (s.queued ++ s.flying).countP (·.receipt == some id)

/-- A receipt that no unreliable message has is outstanding as often as there are messages. -/
theorem carriers_eq_count {s : Sender} {id : UInt32} (h : id ∉ s.loose) :
    s.carriers id = s.outstanding.count id := by
  have hqueued : s.queued.countP (·.receipt == some id)
      = (s.queued.filter Outgoing.isReliable).countP (·.receipt == some id) := by
    rw [List.countP_filter]
    refine List.countP_congr fun e he => ?_
    rw [Bool.and_eq_true, iff_self_and]
    intro hid
    by_contra hunreliable
    refine h (List.mem_append_left _ (List.mem_filterMap.2 ⟨e, he, ?_⟩))
    rw [if_neg hunreliable, eq_of_beq hid]
  rw [outstanding, List.count_append, List.count_eq_zero.2 h, tied, List.count_filterMap, held,
    carriers, List.countP_append, List.countP_append, hqueued, Nat.add_zero]

end Sender

namespace Outbox

/-! ## Promises of a run -/

/-- What an event promises: a payload that is accepted, if its guarantee asks for a receipt. -/
def promised (b : Outbox) : Event → List Promise
  | .submit r channel payload =>
    match b.sender.send r channel payload with
    | .ok (some id, _) => [⟨id, r, b.sender.queue.messagesFor r channel payload⟩]
    | _ => []
  | _ => []

/-- What can be reached from a fresh sender, and what was promised on the way. -/
inductive Track (settings : Settings) (mtu : UInt16) : List Promise → Outbox → Prop
  | start : Track settings mtu [] (fresh settings mtu)
  | next {ps : List Promise} {b : Outbox} {e : Event} (before : Track settings mtu ps b)
    (here : b.Allows e) : Track settings mtu (ps ++ b.promised e) (b.step e)

def promisedIn (b : Outbox) : List Event → List Promise
  | [] => []
  | e :: es => b.promised e ++ promisedIn (b.step e) es

variable {settings : Settings} {mtu : UInt16} {ps : List Promise} {b : Outbox}

theorem Track.follow {es : List Event} (h : Track settings mtu ps b) (hes : b.Follows es) :
    Track settings mtu (ps ++ b.promisedIn es) (b.after es) := by
  induction es generalizing ps b with
  | nil => rwa [promisedIn, List.append_nil]
  | cons e es ih =>
    have hrest := ih (.next h hes.1) hes.2
    rwa [List.append_assoc] at hrest

/-- Receipts are numbered as they are promised, each that is outstanding hangs on messages of its
own promise, and one that was told is not outstanding any more. -/
structure Accounts (ps : List Promise) (s : Sender) (receipts : List Receipt) : Prop where
  squares : s.Squares
  next_eq : s.nextReceipt = UInt32.ofNat ps.length
  ids_eq : ps.map (·.id) = (List.range ps.length).map UInt32.ofNat
  tied : ∀ id ∈ s.tied, ∃ p ∈ ps, p.id = id ∧ p.isTied = true
  loose : ∀ id ∈ s.loose, ∃ p ∈ ps, p.id = id ∧ p.IsLoose
  told : ∀ id ∈ receipts.map Receipt.id, (∃ p ∈ ps, p.id = id) ∧ id ∉ s.outstanding
  once : (receipts.map Receipt.id).Nodup
  lost : ∀ id, .lost id ∈ receipts → ∃ p ∈ ps, p.id = id ∧ p.IsLoose

variable {s s' : Sender} {receipts : List Receipt}

theorem accounts_fresh (settings : Settings) (mtu : UInt16) :
    Accounts [] (Sender.fresh settings mtu) [] where
  squares := Sender.squares_fresh settings mtu
  next_eq := rfl
  ids_eq := rfl
  tied := fun _ hid => nomatch (hid : _ ∈ [])
  loose := fun _ hid => nomatch (hid : _ ∈ [])
  told := fun _ hid => nomatch hid
  once := List.nodup_nil
  lost := fun _ hid => nomatch hid

theorem Accounts.promised_of_outstanding (h : Accounts ps s receipts) {id : UInt32}
    (hid : id ∈ s.outstanding) : ∃ p ∈ ps, p.id = id := by
  rcases List.mem_append.1 hid with htied | hloose
  · obtain ⟨p, hp, heq, -⟩ := h.tied id htied
    exact ⟨p, hp, heq⟩
  · obtain ⟨p, hp, heq, -⟩ := h.loose id hloose
    exact ⟨p, hp, heq⟩

/-- The next receipt was not promised before. -/
theorem Accounts.next_fresh (h : Accounts ps s receipts) (hfew : ps.length < 4294967296) :
    ¬ ∃ p ∈ ps, p.id = s.nextReceipt := by
  rintro ⟨p, hp, heq⟩
  have hmem : s.nextReceipt ∈ (List.range ps.length).map UInt32.ofNat :=
    h.ids_eq ▸ heq ▸ List.mem_map_of_mem hp
  obtain ⟨i, hi, hnumber⟩ := List.mem_map.1 hmem
  have hi := List.mem_range.1 hi
  have := congrArg UInt32.toNat (hnumber.trans h.next_eq)
  simp only [UInt32.toNat_ofNat'] at this
  omega

theorem Accounts.nodup_ids (h : Accounts ps s receipts) (hfew : ps.length < 4294967296) :
    (ps.map (·.id)).Nodup := by
  rw [h.ids_eq]
  refine List.Nodup.map_on (fun i hi j hj heq => ?_) List.nodup_range
  have hi := List.mem_range.1 hi
  have hj := List.mem_range.1 hj
  have := congrArg UInt32.toNat heq
  simp only [UInt32.toNat_ofNat'] at this
  omega

/-- No unreliable message has the receipt of a tied promise. -/
theorem Accounts.not_mem_loose (h : Accounts ps s receipts) (hfew : ps.length < 4294967296)
    {p : Promise} (hp : p ∈ ps) (htied : p.isTied = true) : p.id ∉ s.loose := by
  intro hid
  obtain ⟨p', hp', heq, hloose⟩ := h.loose p.id hid
  have hsame := List.inj_on_of_nodup_map (h.nodup_ids hfew) hp' hp heq
  rw [← hsame, hloose.not_isTied] at htied
  cases htied

/-! ## Steps -/

/-- What becomes of promises is told when they are not outstanding any more. -/
theorem Accounts.pass (h : Accounts ps s receipts) {due : List UInt32}
    (hpasses : Sender.Passes s s' due) {outcome : UInt32 → Receipt}
    (houtcome : ∀ id, (outcome id).id = id)
    (hlost : ∀ id ∈ due, ∀ id', outcome id = .lost id' → id ∈ s.loose) :
    Accounts ps s' (receipts ++ due.map outcome) := by
  have hids : (receipts ++ due.map outcome).map Receipt.id = receipts.map Receipt.id ++ due := by
    rw [List.map_append, List.map_map]
    exact congrArg _ ((List.map_congr_left fun id _ => houtcome id).trans (List.map_id due))
  have hless : ∀ id, id ∈ s'.outstanding → id ∈ s.outstanding := fun id hid =>
    List.count_pos_iff.1
      (Nat.lt_of_lt_of_le (List.count_pos_iff.2 hid) (hpasses.settles.le id))
  have hdue : ∀ id ∈ due, id ∈ s.outstanding ∧ id ∉ s'.outstanding := by
    intro id hid
    obtain ⟨hpos, hzero⟩ := (hpasses.settles.mem_iff id).1 hid
    exact ⟨List.count_pos_iff.1 hpos, List.count_eq_zero.1 hzero⟩
  refine ⟨hpasses.squares, hpasses.nextReceipt_eq.trans h.next_eq, h.ids_eq,
    fun id hid => h.tied id (hpasses.tied hid), fun id hid => h.loose id (hpasses.loose hid),
    ?_, ?_, ?_⟩
  · rw [hids]
    intro id hid
    rcases List.mem_append.1 hid with hold | hnew
    · exact ⟨(h.told id hold).1, fun hout => (h.told id hold).2 (hless id hout)⟩
    · exact ⟨h.promised_of_outstanding (hdue id hnew).1, (hdue id hnew).2⟩
  · rw [hids]
    refine List.nodup_append.2 ⟨h.once, hpasses.settles.nodup, ?_⟩
    rintro id hold _ hnew rfl
    exact (h.told id hold).2 (hdue id hnew).1
  · intro id hid
    rcases List.mem_append.1 hid with hold | hnew
    · exact h.lost id hold
    · obtain ⟨id', hid', heq⟩ := List.mem_map.1 hnew
      have hsame : id' = id := by rw [← houtcome id', heq]; rfl
      exact h.loose id (hsame ▸ hlost id' hid' id heq)

/-- What a sender that promises nothing for a payload is left with. -/
theorem Accounts.unpromised (h : Accounts ps s receipts) {r : Reliability} {channel : UInt8}
    {payload : Octets} (hsend : s.send r channel payload = .ok (none, s')) (hsquares : s'.Squares)
    (hnext : s'.nextReceipt = s.nextReceipt) : Accounts ps s' receipts := by
  have hnil : (s.queue.messagesFor r channel payload).filterMap
      (fun _ => (none : Option UInt32)) = [] := List.filterMap_eq_nil_iff.2 fun _ _ => rfl
  have hsame : s'.tied.Perm s.tied ∧ s'.loose.Perm s.loose := by
    rcases Sender.outstanding_send hsend with ⟨-, htied, hloose⟩ | ⟨-, -, htied, hloose⟩
    · rw [hnil, List.append_nil] at htied
      exact ⟨htied, by rw [hloose]⟩
    · rw [Option.toList_none, List.append_nil] at hloose
      exact ⟨by rw [htied], hloose⟩
  exact ⟨hsquares, hnext.trans h.next_eq, h.ids_eq,
    fun id hid => h.tied id (hsame.1.subset hid), fun id hid => h.loose id (hsame.2.subset hid),
    fun id hid => ⟨(h.told id hid).1, fun hmem =>
      (h.told id hid).2 ((hsame.1.append hsame.2).subset hmem)⟩, h.once, h.lost⟩

/-- A promise that is new is tied to the messages of its payload or hangs on one of them. -/
theorem outstanding_promised {r : Reliability} {channel : UInt8} {payload : Octets} {n id : UInt32}
    (hsend : s.send r channel payload = .ok (some n, s')) (hwants : r.wantsReceipt = true) :
    let p : Promise := ⟨n, r, s.queue.messagesFor r channel payload⟩
    (id ∈ s'.tied → id ∈ s.tied ∨ (p.id = id ∧ p.isTied = true)) ∧
      (id ∈ s'.loose → id ∈ s.loose ∨ (p.id = id ∧ p.IsLoose)) := by
  intro p
  rcases Sender.outstanding_send hsend with
    ⟨hall, htied, hloose⟩ | ⟨hr, ⟨m, hone, -, hfragment⟩, htied, hloose⟩
  · refine ⟨fun hid => ?_, fun hid => Or.inl (hloose ▸ hid)⟩
    refine (List.mem_append.1 (htied.subset hid)).imp_right fun hnew => ?_
    obtain ⟨m, hm, heq⟩ := List.mem_filterMap.1 hnew
    refine ⟨Option.some.inj heq, Bool.or_eq_true_iff.2 ?_⟩
    exact (hall m hm).imp_right fun hfragment => List.any_eq_true.2 ⟨m, hm, hfragment⟩
  · refine ⟨fun hid => Or.inl (htied ▸ hid), fun hid => ?_⟩
    refine (List.mem_append.1 (hloose.subset hid)).imp_right fun hnew => ?_
    refine ⟨(List.mem_singleton.1 hnew).symm, ?_, ?_⟩
    · -- of the unreliable guarantees one asks for a receipt
      cases r with
      | unreliableWithReceipt => rfl
      | unreliable | unreliableSequenced => cases hwants
      | _ => cases hr
    · simp only [Promise.isSplit, p, hone, List.any_cons, List.any_nil, hfragment,
        Option.isSome_none, Bool.or_false]

theorem Accounts.promise (h : Accounts ps s receipts) (hfresh : ¬ ∃ p ∈ ps, p.id = s.nextReceipt)
    {r : Reliability} {channel : UInt8} {payload : Octets}
    (hsend : s.send r channel payload = .ok (some s.nextReceipt, s'))
    (hwants : r.wantsReceipt = true) (hsquares : s'.Squares)
    (hnext : s'.nextReceipt = s.nextReceipt + 1) :
    Accounts (ps ++ [⟨s.nextReceipt, r, s.queue.messagesFor r channel payload⟩]) s' receipts := by
  have hmore : ∀ {P : Promise → Prop}, (∃ p ∈ ps, P p) →
      ∃ p ∈ ps ++ [⟨s.nextReceipt, r, s.queue.messagesFor r channel payload⟩], P p := by
    rintro P ⟨p, hp, hP⟩
    exact ⟨p, List.mem_append_left _ hp, hP⟩
  refine ⟨hsquares, ?_, ?_, fun id hid => ?_, fun id hid => ?_, fun id hid => ?_, h.once,
    fun id hid => hmore (h.lost id hid)⟩
  · rw [hnext, h.next_eq, List.length_append, UInt32.ofNat_add]
    rfl
  · rw [List.map_append, h.ids_eq, List.length_append, List.length_singleton,
      List.range_succ, List.map_append]
    exact congrArg _ (congrArg (fun id => [id]) h.next_eq)
  · rcases (outstanding_promised hsend hwants).1 hid with hold | hnew
    · exact hmore (h.tied id hold)
    · exact ⟨_, List.mem_append_right _ List.mem_cons_self, hnew⟩
  · rcases (outstanding_promised hsend hwants).2 hid with hold | hnew
    · exact hmore (h.loose id hold)
    · exact ⟨_, List.mem_append_right _ List.mem_cons_self, hnew⟩
  · obtain ⟨⟨p, hp, heq⟩, hgone⟩ := h.told id hid
    have hne : s.nextReceipt ≠ id := fun hsame => hfresh ⟨p, hp, heq.trans hsame.symm⟩
    refine ⟨hmore ⟨p, hp, heq⟩, fun hmem => hgone ?_⟩
    refine List.mem_append.2 ((List.mem_append.1 hmem).imp (fun ht => ?_) fun hl => ?_)
    · exact ((outstanding_promised hsend hwants).1 ht).resolve_right fun hnew => hne hnew.1
    · exact ((outstanding_promised hsend hwants).2 hl).resolve_right fun hnew => hne hnew.1

theorem Accounts.submit (h : Accounts ps b.sender b.receipts) (hfew : ps.length < 4294967296)
    (r : Reliability) (channel : UInt8) (payload : Octets) :
    Accounts (ps ++ b.promised (.submit r channel payload))
      (b.step (.submit r channel payload)).sender b.receipts := by
  simp only [step, promised]
  cases hsend : b.sender.send r channel payload with
  | error fault => rwa [List.append_nil]
  | ok result =>
    obtain ⟨receipt, sender⟩ := result
    have hfresh := h.next_fresh hfew
    have hsquares := h.squares.send hsend fun hid => hfresh (h.promised_of_outstanding hid)
    rcases Sender.receipt_of_send hsend with ⟨rfl, -, hnext⟩ | ⟨rfl, hwants, -, hnext⟩
    · simp only [List.append_nil]
      exact h.unpromised hsend hsquares hnext
    · exact h.promise hfresh hsend hwants hsquares hnext

/-- What a step tells, and of what. Only a payload that is submitted can be promised anything. -/
theorem Accounts.step_cases (h : Accounts ps b.sender b.receipts) {e : Event}
    (here : b.Allows e) :
    (∃ r channel payload, e = .submit r channel payload ∧ (b.step e).receipts = b.receipts) ∨
      ∃ due, b.promised e = [] ∧ Sender.Passes b.sender (b.step e).sender due ∧
        (((∃ now a, e = .hear now a ∧ a.kind = .ack) ∧
            (b.step e).receipts = b.receipts ++ due.map .acked) ∨
          ((¬ ∃ now a, e = .hear now a ∧ a.kind = .ack) ∧ due ⊆ b.sender.loose ∧
            (b.step e).receipts = b.receipts ++ due.map .lost)) := by
  cases e with
  | submit r channel payload =>
    refine Or.inl ⟨r, channel, payload, rfl, ?_⟩
    simp only [step]
    split <;> rfl
  | transmit now limit =>
    refine Or.inr ⟨[], rfl, h.squares.flush here, Or.inr ⟨?_, List.nil_subset _,
      (List.append_nil b.receipts).symm⟩⟩
    rintro ⟨now', a, heq, -⟩
    cases heq
  | expire now =>
    obtain ⟨due, hdue, hsubset, hpasses⟩ := h.squares.tick now
    refine Or.inr ⟨due, rfl, hpasses, Or.inr ⟨?_, hsubset, congrArg (b.receipts ++ ·) hdue⟩⟩
    rintro ⟨now', a, heq, -⟩
    cases heq
  | hear now a =>
    obtain ⟨due, hpasses, ⟨hkind, hdue⟩ | ⟨hkind, hdue, hsubset⟩⟩ := h.squares.receive now a
    · exact Or.inr ⟨due, rfl, hpasses,
        Or.inl ⟨⟨now, a, rfl, hkind⟩, congrArg (b.receipts ++ ·) hdue⟩⟩
    · refine Or.inr ⟨due, rfl, hpasses, Or.inr ⟨?_, hsubset, congrArg (b.receipts ++ ·) hdue⟩⟩
      rintro ⟨now', a', heq, hack⟩
      cases heq
      rw [hkind] at hack
      cases hack

theorem Accounts.step (h : Accounts ps b.sender b.receipts) (hfew : ps.length < 4294967296)
    {e : Event} (here : b.Allows e) :
    Accounts (ps ++ b.promised e) (b.step e).sender (b.step e).receipts := by
  obtain ⟨r, channel, payload, rfl, hreceipts⟩ | ⟨due, hnone, hpasses, hdue⟩ := h.step_cases here
  · rw [hreceipts]
    exact h.submit hfew r channel payload
  · rw [hnone, List.append_nil]
    rcases hdue with ⟨-, hdue⟩ | ⟨-, hsubset, hdue⟩
    · rw [hdue]
      exact h.pass hpasses (fun _ => rfl) fun _ _ _ hlost => nomatch hlost
    · rw [hdue]
      exact h.pass hpasses (fun _ => rfl) fun id hid _ _ => hsubset hid

theorem Track.accounts (track : Track settings mtu ps b) (hfew : ps.length < 4294967296) :
    Accounts ps b.sender b.receipts := by
  induction track with
  | start => exact accounts_fresh settings mtu
  | next _ here ih =>
    rw [List.length_append] at hfew
    exact (ih (by omega)).step (by omega) here

/-! ## Main statement -/

/-- **The pending count of a tied promise is the number of its messages that are queued or in
flight**. Of each promise it is told once what became of it, and only of a loose one that it was
lost. A tied one is told as acknowledged in the step that is a positive acknowledgement and after
which none of its messages is left. -/
theorem promise_kept_once (track : Track settings mtu ps b) (hfew : ps.length < 4294967296) :
    (∀ p ∈ ps, p.isTied = true →
        b.sender.pendingReceipts.getD p.id 0 = b.sender.carriers p.id) ∧
      (b.receipts.map Receipt.id).Nodup ∧
      (∀ id, .lost id ∈ b.receipts →
        ∃ p ∈ ps, p.id = id ∧ p.reliability = .unreliableWithReceipt ∧ p.isSplit = false) ∧
      ∀ e, b.Allows e → ∃ told, (b.step e).receipts = b.receipts ++ told ∧
        ∀ p ∈ ps, p.isTied = true →
          (.acked p.id ∈ told ↔ (∃ now a, e = .hear now a ∧ a.kind = .ack) ∧
            0 < b.sender.carriers p.id ∧ (b.step e).sender.carriers p.id = 0) := by
  have h := track.accounts hfew
  refine ⟨fun p hp htied => ?_, h.once, h.lost, fun e here => ?_⟩
  · rw [Sender.carriers_eq_count (h.not_mem_loose hfew hp htied)]
    exact h.squares.count_eq p.id
  · obtain ⟨r, channel, payload, rfl, hsame⟩ | ⟨due, -, hpasses, hdue⟩ := h.step_cases here
    · refine ⟨[], hsame.trans (List.append_nil _).symm, fun p hp htied => ?_⟩
      simp only [List.not_mem_nil, false_iff]
      rintro ⟨⟨now, a, heq, -⟩, -⟩
      cases heq
    · rcases hdue with ⟨hack, hdue⟩ | ⟨hother, -, hdue⟩
      · refine ⟨_, hdue, fun p hp htied => ?_⟩
        have hnot := h.not_mem_loose hfew hp htied
        rw [Sender.carriers_eq_count hnot,
          Sender.carriers_eq_count fun hid => hnot (hpasses.loose hid)]
        have hmem : (.acked p.id ∈ due.map Receipt.acked) ↔ p.id ∈ due :=
          List.mem_map_of_injective fun _ _ heq => Receipt.acked.inj heq
        rw [hmem, hpasses.settles.mem_iff]
        exact ⟨fun hgone => ⟨hack, hgone⟩, fun hgone => hgone.2⟩
      · refine ⟨_, hdue, fun p hp htied => ⟨fun hid => ?_, fun hgone => absurd hgone.1 hother⟩⟩
        obtain ⟨id, -, heq⟩ := List.mem_map.1 hid
        cases heq

/-- Two loose promises and two that are tied, of payloads in several fragments. Datagrams are given
up after a time, reported as missing and acknowledged. -/
def mixedEvents : List Event :=
  [.submit .unreliableWithReceipt 0 [1], .transmit 0 10, .expire 5000000000,
    .submit .reliableOrderedWithReceipt 0 (List.replicate 700 2),
    .submit .unreliableWithReceipt 0 (List.replicate 400 3),
    .submit .unreliableWithReceipt 0 [4], .transmit 5000000000 10,
    .hear 6000000000 ⟨.nack, [.single (Serial.ofNat 2)]⟩,
    .hear 6000000000 ⟨.nack, [.single (Serial.ofNat 5)]⟩, .transmit 6000000000 10,
    .hear 7000000000 ⟨.ack, [⟨Serial.ofNat 1, Serial.ofNat 4⟩, .single (Serial.ofNat 1)]⟩]

def mixed : Outbox := (fresh {} 400).after mixedEvents

def mixedPromises : List Promise := (fresh {} 400).promisedIn mixedEvents

theorem track_mixed : Track {} 400 mixedPromises mixed :=
  have hfollows : (fresh {} 400).Follows mixedEvents := by decide +kernel
  Track.start.follow hfollows

theorem promise_kept_once_mixed :
    mixedPromises.map (fun p => (p.id, p.isTied, p.messages.length))
        = [(0, false, 1), (1, true, 3), (2, true, 2), (3, false, 1)] ∧
      mixed.receipts = [.lost 0, .lost 3] ∧
      mixed.sender.carriers 1 = 1 ∧ mixed.sender.carriers 2 = 1 ∧
      (mixed.step (.hear 8000000000 ⟨.ack, [⟨Serial.ofNat 6, Serial.ofNat 9⟩]⟩)).receipts
        = [.lost 0, .lost 3, .acked 2, .acked 1] ∧
      mixedPromises.length < 4294967296 ∧ (mixed.receipts.map Receipt.id).Nodup ∧
      ∀ p ∈ mixedPromises, p.isTied = true →
        mixed.sender.pendingReceipts.getD p.id 0 = mixed.sender.carriers p.id :=
  have hfew : mixedPromises.length < 4294967296 := by decide +kernel
  have hkept := promise_kept_once track_mixed hfew
  ⟨by decide +kernel, by decide +kernel, by decide +kernel, by decide +kernel, by decide +kernel,
    hfew, hkept.2.1, hkept.1⟩

end Outbox

end DatagramTransport

import DatagramTransport.Proofs.Journal

/-!
# Resending — what was lost goes first, in the order in which it was sent

When datagrams are lost, what was reliable in them is sent again before anything else, and among it
the order is kept: **the oldest datagram first**, and within a datagram as it stood there. Ages are
distances to the next number. They put the records in the order in which the datagrams were sent as
long as no record is so old that its number is used next, and then also across the point where the
numbers come round.

So the queue is always in two parts. In front stands what was sent before, and behind it what never
was.
-/

set_option autoImplicit false

namespace DatagramTransport

namespace Journal

variable {j : Journal} {s : Sender} {line : List Outgoing}

/-- What was sent before stands in front of what was not. -/
def ResentFirst (j : Journal) : Prop :=
  j.waiting.Pairwise fun g g' => j.wasSent g' = true → j.wasSent g = true

/-- The datagrams in flight are among the last `2^24 - 1` that were sent. -/
def Recent (j : Journal) (s : Sender) : Prop :=
  ∀ (k : Serial) (record : SentDatagram), s.inFlight[k]? = some record →
    j.sent.length ≤ j.origin k + 16777215

theorem Tells.resentFirst (h : j.Tells line s) : j.ResentFirst := by
  refine h.sorted.imp fun {g g'} hgg' hsent' => ?_
  by_contra hsent
  rw [Bool.not_eq_true] at hsent
  rw [(hgg' hsent).1] at hsent'
  cases hsent'

/-- The age of a record says how many datagrams were sent since. -/
theorem Tells.age_eq (h : j.Tells line s) (hrecent : j.Recent s) {k : Serial}
    {record : SentDatagram} (hget : s.inFlight[k]? = some record) :
    s.age k = j.sent.length - j.origin k := by
  have hfew := hrecent k record hget
  obtain ⟨hlt, hnumber, -, -⟩ := h.records k record hget
  rw [Sender.age, h.next_eq]
  nth_rewrite 1 [← hnumber]
  exact Serial.distanceFrom_ofNat_of_le (Nat.le_of_lt hlt) (by omega)

/-- The oldest first is the first one sent first. -/
theorem Tells.origins (h : j.Tells line s) (hrecent : j.Recent s)
    {isLost : Serial → SentDatagram → Bool} {records : List (Serial × SentDatagram)}
    (hranks : s.Ranks isLost records) :
    (records.map fun record => j.origin record.1).Pairwise (· < ·) := by
  rw [List.pairwise_map]
  refine hranks.oldest_first.imp_of_mem fun {a b} ha hb hage => ?_
  rw [h.age_eq hrecent ((hranks.mem_iff a).1 ha).1, h.age_eq hrecent ((hranks.mem_iff b).1 hb).1]
    at hage
  omega

end Journal

namespace Link

/-- **What is lost is sent again first, in the order in which it was sent.** Whatever happened to a
link, in its queue what was sent before stands in front of what was not. When a peer reports
datagrams as missing, or time passes, the records that are lost, and no others, are given up: those
that the report names, in whatever order and however often, or those that are at least as old as the
timeout was. Put in the order of their age, which is the same however they were listed, their
reliable messages go in front of the queue, marked as sent before, and their receipts are told if
they were pending. As long as the datagrams in flight are recent enough, that is the order in which
they were sent. -/
theorem lost_oldest_first (settings : Settings) (mtu : UInt16) (es : List Event) :
    let l := (fresh settings mtu).after es
    let j := Journal.empty.notes (fresh settings mtu) es
    (l.sender.queue.entries.toList = j.waiting.map j.asQueued ∧ j.ResentFirst) ∧
      ∀ e : Event, e.tellsOfLosses = true →
        ∃ records : List (Serial × SentDatagram), l.sender.Ranks (l.sender.finds e) records ∧
          (∀ record ∈ records, j.RecordOf (j.origin record.1) record.1 record.2) ∧
          (j.Recent l.sender → (records.map fun record => j.origin record.1).Pairwise (· < ·)) ∧
          l.sender.Loses records (l.told e) (l.step e).sender := by
  intro l j
  have hfollows : j.Follows l := by
    refine Journal.Follows.notes (l := fresh settings mtu) ?_ es
    exact Journal.tells_empty settings mtu
  refine ⟨⟨hfollows.line_eq, hfollows.resentFirst⟩, fun e he => ?_⟩
  have hranks := Sender.ranks_lostRecords (l.sender.finds e) l.sender
  refine ⟨_, hranks, fun record hrecord => ?_, fun hrecent => ?_, loses_step l he⟩
  · exact hfollows.records _ _ ((hranks.mem_iff record).1 hrecord).1
  · exact hfollows.origins hrecent hranks

/-- Three datagrams, one of them with an unreliable message beside a reliable one, and a message
that waits behind them. -/
def burst : List Event :=
  [.submit .reliableOrdered 0 [1], .submit .unreliableWithReceipt 0 [2], .flush 0 1,
    .submit .reliable 0 [3], .flush 0 1, .submit .reliable 0 [4], .flush 0 1,
    .submit .reliable 0 [5]]

/-- The last datagram is reported before the first one, this twice, and one that was not sent. -/
def mixedReport : Event :=
  .learn 1 ⟨.nack, [.single (Serial.ofNat 2), .single (Serial.ofNat 0), .single (Serial.ofNat 17),
    .single (Serial.ofNat 0)]⟩

theorem lost_oldest_first_burst :
    let l := (fresh {} 400).after burst
    ((l.step mixedReport).sender.queue.entries.toList.map fun e => (e.message.payload, e.isResend))
        = [([1], true), ([4], true), ([5], false)] ∧ l.told mixedReport = [.lost 0] := by
  intro l
  obtain ⟨-, hlost⟩ := lost_oldest_first {} 400 burst
  obtain ⟨records, hranks, -, -, hloses⟩ := hlost mixedReport rfl
  -- the records are kept by number, and here this is also the order of their age
  have hsorted : (l.sender.inFlight.toList.filter fun record =>
      l.sender.finds mixedReport record.1 record.2).Pairwise
        fun a b => l.sender.notYounger a b = true := by decide +kernel
  have hrecords := (hranks.of_listing _ (List.Perm.refl _)).symm.trans
    (List.mergeSort_of_pairwise hsorted)
  rw [hloses.queue_eq, hloses.told_eq, hrecords]
  exact ⟨by decide +kernel, by decide +kernel⟩

end Link

end DatagramTransport

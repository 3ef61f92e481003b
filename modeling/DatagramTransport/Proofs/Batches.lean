import DatagramTransport.Proofs.Submissions

/-!
# Batches — how a queue is cut into datagrams

What is taken out of a queue is its front, cut into batches that each go into one datagram. Nothing
gets lost or doubled at a border between two of them, and the rule of the cut, to fill a datagram
until the next message does not fit, is the best that there is: **after as many batches, no other
cut of the same queue has come further**, so none that comes to the end needs fewer.

That a batch fits is not the rule's doing. It takes its first message without asking, so what counts
is that nothing too long ever waits. Messages that are put back were in the queue before; `Served`
is a queue that is watched together with all that was taken out of it.
-/

set_option autoImplicit false

namespace DatagramTransport

namespace Sender

namespace Queue

variable {settings : Settings} {mtu : UInt16}

/-! ## What was taken out may come back -/

/-- What a call takes out of a queue. -/
def takenBy (q : Queue) : Call → List Outgoing
  | .pack limit => (q.pack limit).1.flatten
  | _ => []

/-- A queue that is watched, and all that was taken out of it. -/
structure Served extends Watched where
  taken : List Outgoing
  deriving DecidableEq, Repr

namespace Served

def fresh (settings : Settings) (mtu : UInt16) : Served where
  queue := Queue.fresh mtu settings.orderChannels settings.maxFragmentsPerSend
  accepted := []
  taken := []

def step (s : Served) (call : Call) : Served where
  toWatched := s.toWatched.step call
  taken := s.taken ++ s.queue.takenBy call

def steps (s : Served) (calls : List Call) : Served := calls.foldl step s

/-- Only what was taken out is put back. -/
def allows (s : Served) : Call → Bool
  | .requeue messages => messages.all s.taken.contains
  | _ => true

def allowsAll (s : Served) : List Call → Bool
  | [] => true
  | call :: rest => s.allows call && (s.step call).allowsAll rest

/-- Whatever waits in the queue or was taken out of it fits into a datagram. -/
structure Fits (s : Served) (settings : Settings) (mtu : UInt16) : Prop where
  suits : s.queue.Suits settings mtu
  waiting : ∀ e ∈ s.queue.entries.toList,
    e.message.encodedLength ≤ maxPacketLength mtu - Datagram.headerLength
  taken : ∀ e ∈ s.taken, e.message.encodedLength ≤ maxPacketLength mtu - Datagram.headerLength

variable {s : Served} {call : Call} {calls : List Call}

theorem fits_fresh (settings : Settings) (mtu : UInt16) :
    (fresh settings mtu).Fits settings mtu where
  suits := suits_fresh settings mtu
  waiting := fun _ he => absurd he List.not_mem_nil
  taken := fun _ he => absurd he List.not_mem_nil

theorem Fits.enqueue (h : s.Fits settings mtu) (hvalid : settings.Valid)
    (hmtu : settings.minMtu ≤ mtu) (r : Reliability) (channel : UInt8) (payload : Octets)
    (receipt : Option UInt32) :
    (s.step (.enqueue r channel payload receipt)).Fits settings mtu := by
  have hcapacity := h.suits.le_capacity hvalid hmtu
  refine ⟨h.suits.step _, fun e he => ?_, fun e he => ?_⟩
  · simp only [step, Watched.step] at he
    cases hrefusal : s.queue.refusal? r channel payload with
    | some fault =>
      rw [enqueue_eq_error_iff.2 hrefusal] at he
      exact h.waiting e he
    | none =>
      rw [enqueue_of_accepted hrefusal] at he
      simp only [append, Fifo.toList_append] at he
      rcases List.mem_append.1 he with hold | hnew
      · exact h.waiting e hold
      · obtain ⟨m, hm, rfl⟩ := List.mem_map.1 hnew
        rw [← h.suits.capacity_eq]
        exact encodedLength_le (by omega) hm
  · exact h.taken e (by simpa [step, takenBy] using he)

theorem Fits.pack (h : s.Fits settings mtu) (limit : Nat) :
    (s.step (.pack limit)).Fits settings mtu := by
  have hentries := s.queue.pack_entries limit
  refine ⟨h.suits.step _, fun e he => ?_, fun e he => ?_⟩
  · exact h.waiting e (hentries ▸ List.mem_append_right _ he)
  · rcases List.mem_append.1 he with hold | hnow
    · exact h.taken e hold
    · exact h.waiting e (hentries ▸ List.mem_append_left _ hnow)

theorem Fits.requeue (h : s.Fits settings mtu) {messages : List Outgoing}
    (hallows : s.allows (.requeue messages) = true) :
    (s.step (.requeue messages)).Fits settings mtu := by
  refine ⟨h.suits.step _, fun e he => ?_, fun e he => ?_⟩
  · simp only [step, Watched.step, Queue.requeue, Fifo.toList_prepend] at he
    rcases List.mem_append.1 he with hback | hold
    · obtain ⟨before, hbefore, rfl⟩ := List.mem_map.1 hback
      exact h.taken before (List.contains_iff_mem.1 (List.all_eq_true.1 hallows before hbefore))
    · exact h.waiting e hold
  · exact h.taken e (by simpa [step, takenBy] using he)

theorem Fits.clear (h : s.Fits settings mtu) : (s.step .clear).Fits settings mtu where
  suits := h.suits.step _
  waiting := fun _ he => absurd he List.not_mem_nil
  taken := fun e he => h.taken e (by simpa [step, takenBy] using he)

theorem Fits.step (h : s.Fits settings mtu) (hvalid : settings.Valid)
    (hmtu : settings.minMtu ≤ mtu) (hallows : s.allows call = true) :
    (s.step call).Fits settings mtu := by
  cases call with
  | enqueue r channel payload receipt => exact h.enqueue hvalid hmtu r channel payload receipt
  | pack limit => exact h.pack limit
  | requeue messages => exact h.requeue hallows
  | clear => exact h.clear

theorem Fits.steps (h : s.Fits settings mtu) (hvalid : settings.Valid)
    (hmtu : settings.minMtu ≤ mtu) (hallows : s.allowsAll calls = true) :
    (s.steps calls).Fits settings mtu := by
  induction calls generalizing s with
  | nil => exact h
  | cons call rest ih =>
    obtain ⟨hcall, hrest⟩ := Bool.and_eq_true_iff.1 hallows
    exact ih (h.step hvalid hmtu hcall) hrest

end Served

/-! ## The cut -/

/-- How much of a datagram a batch takes. -/
def load (batch : List Outgoing) : Nat := Packing.load (fun e => e.message.encodedLength) batch

/-- **How a queue is cut.** Whatever was put into a queue, taken out of it and put back, the batches
that are taken out next are its front in its order, not too many, none of them empty and each short
enough for a datagram. Of all the cuts into batches that are short enough, none has come further
after as many batches, and so none that cuts the whole queue has fewer. -/
theorem cut_in_fewest {calls : List Call} (hvalid : settings.Valid)
    (hmtu : settings.minMtu ≤ mtu)
    (hallowed : (Served.fresh settings mtu).allowsAll calls = true) (limit : Nat) :
    let q := ((Served.fresh settings mtu).steps calls).queue
    let batches := (q.pack limit).1
    let left := (q.pack limit).2
    batches.flatten ++ left.entries.toList = q.entries.toList ∧
      batches.length ≤ limit ∧
      (∀ batch ∈ batches, batch ≠ [] ∧ load batch ≤ q.capacity) ∧
      (left.entries.toList ≠ [] → batches.length = limit) ∧
      ∀ groups : List (List Outgoing), (∀ group ∈ groups, load group ≤ q.capacity) →
        (groups.flatten = q.entries.toList → batches.length ≤ groups.length) ∧
          ∀ rest, groups.flatten ++ rest = q.entries.toList → groups.length ≤ limit →
            left.entries.toList <:+ rest := by
  intro q batches left
  have hfits := (Served.fits_fresh settings mtu).steps hvalid hmtu hallowed
  have hwaiting : ∀ e ∈ q.entries.toList, e.message.encodedLength ≤ q.capacity :=
    fun e he => hfits.suits.capacity_eq ▸ hfits.waiting e he
  refine ⟨q.pack_entries limit, Packing.length_batches_le _ _ _ _, fun batch hbatch => ?_,
    Packing.length_batches_of_snd_ne_nil, fun groups hgroups => ⟨fun hwhole => ?_, ?_⟩⟩
  · exact ⟨Packing.ne_nil_of_mem_batches hbatch, Packing.load_le_of_mem_batches hwaiting hbatch⟩
  · exact Packing.length_batches_le_of_flatten_eq hgroups hwhole limit
  · intro rest hcut hlimit
    exact Packing.snd_batches_suffix_of_groups hgroups hlimit (hcut ▸ List.suffix_refl _)

/-- A payload that is cut into three, of which one part is sent and put back, and a short one behind
it. -/
def partlySent : List Call :=
  let calls := [.enqueue .reliable 0 (List.replicate 1000 7) none, .pack 1]
  calls ++ [.requeue ((Served.fresh {} 400).steps calls).taken, .enqueue .unreliable 0 [1] none]

theorem cut_in_fewest_partlySent :
    let q := ((Served.fresh {} 400).steps partlySent).queue
    let batches := (q.pack 5).1
    let left := (q.pack 5).2
    (Served.fresh {} 400).allowsAll partlySent = true ∧
      batches.map load = [368, 368, 316] ∧ left.entries.toList = [] ∧
      ∀ groups : List (List Outgoing), (∀ group ∈ groups, load group ≤ q.capacity) →
        groups.flatten = q.entries.toList → 3 ≤ groups.length := by
  have hvalid : Settings.Valid {} := by decide +kernel
  have hallowed : (Served.fresh {} 400).allowsAll partlySent = true := by decide +kernel
  obtain ⟨-, -, -, -, hfewest⟩ := cut_in_fewest hvalid (by decide) hallowed 5
  have hthree : (((Served.fresh {} 400).steps partlySent).queue.pack 5).1.length = 3 := by
    decide +kernel
  refine ⟨hallowed, by decide +kernel, by decide +kernel, fun groups hgroups hwhole => ?_⟩
  rw [← hthree]
  exact (hfewest groups hgroups).1 hwhole

end Queue

end Sender

end DatagramTransport

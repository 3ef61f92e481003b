import DatagramTransport.Message
import DatagramTransport.Proofs.Unbounded
import Mathlib.Data.List.Basic
import Mathlib.Data.List.Pairwise

/-!
# Parcels — the layout of everything that was accepted

A payload that was accepted is a **parcel**: the pieces it is sent as, and the numbers it was given,
unbounded. A tally says how far the counters have come, and a list of parcels is laid out if each
of them was numbered from the tally that those before it have left. Everything the receiving end
relies on follows from the layout: indexes do not overlap and leave no gap, the places of a channel
are counted up from zero, and **two parcels whose fragment numbers coincide are far apart**, because
every parcel cut in between has two indexes at least.
-/

set_option autoImplicit false

namespace DatagramTransport

/-! ## A parcel and its messages

Counters are not cut to the width that they have in a packet before a message is made of a piece,
so all that is said of parcels is arithmetic of natural numbers. In `Parcel.message`, with the mark
that it takes from `Parcel.mark?`, they are. -/

/-- An accepted payload with the numbers that it was given. -/
structure Parcel where
  reliability : Reliability
  channel : UInt8
  pieces : List Octets
  nonempty : pieces ≠ []
  /-- The index of the first piece, if it has one. -/
  first : Nat
  /-- The place in the order of the channel, if it has one. -/
  place : Nat
  /-- How many parcels were cut before. -/
  cut : Nat
  deriving DecidableEq

namespace Parcel

def isSplit (p : Parcel) : Bool := 1 < p.pieces.length

/-- The guarantee that its messages carry. -/
def sentAs (p : Parcel) : Reliability :=
  if p.isSplit then p.reliability.ofFragments else p.reliability

def isReliable (p : Parcel) : Bool := p.sentAs.isReliable

def isOrdered (p : Parcel) : Bool := p.reliability.isOrdered

def span (p : Parcel) : Nat := if p.isReliable then p.pieces.length else 0

def stop (p : Parcel) : Nat := p.first + p.span

def payload (p : Parcel) : Octets := p.pieces.flatten

/-- The place in the order of the channel, as messages carry it. -/
def mark? (p : Parcel) : Option OrderMark :=
  if p.reliability.hasOrder then some ⟨Serial.ofNat p.place, p.channel⟩ else none

def message (p : Parcel) (i : Nat) (piece : Octets) : Message where
  reliability := p.sentAs
  index := if p.isReliable then some (Serial.ofNat (p.first + i)) else none
  order := p.mark?
  fragment :=
    if p.isSplit then
      some ⟨UInt32.ofNat p.pieces.length, UInt16.ofNat p.cut, UInt32.ofNat i⟩
    else none
  payload := piece

def messages (p : Parcel) : List Message := p.pieces.mapIdx p.message

/-- The message that its pieces make up. -/
def whole (p : Parcel) : Message := { p.message 0 p.payload with fragment := none }

def isOrderedOn (channel : UInt8) (p : Parcel) : Bool := p.isOrdered && p.channel == channel

def isSequencedOn (channel : UInt8) (p : Parcel) : Bool :=
  p.reliability.isSequenced && p.channel == channel

theorem length_pos (p : Parcel) : 0 < p.pieces.length := List.length_pos_iff.2 p.nonempty

theorem isReliable_of_isSplit {p : Parcel} (h : p.isSplit = true) : p.isReliable = true := by
  simp only [isReliable, sentAs, h, if_true, Reliability.isReliable_ofFragments]

@[simp] theorem isOrdered_sentAs (p : Parcel) : p.sentAs.isOrdered = p.isOrdered := by
  unfold sentAs
  split <;> simp [isOrdered]

theorem sentAs_of_isOrdered {p : Parcel} (h : p.isOrdered = true) :
    p.sentAs = p.reliability := by
  have ho : p.reliability.isOrdered = true := h
  unfold sentAs
  split
  · cases hr : p.reliability <;> rw [hr] at ho <;> first | rfl | cases ho
  · rfl

theorem isReliable_of_isOrdered {p : Parcel} (h : p.isOrdered = true) : p.isReliable = true := by
  have hsent : p.sentAs.isOrdered = true := by rw [isOrdered_sentAs, h]
  unfold isReliable
  cases hr : p.sentAs <;> simp_all [Reliability.isOrdered, Reliability.isReliable]

theorem span_of_isReliable {p : Parcel} (h : p.isReliable = true) :
    p.span = p.pieces.length := if_pos h

theorem span_le (p : Parcel) : p.span ≤ p.pieces.length := by
  unfold span
  split
  · exact Nat.le_refl _
  · exact Nat.zero_le _

theorem two_le_span {p : Parcel} (h : p.isSplit = true) : 2 ≤ p.span := by
  rw [span_of_isReliable (isReliable_of_isSplit h)]
  exact of_decide_eq_true h

@[simp] theorem length_messages (p : Parcel) : p.messages.length = p.pieces.length := by
  simp [messages]

theorem mem_messages {p : Parcel} {m : Message} :
    m ∈ p.messages ↔ ∃ i, ∃ h : i < p.pieces.length, m = p.message i p.pieces[i] := by
  simp only [messages, List.mem_mapIdx, eq_comm]

theorem getElem?_messages_eq_some_iff {p : Parcel} {i : Nat} {m : Message} :
    p.messages[i]? = some m ↔ ∃ h : i < p.pieces.length, m = p.message i p.pieces[i] := by
  rw [List.getElem?_eq_some_iff]
  simp only [messages, List.getElem_mapIdx, List.length_mapIdx, eq_comm]

theorem order_of_mem {p : Parcel} {m : Message} (hm : m ∈ p.messages) : m.order = p.mark? := by
  obtain ⟨i, hi, rfl⟩ := mem_messages.1 hm
  rfl

theorem map_payload_messages (p : Parcel) : p.messages.map Message.payload = p.pieces := by
  refine List.ext_getElem (by simp) fun i _ _ => ?_
  simp [messages, message]

theorem pieces_of_not_isSplit {p : Parcel} (h : p.isSplit = false) :
    p.pieces = [p.payload] := by
  have hlength : p.pieces.length = 1 := by
    have := p.length_pos
    simp only [isSplit, decide_eq_false_iff_not] at h
    omega
  obtain ⟨x, hx⟩ := List.length_eq_one_iff.1 hlength
  simp [payload, hx]

/-- A parcel that was not split is its one message. -/
theorem message_eq_whole {p : Parcel} (h : p.isSplit = false) {i : Nat}
    (hi : i < p.pieces.length) : i = 0 ∧ p.message i p.pieces[i] = p.whole := by
  have hpieces := pieces_of_not_isSplit h
  have hone : p.pieces.length = 1 := by rw [hpieces]; rfl
  obtain rfl : i = 0 := by omega
  have hpiece : p.pieces[0] = p.payload := by simp [hpieces]
  rw [hpiece]
  exact ⟨rfl, by simp [whole, message, h]⟩

theorem index_message {p : Parcel} (h : p.isReliable = true) (i : Nat) (piece : Octets) :
    (p.message i piece).index = some (Serial.ofNat (p.first + i)) := if_pos h

theorem fragment_message {p : Parcel} (h : p.isSplit = true) (i : Nat) (piece : Octets) :
    (p.message i piece).fragment
      = some ⟨UInt32.ofNat p.pieces.length, UInt16.ofNat p.cut, UInt32.ofNat i⟩ := if_pos h

theorem mark?_of_isOrdered {p : Parcel} (h : p.isOrdered = true) :
    p.mark? = some ⟨Serial.ofNat p.place, p.channel⟩ := by
  rw [mark?, if_pos]
  rw [Reliability.hasOrder, show p.reliability.isOrdered = true from h, Bool.true_or]

theorem isOrderedOn_iff {p : Parcel} {channel : UInt8} :
    p.isOrderedOn channel = true ↔ p.isOrdered = true ∧ p.channel = channel := by
  simp [isOrderedOn]

theorem isSequencedOn_iff {p : Parcel} {channel : UInt8} : p.isSequencedOn channel = true
    ↔ p.reliability.isSequenced = true ∧ p.channel = channel := by
  simp [isSequencedOn]

/-! ## How parcels are numbered

The invariant is built up from one parcel at a time. A parcel that is numbered from a tally lies
behind the tally that it leaves (`Past.of_numbered`), and what lies behind a tally stays behind it
when more parcels are counted (`Past.after`); so all parcels of a list are past at its end. Seen
from the next parcel, which is numbered from there, being past means to precede it
(`Past.precedes`). Hence the list is ordered by `Precedes`, any two of its members are related one
way or the other, and that two of them have a number in common is refuted by looking at the two
cases.

`gap` is there for the fragments, which are told apart by the low 16 bits of a cut: between two
parcels that agree in these, 65535 others were cut, and each of them took two indexes at least. -/

/-- What comes before what, in numbers. -/
structure Precedes (p q : Parcel) : Prop where
  stop_le : p.stop ≤ q.first
  place_lt : p.isOrdered → q.isOrdered → p.channel = q.channel → p.place < q.place
  cut_lt : p.isSplit → p.cut < q.cut
  /-- Whatever was cut in between has two indexes. -/
  gap : p.isSplit → p.stop + 2 * (q.cut - (p.cut + 1)) ≤ q.first

end Parcel

/-- How far the counters have come. -/
structure Tally where
  index : Nat
  ordered : UInt8 → Nat
  sequenced : UInt8 → Nat
  cuts : Nat

namespace Tally

def zero : Tally := ⟨0, fun _ => 0, fun _ => 0, 0⟩

def parcel (t : Tally) (r : Reliability) (channel : UInt8) (pieces : List Octets)
    (nonempty : pieces ≠ []) : Parcel where
  reliability := r
  channel := channel
  pieces := pieces
  nonempty := nonempty
  first := t.index
  place := if r.isOrdered then t.ordered channel else t.sequenced channel
  cut := t.cuts

def after (p : Parcel) (t : Tally) : Tally where
  index := t.index + p.span
  ordered := fun c => if p.isOrderedOn c then t.ordered c + 1 else t.ordered c
  sequenced := fun c =>
    if p.reliability.isSequenced && p.channel == c then t.sequenced c + 1 else t.sequenced c
  cuts := if p.isSplit then t.cuts + 1 else t.cuts

end Tally

/-- The numbers of a parcel are those at which the counters stand. -/
structure Parcel.NumberedFrom (p : Parcel) (t : Tally) : Prop where
  first_eq : p.first = t.index
  ordered_eq : p.isOrdered → p.place = t.ordered p.channel
  sequenced_eq : p.reliability.isSequenced → p.place = t.sequenced p.channel
  cut_eq : p.cut = t.cuts

/-- Parcels, each numbered from where those before it have left the counters, which stood at `start`
at first. -/
inductive Numbered (start : Tally) : List Parcel → Tally → Prop
  | nil : Numbered start [] start
  | snoc {ps : List Parcel} {t : Tally} {p : Parcel} (before : Numbered start ps t)
      (numbered : p.NumberedFrom t) : Numbered start (ps ++ [p]) (t.after p)

/-- Parcels that are numbered from zero. -/
inductive Laid : List Parcel → Tally → Prop
  | nil : Laid [] Tally.zero
  | snoc {ps : List Parcel} {t : Tally} {p : Parcel} (before : Laid ps t)
      (numbered : p.NumberedFrom t) : Laid (ps ++ [p]) (t.after p)

namespace Laid

variable {ps : List Parcel} {t : Tally} {p q : Parcel} {i j k : Nat} {c : UInt8}

/-- A parcel that was counted lies behind the counters. -/
structure Past (p : Parcel) (t : Tally) : Prop where
  stop_le : p.stop ≤ t.index
  place_lt : p.isOrdered → p.place < t.ordered p.channel
  cut_lt : p.isSplit → p.cut < t.cuts
  gap : p.isSplit → p.stop + 2 * (t.cuts - (p.cut + 1)) ≤ t.index

theorem Past.after (h : Past p t) (q : Parcel) : Past p (t.after q) where
  stop_le := Nat.le_trans h.stop_le (Nat.le_add_right _ _)
  place_lt := by
    intro ho
    have := h.place_lt ho
    simp only [Tally.after]
    split <;> omega
  cut_lt := by
    intro hs
    have := h.cut_lt hs
    simp only [Tally.after]
    split <;> omega
  gap := by
    intro hs
    have hgap := h.gap hs
    have hcut := h.cut_lt hs
    simp only [Tally.after]
    split
    · rename_i hq
      have := Parcel.two_le_span hq
      omega
    · omega

theorem Past.of_numbered (h : p.NumberedFrom t) : Past p (t.after p) where
  stop_le := by
    simp only [Parcel.stop, Tally.after, h.first_eq]
    exact Nat.le_refl _
  place_lt := by
    intro ho
    simp only [Tally.after, Parcel.isOrderedOn_iff.2 ⟨ho, rfl⟩, h.ordered_eq ho, if_true]
    exact Nat.lt_succ_self _
  cut_lt := by
    intro hs
    simp only [Tally.after, hs, h.cut_eq, if_true]
    exact Nat.lt_succ_self _
  gap := by
    intro hs
    simp only [Parcel.stop, Tally.after, hs, h.cut_eq, h.first_eq, if_true, Nat.sub_self]
    exact Nat.le_refl _

theorem Past.precedes (h : Past p t) (hq : q.NumberedFrom t) : p.Precedes q where
  stop_le := by
    rw [hq.first_eq]
    exact h.stop_le
  place_lt := by
    intro hpo hqo hc
    rw [hq.ordered_eq hqo, ← hc]
    exact h.place_lt hpo
  cut_lt := by
    rw [hq.cut_eq]
    exact h.cut_lt
  gap := by
    rw [hq.first_eq, hq.cut_eq]
    exact h.gap

end Laid

namespace Numbered

variable {start t : Tally} {ps : List Parcel} {p q : Parcel}

theorem past (h : Numbered start ps t) : ∀ p ∈ ps, Laid.Past p t := by
  induction h with
  | nil => intro p hp; cases hp
  | snoc _ numbered ih =>
    intro p hp
    rcases List.mem_append.1 hp with hp | hp
    · exact (ih p hp).after _
    · rw [List.mem_singleton.1 hp]
      exact Laid.Past.of_numbered numbered

theorem pairwise (h : Numbered start ps t) : ps.Pairwise Parcel.Precedes := by
  induction h with
  | nil => exact List.Pairwise.nil
  | snoc before numbered ih =>
    refine List.pairwise_append.2 ⟨ih, List.pairwise_singleton _ _, fun p hp q hq => ?_⟩
    rw [List.mem_singleton.1 hq]
    exact (before.past p hp).precedes numbered

theorem trichotomy (h : Numbered start ps t) (hp : p ∈ ps) (hq : q ∈ ps) :
    p = q ∨ p.Precedes q ∨ q.Precedes p := by
  -- a pairwise relation holds both ways round between any two members
  refine List.Pairwise.forall_of_forall_of_flip
    (R := fun p q => p = q ∨ p.Precedes q ∨ q.Precedes p) (fun _ _ => Or.inl rfl)
    (h.pairwise.imp fun hpq => ?_) (h.pairwise.imp fun hpq => ?_) hp hq
  · exact Or.inr (Or.inl hpq)
  · exact Or.inr (Or.inr hpq)

/-- No reliable parcel stands twice: it would have to precede itself. -/
theorem nodup_reliable (h : Numbered start ps t) : (ps.filter Parcel.isReliable).Nodup := by
  rw [List.nodup_iff_pairwise_ne, List.pairwise_filter]
  refine h.pairwise.imp fun {p q} hpq hp _ heq => ?_
  have hstop := hpq.stop_le
  have hpos := p.length_pos
  rw [← heq, Parcel.stop, Parcel.span_of_isReliable hp] at hstop
  omega

theorem cuts_eq (h : Numbered start ps t) : t.cuts = start.cuts + ps.countP Parcel.isSplit := by
  induction h with
  | nil => rfl
  | @snoc ps t q before numbered ih =>
    rw [List.countP_append, List.countP_singleton, ← Nat.add_assoc, ← ih]
    simp only [Tally.after]
    split <;> rfl

theorem cuts_le (h : Numbered start ps t) : ∀ p ∈ ps, start.cuts ≤ p.cut := by
  induction h with
  | nil => intro p hp; cases hp
  | @snoc ps t q before numbered ih =>
    intro p hp
    rcases List.mem_append.1 hp with hp | hp
    · exact ih p hp
    · rw [List.mem_singleton.1 hp, numbered.cut_eq, before.cuts_eq]
      exact Nat.le_add_right _ _

theorem laid (h : Numbered Tally.zero ps t) : Laid ps t := by
  induction h with
  | nil => exact .nil
  | snoc _ numbered ih => exact .snoc ih numbered

end Numbered

namespace Laid

variable {ps : List Parcel} {t : Tally} {p q : Parcel} {i j k : Nat} {c : UInt8}

theorem numbered (h : Laid ps t) : Numbered Tally.zero ps t := by
  induction h with
  | nil => exact .nil
  | snoc _ numbered ih => exact .snoc ih numbered

theorem past (h : Laid ps t) : ∀ p ∈ ps, Past p t := h.numbered.past

theorem pairwise (h : Laid ps t) : ps.Pairwise Parcel.Precedes := h.numbered.pairwise

theorem nodup_reliable (h : Laid ps t) : (ps.filter Parcel.isReliable).Nodup :=
  h.numbered.nodup_reliable

theorem trichotomy (h : Laid ps t) (hp : p ∈ ps) (hq : q ∈ ps) :
    p = q ∨ p.Precedes q ∨ q.Precedes p := h.numbered.trichotomy hp hq

/-! ## Numbers without gaps

`Precedes` says that no number is given twice. That none is left out is another induction, on the
list: an index below the counter belongs to the last parcel, or lay below the counter before it. The
places and the cuts are single numbers, so there the numbers of all parcels that have one are the
list from zero up (`counted`), and a parcel stands at its number in the list of those. -/

/-- No index belongs to two parcels. -/
theorem eq_of_index (h : Laid ps t) (hp : p ∈ ps) (hq : q ∈ ps) (hpk : p.first ≤ k ∧ k < p.stop)
    (hqk : q.first ≤ k ∧ k < q.stop) : p = q := by
  rcases h.trichotomy hp hq with heq | hpq | hqp
  · exact heq
  · have := hpq.stop_le
    omega
  · have := hqp.stop_le
    omega

theorem eq_of_place (h : Laid ps t) (hp : p ∈ ps) (hq : q ∈ ps) (hpc : p.isOrderedOn c = true)
    (hqc : q.isOrderedOn c = true) (hplace : p.place = q.place) : p = q := by
  obtain ⟨hpo, hpc⟩ := Parcel.isOrderedOn_iff.1 hpc
  obtain ⟨hqo, hqc⟩ := Parcel.isOrderedOn_iff.1 hqc
  rcases h.trichotomy hp hq with heq | hpq | hqp
  · exact heq
  · have := hpq.place_lt hpo hqo (hpc.trans hqc.symm)
    omega
  · have := hqp.place_lt hqo hpo (hqc.trans hpc.symm)
    omega

/-- What has an earlier place has earlier indexes. -/
theorem precedes_of_place_lt (h : Laid ps t) (hp : p ∈ ps) (hq : q ∈ ps)
    (hpc : p.isOrderedOn c = true) (hqc : q.isOrderedOn c = true) (hplace : p.place < q.place) :
    p.Precedes q := by
  obtain ⟨hpo, hpc⟩ := Parcel.isOrderedOn_iff.1 hpc
  obtain ⟨hqo, hqc⟩ := Parcel.isOrderedOn_iff.1 hqc
  rcases h.trichotomy hp hq with rfl | hpq | hqp
  · omega
  · exact hpq
  · have := hqp.place_lt hqo hpo (hqc.trans hpc.symm)
    omega

/-- Every index belongs to a parcel. -/
theorem covered (h : Laid ps t) (hk : k < t.index) :
    ∃ p ∈ ps, p.isReliable = true ∧ p.first ≤ k ∧ k < p.stop := by
  induction h with
  | nil => exact absurd hk (Nat.not_lt_zero k)
  | @snoc ps t q before numbered ih =>
    -- the index lies behind the old counter, or else it belongs to the new parcel
    rcases Nat.lt_or_ge k t.index with hlt | hge
    · obtain ⟨p, hp, hrest⟩ := ih hlt
      exact ⟨p, List.mem_append_left _ hp, hrest⟩
    · simp only [Tally.after] at hk
      have hstop : q.stop = t.index + q.span := by rw [Parcel.stop, numbered.first_eq]
      refine ⟨q, List.mem_append_right _ List.mem_cons_self, ?_, by rwa [numbered.first_eq],
        by rwa [hstop]⟩
      by_contra hnot
      have hspan : q.span = 0 := if_neg hnot
      omega

/-- What draws its numbers from a counter, and moves it on by one, is counted up from zero. -/
theorem counted (on : Parcel → Bool) (number : Parcel → Nat) (count : Tally → Nat)
    (hzero : count Tally.zero = 0)
    (hafter : ∀ p t, count (t.after p) = if on p then count t + 1 else count t)
    (hnumber : ∀ (p : Parcel) (t : Tally), p.NumberedFrom t → on p = true → number p = count t)
    (h : Laid ps t) : (ps.filter on).map number = List.range (count t) := by
  induction h with
  | nil => rw [hzero]; rfl
  | @snoc ps t q before numbered ih =>
    rw [List.filter_append, List.map_append, ih, hafter]
    by_cases hon : on q = true
    · rw [if_pos hon, List.filter_cons_of_pos hon, List.filter_nil, List.map_singleton,
        hnumber q t numbered hon, List.range_succ]
    · rw [if_neg hon, List.filter_cons_of_neg hon, List.filter_nil, List.map_nil,
        List.append_nil]

/-- The ordered places of a channel are counted up from zero. -/
theorem places (h : Laid ps t) (c : UInt8) :
    (ps.filter (Parcel.isOrderedOn c)).map Parcel.place = List.range (t.ordered c) := by
  refine counted _ _ (fun t => t.ordered c) rfl (fun _ _ => rfl) (fun p t hp hon => ?_) h
  obtain ⟨ho, hc⟩ := Parcel.isOrderedOn_iff.1 hon
  rw [hp.ordered_eq ho, hc]

/-- And so are the sequenced ones. -/
theorem sequencedPlaces (h : Laid ps t) (c : UInt8) :
    (ps.filter (Parcel.isSequencedOn c)).map Parcel.place = List.range (t.sequenced c) := by
  refine counted _ _ (fun t => t.sequenced c) rfl (fun _ _ => rfl) (fun p t hp hon => ?_) h
  obtain ⟨hs, hc⟩ := Parcel.isSequencedOn_iff.1 hon
  rw [hp.sequenced_eq hs, hc]

/-- And the parcels that were cut. -/
theorem cutNumbers (h : Laid ps t) :
    (ps.filter Parcel.isSplit).map Parcel.cut = List.range t.cuts :=
  counted _ _ Tally.cuts rfl (fun _ _ => rfl) (fun _ _ hp _ => hp.cut_eq) h

/-- What is counted up from zero has the number of its position. -/
theorem number_of_counted {on : Parcel → Bool} {number : Parcel → Nat} {n : Nat}
    (hcounted : (ps.filter on).map number = List.range n) (hget : (ps.filter on)[i]? = some p) :
    number p = i := by
  have hnumber : (List.range n)[i]? = some (number p) := by
    rw [← hcounted, List.getElem?_map, hget]
    rfl
  obtain ⟨_, heq⟩ := List.getElem?_eq_some_iff.1 hnumber
  rw [← heq, List.getElem_range]

/-- What is counted up from zero stands at its number. -/
theorem getElem?_of_counted {on : Parcel → Bool} {number : Parcel → Nat} {n : Nat}
    (hcounted : (ps.filter on).map number = List.range n) (hp : p ∈ ps) (hon : on p = true) :
    (ps.filter on)[number p]? = some p := by
  obtain ⟨i, hi, heq⟩ := List.getElem_of_mem (List.mem_filter.2 ⟨hp, hon⟩)
  have hget : (ps.filter on)[i]? = some p := by rw [List.getElem?_eq_getElem hi, heq]
  rwa [number_of_counted hcounted hget]

/-- An ordered parcel stands at its place among those of its channel. -/
theorem getElem?_ordered (h : Laid ps t) (hp : p ∈ ps) (hon : p.isOrderedOn c = true) :
    (ps.filter (Parcel.isOrderedOn c))[p.place]? = some p :=
  getElem?_of_counted (h.places c) hp hon

/-- A stretch of the ordered parcels of a channel has a stretch of the places. -/
theorem mem_take_drop {n : Nat} (h : Laid ps t)
    (hp : p ∈ ((ps.filter (Parcel.isOrderedOn c)).drop k).take n) :
    p ∈ ps ∧ p.isOrderedOn c = true ∧ k ≤ p.place ∧ p.place < k + n := by
  obtain ⟨hps, hon⟩ := List.mem_filter.1 (List.mem_of_mem_drop (List.mem_of_mem_take hp))
  have hplace : p.place ∈ ((List.range (t.ordered c)).drop k).take n := by
    rw [← h.places c, ← List.map_drop, ← List.map_take]
    exact List.mem_map_of_mem hp
  obtain ⟨i, hi, hget⟩ := List.getElem_of_mem hplace
  rw [List.getElem_take, List.getElem_drop, List.getElem_range] at hget
  rw [List.length_take] at hi
  exact ⟨hps, hon, by omega, by omega⟩

/-- A sequenced parcel stands at its place among those of its channel. -/
theorem getElem?_sequenced (h : Laid ps t) (hp : p ∈ ps) (hon : p.isSequencedOn c = true) :
    (ps.filter (Parcel.isSequencedOn c))[p.place]? = some p :=
  getElem?_of_counted (h.sequencedPlaces c) hp hon

theorem placed (h : Laid ps t) (hk : k < t.ordered c) :
    ∃ p ∈ ps, p.isOrderedOn c = true ∧ p.place = k := by
  have hmem : k ∈ (ps.filter (Parcel.isOrderedOn c)).map Parcel.place := by
    rw [h.places c]
    exact List.mem_range.2 hk
  obtain ⟨p, hp, hplace⟩ := List.mem_map.1 hmem
  obtain ⟨hp, hon⟩ := List.mem_filter.1 hp
  exact ⟨p, hp, hon, hplace⟩

/-- Two parcels with the same fragment number are one if both have something at or behind `base`
still to come and something before `base + window`. A parcel takes two indexes, so the number comes
round after 131072 of them at the earliest. -/
theorem eq_of_id {base window : Nat} (h : Laid ps t) (spaced : window ≤ 131071 ∨ t.cuts ≤ 65536)
    (hp : p ∈ ps) (hq : q ∈ ps) (hps : p.isSplit = true) (hqs : q.isSplit = true)
    (hid : UInt16.ofNat p.cut = UInt16.ofNat q.cut) (hpbase : base < p.stop)
    (hpreach : p.first < base + window) (hqbase : base < q.stop)
    (hqreach : q.first < base + window) : p = q := by
  have hmod : p.cut % 65536 = q.cut % 65536 := by
    have := congrArg UInt16.toNat hid
    simpa only [UInt16.toNat_ofNat'] using this
  have hpcut := (h.past p hp).cut_lt hps
  have hqcut := (h.past q hq).cut_lt hqs
  rcases h.trichotomy hp hq with heq | hpq | hqp
  · exact heq
  · have hlt := hpq.cut_lt hps
    have hgap := hpq.gap hps
    omega
  · have hlt := hqp.cut_lt hqs
    have hgap := hqp.gap hqs
    omega

/-! ## No counter runs ahead of the messages

Every index, place and cut is that of a parcel, and every parcel has a message. So a bound on the
number of messages is a bound on all counters, and it is the only one that a theorem about a run has
to ask for. -/

def created (ps : List Parcel) : List Message := ps.flatMap Parcel.messages

/-- The reliable messages are counted up from zero too, those of a parcel in a row. -/
theorem indexes (h : Laid ps t) :
    ((created ps).filter (·.reliability.isReliable)).map Message.index
      = (List.range t.index).map fun k => some (Serial.ofNat k) := by
  induction h with
  | nil => rfl
  | @snoc ps t q before numbered ih =>
    have hcreated : created (ps ++ [q]) = created ps ++ q.messages := by simp [created]
    have hall : ∀ m ∈ q.messages, m.reliability = q.sentAs := by
      intro m hm
      obtain ⟨i, hi, rfl⟩ := Parcel.mem_messages.1 hm
      rfl
    rw [hcreated, List.filter_append, List.map_append, ih, Tally.after, List.range_add,
      List.map_append, List.map_map]
    refine congrArg (_ ++ ·) ?_
    by_cases hreliable : q.isReliable = true
    · rw [List.filter_eq_self.2 fun m hm => (hall m hm).symm ▸ hreliable,
        Parcel.span_of_isReliable hreliable]
      refine List.ext_getElem (by simp) fun i _ _ => ?_
      simp [Parcel.messages, Parcel.index_message hreliable, numbered.first_eq]
    · rw [List.filter_eq_nil_iff.2 fun m hm => (hall m hm).symm ▸ hreliable,
        show q.span = 0 from if_neg hreliable]
      rfl

theorem length_le_created (hp : p ∈ ps) : p.pieces.length ≤ (created ps).length := by
  obtain ⟨before, behind, rfl⟩ := List.append_of_mem hp
  simp only [created, List.flatMap_append, List.flatMap_cons, List.length_append,
    Parcel.length_messages]
  omega

theorem length_created_snoc (ps : List Parcel) (p : Parcel) :
    (created (ps ++ [p])).length = (created ps).length + p.pieces.length := by
  simp [created]

theorem index_le (h : Laid ps t) : t.index ≤ (created ps).length := by
  induction h with
  | nil => exact Nat.le_refl 0
  | @snoc ps t q before numbered ih =>
    have := q.span_le
    rw [length_created_snoc]
    simp only [Tally.after]
    omega

/-- Every parcel has a message. -/
theorem length_le_length_created (ps : List Parcel) : ps.length ≤ (created ps).length := by
  induction ps with
  | nil => exact Nat.le_refl 0
  | cons p ps ih =>
    have := p.length_pos
    simp only [created, List.flatMap_cons, List.length_append, List.length_cons,
      Parcel.length_messages] at ih ⊢
    omega

theorem ordered_le (h : Laid ps t) (c : UInt8) : t.ordered c ≤ (created ps).length := by
  have hlength := congrArg List.length (h.places c)
  rw [List.length_map, List.length_range] at hlength
  rw [← hlength]
  exact Nat.le_trans (List.length_filter_le _ _) (length_le_length_created ps)

theorem cuts_eq (h : Laid ps t) : t.cuts = ps.countP Parcel.isSplit :=
  h.numbered.cuts_eq.trans (Nat.zero_add _)

end Laid

end DatagramTransport

import DatagramTransport.Proofs.Report
import Mathlib.Data.List.Induction

/-!
# Condensing — one list of packets for one set of numbers

The numbers that are reported come in any order and any number of times, and the packets that are
built show nothing of that: **they depend on the set alone**. Put together, their ranges are its
canonical form, and a packet is only a cut of it that is short enough.

The canonical form is also what comes of going through the numbers by value, one by one, and letting
a range grow as long as the next number is there (`runs`). What is next is counted across the
wrap-around, and it never matters: **the number behind the greatest one has a smaller value, so it
does not come after it in an ascending list**.
-/

set_option autoImplicit false

namespace DatagramTransport

namespace SerialRange

variable {r q : SerialRange} {rs : List SerialRange} {s : Serial} {numbers : List Serial}

/-! ## Numbers one by one -/

/-- Puts a number behind ranges, which are given last first. The last of them grows if it ends just
before the number. -/
def extend : List SerialRange → Serial → List SerialRange
  | [], s => [single s]
  | r :: rs, s => if r.last.next = s then ⟨r.first, s⟩ :: rs else single s :: r :: rs

/-- The ranges of numbers that are gone through one by one. -/
def runs (numbers : List Serial) : List SerialRange := (numbers.foldl extend []).reverse

theorem canonical_concat : Canonical (rs ++ [r])
    ↔ Canonical rs ∧ r.IsStraight ∧ ∀ q ∈ rs, q.last.val + 1 < r.first.val := by
  constructor
  · rintro ⟨hstraight, hseparated⟩
    obtain ⟨hrs, -, hgap⟩ := List.pairwise_append.1 hseparated
    obtain ⟨hstraight, hr⟩ := List.forall_mem_append.1 hstraight
    exact ⟨⟨hstraight, hrs⟩, hr r List.mem_cons_self, fun q hq => hgap q hq r List.mem_cons_self⟩
  · rintro ⟨⟨hstraight, hseparated⟩, hr, hgap⟩
    refine ⟨List.forall_mem_append.2 ⟨hstraight, List.forall_mem_singleton.2 hr⟩, ?_⟩
    exact List.pairwise_append.2 ⟨hseparated, List.pairwise_singleton _ r,
      fun q hq => List.forall_mem_singleton.2 (hgap q hq)⟩

theorem cover_concat : Cover (rs ++ [r]) s ↔ Cover rs s ∨ r.Covers s := by
  simp [Cover, or_and_right, exists_or]

theorem covers_single {t : Serial} : (single t).Covers s ↔ s = t := by
  have hstraight : (single t).IsStraight := Nat.le_refl _
  rw [← mem_toList_iff hstraight, mem_toList_single]

/-- Ranges are the canonical form of some numbers. -/
structure Condenses (rs : List SerialRange) (numbers : List Serial) : Prop where
  canonical : Canonical rs
  cover_iff : ∀ s, Cover rs s ↔ s ∈ numbers

/-- A number behind a gap makes a range of its own. -/
theorem Condenses.concat (h : Condenses rs numbers) (hgap : ∀ q ∈ rs, q.last.val + 1 < s.val) :
    Condenses (rs ++ [single s]) (numbers ++ [s]) := by
  have hsingle : (single s).IsStraight := Nat.le_refl _
  refine ⟨canonical_concat.2 ⟨h.canonical, hsingle, hgap⟩, fun t => ?_⟩
  rw [cover_concat, h.cover_iff, covers_single, List.mem_append, List.mem_singleton]

/-- The number behind the last range makes it longer. -/
theorem Condenses.grow (h : Condenses (rs ++ [r]) numbers) (hs : s.val = r.last.val + 1) :
    Condenses (rs ++ [⟨r.first, s⟩]) (numbers ++ [s]) := by
  obtain ⟨hrs, hr, hgap⟩ := canonical_concat.1 h.canonical
  have hstraight : r.first.val ≤ r.last.val := hr
  have hlonger : IsStraight ⟨r.first, s⟩ := by
    show r.first.val ≤ s.val
    omega
  refine ⟨canonical_concat.2 ⟨hrs, hlonger, hgap⟩, fun t => ?_⟩
  have hgrown : Covers ⟨r.first, s⟩ t ↔ r.Covers t ∨ t = s := by
    rw [Serial.ext_iff]
    simp only [Covers]
    omega
  rw [cover_concat, hgrown, ← or_assoc, ← cover_concat, h.cover_iff, List.mem_append,
    List.mem_singleton]

theorem Condenses.last_lt (h : Condenses rs numbers) (hs : ∀ t ∈ numbers, t.val < s.val)
    (hq : q ∈ rs) : q.last.val < s.val :=
  hs q.last ((h.cover_iff _).1 ⟨q, hq, h.canonical.straight q hq, Nat.le_refl _⟩)

/-- **A number that is greater than all before it goes to the last range or behind it.** -/
theorem Condenses.extend (h : Condenses rs.reverse numbers) (hs : ∀ t ∈ numbers, t.val < s.val) :
    Condenses (extend rs s).reverse (numbers ++ [s]) := by
  cases rs with
  | nil => exact h.concat (List.forall_mem_nil _)
  | cons r rs =>
    rw [List.reverse_cons] at h
    have hlast := h.last_lt hs (List.mem_append_right _ List.mem_cons_self)
    -- there is a greater value than the last one, so the next number does not wrap
    have hnext : r.last.next.val = r.last.val + 1 := by
      have := s.isLt
      rw [Serial.val_next]
      omega
    rw [SerialRange.extend]
    split
    next heq =>
      rw [List.reverse_cons]
      exact h.grow (by rw [← heq, hnext])
    next hne =>
      have hbehind : r.last.val + 1 < s.val :=
        Nat.lt_of_le_of_ne hlast fun hval => hne (Serial.ext (hnext.trans hval))
      have hgap := (canonical_concat.1 h.canonical).2.2
      rw [List.reverse_cons, List.reverse_cons]
      refine h.concat fun q hq => ?_
      rcases List.mem_append.1 hq with hq | hq
      · have hq := hgap q hq
        have hr : r.first.val ≤ r.last.val := (canonical_concat.1 h.canonical).2.1
        omega
      · rw [List.mem_singleton.1 hq]
        exact hbehind

/-- Ascending numbers are condensed by going through them one by one. -/
theorem condenses_runs (h : numbers.Pairwise fun s t => s.val < t.val) :
    Condenses (runs numbers) numbers := by
  induction numbers using List.reverseRecOn with
  | nil =>
    refine ⟨⟨List.forall_mem_nil _, List.Pairwise.nil⟩, fun s => ?_⟩
    exact iff_of_false cover_nil List.not_mem_nil
  | append_singleton numbers s ih =>
    obtain ⟨hnumbers, -, hs⟩ := List.pairwise_append.1 h
    have hruns : Condenses (numbers.foldl SerialRange.extend []).reverse numbers := ih hnumbers
    rw [runs, List.foldl_append, List.foldl_cons, List.foldl_nil]
    exact hruns.extend fun t ht => hs t ht s List.mem_cons_self

theorem condenses_condense (reported : List Serial) :
    Condenses (condense (reported.map single)) reported where
  canonical := canonical_condense _
  cover_iff := fun s => by
    rw [← (canonical_condense _).mem_numbers, mem_numbers_condense_single]

/-- One set of numbers is condensed in one way. -/
theorem Condenses.eq {others : List SerialRange} {again : List Serial} (h : Condenses rs numbers)
    (h' : Condenses others again) (hsame : ∀ s, s ∈ again ↔ s ∈ numbers) : others = rs :=
  h'.canonical.eq_of_cover_iff h.canonical fun s => by
    rw [h'.cover_iff, h.cover_iff, hsame]

/-- Ranges of a canonical form touch at most across the wrap-around. -/
theorem Canonical.ends_of_next_eq (h : Canonical rs) (hr : r ∈ rs) (hq : q ∈ rs)
    (hnext : r.last.next = q.first) : r.last = Serial.greatest ∧ q.first = Serial.zero := by
  have hval := congrArg Serial.val hnext
  have hlast := r.last.isLt
  have hrstraight : r.first.val ≤ r.last.val := h.straight r hr
  have hqstraight : q.first.val ≤ q.last.val := h.straight q hq
  rw [Serial.val_next] at hval
  have hgreatest : Serial.greatest.val = 16777215 := rfl
  have hzero : Serial.zero.val = 0 := rfl
  rw [Serial.ext_iff, Serial.ext_iff, hgreatest, hzero]
  rcases h.gap hr hq with rfl | hbehind | hbefore <;> omega

end SerialRange

namespace Acknowledgement

variable {limit : Nat}

/-- **What is built for a set of numbers.** Put together, the ranges of the packets are its
canonical form: none is empty, they ascend, and between each two of them is a gap, so that two can
touch only across the wrap-around. The numbers in them ascend as well, and they are those that are
reported. No other ranges are like that. So they are the ones that come of going through the numbers
by value, one by one, and the packets are the same for any list of the same numbers. No packet is
empty, and none is longer than the limit. -/
theorem built_in_canonical_form (kind : AckKind) (reported : List Serial) (hroom : 10 ≤ limit) :
    let packets := build kind (reported.map SerialRange.single) limit
    let ranges := packets.flatMap Acknowledgement.ranges
    (SerialRange.Canonical ranges ∧
      ∀ r ∈ ranges, ∀ q ∈ ranges, r.last.next = q.first →
        r.last = Serial.greatest ∧ q.first = Serial.zero) ∧
    ((packets.flatMap numbers).Pairwise (fun s t => s.val < t.val) ∧
      ∀ s, s ∈ packets.flatMap numbers ↔ s ∈ reported) ∧
    (∀ others, SerialRange.Canonical others →
      (∀ s, s ∈ others.flatMap SerialRange.toList ↔ s ∈ reported) → others = ranges) ∧
    (∀ sorted : List Serial, sorted.Pairwise (fun s t => s.val < t.val) →
      (∀ s, s ∈ sorted ↔ s ∈ reported) → SerialRange.runs sorted = ranges) ∧
    (∀ again : List Serial, (∀ s, s ∈ again ↔ s ∈ reported) →
      build kind (again.map SerialRange.single) limit = packets) ∧
    ∀ a ∈ packets, a.kind = kind ∧ a.ranges ≠ [] ∧ a.encodedLength ≤ limit := by
  intro packets ranges
  have hranges : ranges = SerialRange.condense (reported.map SerialRange.single) :=
    flatMap_ranges_build kind _ limit
  have hnumbers : packets.flatMap numbers = ranges.flatMap SerialRange.toList :=
    hranges ▸ flatMap_numbers_build kind _ limit
  have hcondenses : SerialRange.Condenses ranges reported :=
    hranges ▸ SerialRange.condenses_condense reported
  have hcanonical := hcondenses.canonical
  refine ⟨⟨hcanonical, fun r hr q hq => hcanonical.ends_of_next_eq hr hq⟩, ⟨?_, fun s => ?_⟩,
    fun others hothers hsame => ?_, fun sorted hsorted hsame => ?_, fun again hsame => ?_,
    fun a ha => ⟨(mem_numbers_build ha).1, ?_, encodedLength_le_of_mem_build hroom ha⟩⟩
  · exact hnumbers ▸ hcanonical.pairwise_numbers
  · rw [hnumbers, hcanonical.mem_numbers, hcondenses.cover_iff]
  · refine hcondenses.eq ⟨hothers, fun s => ?_⟩ fun s => Iff.rfl
    rw [← hothers.mem_numbers, hsame]
  · exact hcondenses.eq (SerialRange.condenses_runs hsorted) hsame
  · have hform := hcondenses.eq (SerialRange.condenses_condense again) hsame
    show build kind (again.map SerialRange.single) limit = build kind _ limit
    rw [build, build, hform, hranges]
  · obtain ⟨group, hgroup, rfl⟩ := List.mem_map.1 ha
    exact Packing.ne_nil_of_mem_batches hgroup

/-- Out of order, one of them twice, and with a row of them that goes on across the wrap-around. -/
def scattered : List Serial := [5, 16777215, 0, 5, 1].map Serial.ofNat

/-- The row is two ranges, and the second packet begins where the first one has no room for it. -/
theorem built_in_canonical_form_scattered :
    let packets := build .nack (scattered.map SerialRange.single) 14
    let row : SerialRange := ⟨Serial.ofNat 0, Serial.ofNat 1⟩
    let five := SerialRange.single (Serial.ofNat 5)
    packets = [⟨.nack, [row, five]⟩, ⟨.nack, [.single Serial.greatest]⟩] ∧
      (∀ a ∈ packets, a.encodedLength ≤ 14) ∧
      build .nack (([0, 1, 5, 16777215].map Serial.ofNat).map SerialRange.single) 14
        = packets := by
  intro packets row five
  obtain ⟨-, -, -, hruns, hagain, hpackets⟩ :=
    built_in_canonical_form .nack scattered (show 10 ≤ 14 by decide)
  have hsame (s : Serial) : s ∈ [0, 1, 5, 16777215].map Serial.ofNat ↔ s ∈ scattered := by
    simp only [scattered, List.map_cons, List.map_nil, List.mem_cons, List.not_mem_nil, or_false]
    grind
  have hranges := hruns ([0, 1, 5, 16777215].map Serial.ofNat) (by decide) hsame
  rw [flatMap_ranges_build] at hranges
  refine ⟨?_, fun a ha => (hpackets a ha).2.2, hagain _ hsame⟩
  show build .nack (scattered.map SerialRange.single) 14 = _
  rw [build, ← hranges]
  rfl

end Acknowledgement

end DatagramTransport

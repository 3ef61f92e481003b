import DatagramTransport.Acknowledgement
import Mathlib.Data.List.Basic

/-!
# Ranges as sets of numbers

Condensing changes the form of a set of numbers, never the set. Seen from the inside a range is an
interval of values, or two of them if it crosses the wrap-around; what `cons` does is to join
intervals that overlap or touch, and **two such intervals hold together what the joined one
holds**, because the second begins at the latest behind the end of the first.
-/

set_option autoImplicit false

namespace DatagramTransport

namespace SerialRange

variable {r q : SerialRange} {rs qs : List SerialRange} {s : Serial}

def IsStraight (r : SerialRange) : Prop := r.first.val ≤ r.last.val

/-- The value of a number is between those of the two ends. -/
def Covers (r : SerialRange) (s : Serial) : Prop := r.first.val ≤ s.val ∧ s.val ≤ r.last.val

def Cover (rs : List SerialRange) (s : Serial) : Prop := ∃ r ∈ rs, r.Covers s

@[simp] theorem cover_nil : ¬ Cover [] s := fun ⟨_, hr, _⟩ => by cases hr

theorem cover_cons : Cover (r :: rs) s ↔ r.Covers s ∨ Cover rs s := by
  simp [Cover]

theorem mem_toList_iff (h : r.IsStraight) : s ∈ r.toList ↔ r.Covers s := by
  have hs := s.isLt
  have hfirst := r.first.isLt
  have hlast := r.last.isLt
  unfold IsStraight at h
  rw [mem_toList, contains_iff, length, Covers, Serial.distanceFrom, Serial.distanceFrom]
  omega

theorem mem_toList_single {t : Serial} : s ∈ (single t).toList ↔ s = t := by
  have hstraight : (single t).IsStraight := Nat.le_refl _
  rw [mem_toList_iff hstraight]
  constructor
  · rintro ⟨hfirst, hlast⟩
    exact Serial.ext (Nat.le_antisymm hlast hfirst)
  · rintro rfl
    exact ⟨Nat.le_refl _, Nat.le_refl _⟩

theorem isStraight_unwrapped : ∀ q ∈ r.unwrapped, q.IsStraight := by
  intro q hq
  have hfirst := r.first.isLt
  unfold unwrapped at hq
  split at hq
  · rename_i hle
    rw [List.mem_singleton.1 hq]
    exact hle
  · rcases List.mem_cons.1 hq with rfl | hq
    · show r.first.val ≤ 16777215
      omega
    · rw [List.mem_singleton.1 hq]
      exact Nat.zero_le _

/-- The parts of a range that do not cross the wrap-around are together the range. -/
theorem cover_unwrapped : Cover r.unwrapped s ↔ s ∈ r.toList := by
  have hs := s.isLt
  have hfirst := r.first.isLt
  have hlast := r.last.isLt
  unfold unwrapped
  split
  · rename_i hle
    rw [mem_toList_iff hle, cover_cons, or_iff_left cover_nil]
  · rw [mem_toList, contains_iff, length, cover_cons, cover_cons, or_iff_left cover_nil,
      Covers, Covers, Serial.distanceFrom, Serial.distanceFrom]
    have hgreatest : Serial.greatest.val = 16777215 := rfl
    have hzero : Serial.zero.val = 0 := rfl
    simp only [hgreatest, hzero]
    omega

/-! ## Joining -/

theorem first_cons : ∀ q ∈ cons r qs, q.first = r.first ∨ ∃ q' ∈ qs, q.first = q'.first := by
  induction qs generalizing r with
  | nil =>
    intro q hq
    rw [cons, List.mem_singleton] at hq
    exact Or.inl (by rw [hq])
  | cons q' qs ih =>
    intro q hq
    rw [cons] at hq
    split at hq
    · rcases List.mem_cons.1 hq with rfl | hq
      · exact Or.inl rfl
      · exact Or.inr ⟨q, hq, rfl⟩
    · rcases ih q hq with heq | ⟨q'', hq'', heq⟩
      · exact Or.inl heq
      · exact Or.inr ⟨q'', List.mem_cons_of_mem _ hq'', heq⟩

theorem isStraight_cons (hr : r.IsStraight) (hqs : ∀ q ∈ qs, q.IsStraight) :
    ∀ q ∈ cons r qs, q.IsStraight := by
  induction qs generalizing r with
  | nil =>
    intro q hq
    rw [cons, List.mem_singleton] at hq
    rwa [hq]
  | cons q' qs ih =>
    rw [cons]
    split
    · intro q hq
      rcases List.mem_cons.1 hq with rfl | hq
      · exact hr
      · exact hqs q hq
    · refine ih ?_ fun q hq => hqs q (List.mem_cons_of_mem _ hq)
      unfold IsStraight at hr ⊢
      simp only
      split <;> omega

/-- A range that begins before all the others is joined to them without a gain or a loss. -/
theorem cover_cons_range (hr : r.IsStraight) (hqs : ∀ q ∈ qs, q.IsStraight)
    (hfirst : ∀ q ∈ qs, r.first.val ≤ q.first.val) :
    Cover (cons r qs) s ↔ r.Covers s ∨ Cover qs s := by
  induction qs generalizing r with
  | nil => rw [cons, cover_cons]
  | cons q qs ih =>
    have hq := hqs q List.mem_cons_self
    have hle := hfirst q List.mem_cons_self
    rw [cons]
    split
    · rw [cover_cons]
    · rename_i htouch
      have hjoined : IsStraight
          ⟨r.first, if r.last.val < q.last.val then q.last else r.last⟩ := by
        unfold IsStraight at hr hq ⊢
        simp only
        split <;> omega
      rw [ih hjoined (fun q' hq' => hqs q' (List.mem_cons_of_mem _ hq'))
        (fun q' hq' => hfirst q' (List.mem_cons_of_mem _ hq')), cover_cons, ← or_assoc]
      refine or_congr_left ?_
      unfold Covers IsStraight at *
      simp only
      split <;> omega

/-- Straight ranges in ascending order are joined to straight ranges that hold the same. -/
theorem foldr_cons (hstraight : ∀ q ∈ qs, q.IsStraight)
    (hsorted : qs.Pairwise fun r q => r.first.val ≤ q.first.val) :
    (∀ q ∈ qs.foldr cons [], q.IsStraight ∧ ∃ q' ∈ qs, q.first = q'.first) ∧
      ∀ s, Cover (qs.foldr cons []) s ↔ Cover qs s := by
  induction hsorted with
  | nil => exact ⟨fun q hq => absurd hq List.not_mem_nil, fun s => Iff.rfl⟩
  | @cons r l hr _ ih =>
    obtain ⟨hparts, hcover⟩ := ih fun q hq => hstraight q (List.mem_cons_of_mem _ hq)
    have hself := hstraight r List.mem_cons_self
    have hfirst : ∀ q ∈ l.foldr cons [], r.first.val ≤ q.first.val := by
      intro q hq
      obtain ⟨q', hq', heq⟩ := (hparts q hq).2
      rw [heq]
      exact hr q' hq'
    rw [List.foldr_cons]
    refine ⟨fun q hq => ⟨isStraight_cons hself (fun q' hq' => (hparts q' hq').1) q hq, ?_⟩,
      fun s => ?_⟩
    · rcases first_cons q hq with heq | ⟨q', hq', heq⟩
      · exact ⟨r, List.mem_cons_self, heq⟩
      · obtain ⟨q'', hq'', heq'⟩ := (hparts q' hq').2
        exact ⟨q'', List.mem_cons_of_mem _ hq'', heq.trans heq'⟩
    · rw [cover_cons_range hself (fun q hq => (hparts q hq).1) hfirst, hcover, cover_cons]

def sortedParts (rs : List SerialRange) : List SerialRange :=
  (rs.flatMap unwrapped).mergeSort fun r q => r.first.val ≤ q.first.val

theorem mem_sortedParts : q ∈ sortedParts rs ↔ ∃ r ∈ rs, q ∈ r.unwrapped := by
  rw [sortedParts, List.mem_mergeSort, List.mem_flatMap]

theorem isStraight_sortedParts : ∀ q ∈ sortedParts rs, q.IsStraight := by
  intro q hq
  obtain ⟨r, -, hq⟩ := mem_sortedParts.1 hq
  exact isStraight_unwrapped q hq

theorem pairwise_sortedParts (rs : List SerialRange) :
    (sortedParts rs).Pairwise fun r q => r.first.val ≤ q.first.val := by
  refine (List.pairwise_mergeSort (fun a b c hab hbc => ?_) (fun a b => ?_)
    (rs.flatMap unwrapped)).imp fun hle => of_decide_eq_true hle
  · simp only [decide_eq_true_eq] at *
    omega
  · simp only [Bool.or_eq_true, decide_eq_true_eq]
    omega

theorem isStraight_condense : ∀ q ∈ condense rs, q.IsStraight := fun q hq =>
  ((foldr_cons isStraight_sortedParts (pairwise_sortedParts _)).1 q hq).1

/-- **The canonical form holds the numbers of the ranges that it was made of.** -/
theorem mem_condense : (∃ q ∈ condense rs, s ∈ q.toList) ↔ ∃ r ∈ rs, s ∈ r.toList := by
  have hcover := (foldr_cons isStraight_sortedParts (pairwise_sortedParts rs)).2 s
  constructor
  · rintro ⟨q, hq, hs⟩
    have hcovers := (mem_toList_iff (isStraight_condense q hq)).1 hs
    obtain ⟨q', hq', hcovers'⟩ := hcover.1 ⟨q, hq, hcovers⟩
    obtain ⟨r, hr, hq'⟩ := mem_sortedParts.1 hq'
    exact ⟨r, hr, cover_unwrapped.1 ⟨q', hq', hcovers'⟩⟩
  · rintro ⟨r, hr, hs⟩
    obtain ⟨q, hq, hcovers⟩ := cover_unwrapped.2 hs
    obtain ⟨q', hq', hcovers'⟩ := hcover.2 ⟨q, mem_sortedParts.2 ⟨r, hr, hq⟩, hcovers⟩
    exact ⟨q', hq', (mem_toList_iff (isStraight_condense q' hq')).2 hcovers'⟩

end SerialRange

namespace Acknowledgement

/-- A packet that reports some numbers reports no others. -/
theorem mem_numbers_build {kind : AckKind} {ranges : List SerialRange} {maxLength : Nat}
    {a : Acknowledgement} (ha : a ∈ build kind ranges maxLength) :
    a.kind = kind ∧ ∀ s ∈ a.numbers, ∃ r ∈ ranges, s ∈ r.toList := by
  obtain ⟨group, hgroup, rfl⟩ := List.mem_map.1 ha
  refine ⟨rfl, fun s hs => ?_⟩
  obtain ⟨q, hq, hs⟩ := List.mem_flatMap.1 hs
  have hmem : q ∈ SerialRange.condense ranges := by
    rw [← Packing.batches_flatten_append SerialRange.encodedLength (maxLength - headerLength)
      (SerialRange.condense ranges).length (SerialRange.condense ranges)]
    exact List.mem_append_left _ (List.mem_flatten.2 ⟨group, hgroup, hq⟩)
  exact SerialRange.mem_condense.1 ⟨q, hmem, hs⟩

end Acknowledgement

end DatagramTransport

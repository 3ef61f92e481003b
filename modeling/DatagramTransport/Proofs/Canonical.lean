import DatagramTransport.Proofs.Ranges
import Mathlib.Data.List.Pairwise

/-!
# The canonical form of a set of numbers

What condensing makes of ranges is not just some other ranges for the same numbers. They ascend, and
**between each two of them there is a number that is in neither**. Three things follow: no number is
listed twice, a row of numbers that are all in the set lies in one range, however it was given, and
there is only one such form (`Canonical.eq_of_cover_iff`). So the longest range is as long as the
longest row of numbers, and nothing else bounds it.

A row ends at the wrap-around, as the ranges are those of the values.
-/

set_option autoImplicit false

namespace DatagramTransport

theorem Serial.plus_zero (s : Serial) : s.plus 0 = s := s.ofNat_val

namespace SerialRange

variable {r q : SerialRange} {rs qs : List SerialRange} {s t : Serial}

/-- Ranges of values that ascend, with a gap between each two of them. -/
structure Canonical (rs : List SerialRange) : Prop where
  straight : ∀ r ∈ rs, r.IsStraight
  separated : rs.Pairwise fun r q => r.last.val + 1 < q.first.val

theorem Canonical.tail (h : Canonical (r :: rs)) : Canonical rs where
  straight := fun q hq => h.straight q (List.mem_cons_of_mem r hq)
  separated := (List.pairwise_cons.1 h.separated).2

/-- A range that is put in front is joined to those that it does not leave a gap to. -/
theorem Canonical.cons (hr : r.IsStraight) (h : Canonical qs) : Canonical (cons r qs) := by
  refine ⟨isStraight_cons hr h.straight, ?_⟩
  clear hr
  induction qs generalizing r with
  | nil => exact List.pairwise_singleton _ r
  | cons q qs ih =>
    rw [SerialRange.cons]
    split
    next hgap =>
      refine List.pairwise_cons.2 ⟨fun p hp => ?_, h.separated⟩
      rcases List.mem_cons.1 hp with rfl | hp
      · exact hgap
      · have hbehind := (List.pairwise_cons.1 h.separated).1 p hp
        have hq : q.first.val ≤ q.last.val := h.straight q List.mem_cons_self
        omega
    next => exact ih h.tail

theorem canonical_condense (rs : List SerialRange) : Canonical (condense rs) := by
  show Canonical ((sortedParts rs).foldr SerialRange.cons [])
  have hparts : ∀ q ∈ sortedParts rs, q.IsStraight := isStraight_sortedParts
  generalize sortedParts rs = parts at hparts
  induction parts with
  | nil => exact ⟨fun q hq => absurd hq List.not_mem_nil, List.Pairwise.nil⟩
  | cons q parts ih =>
    exact (ih fun p hp => hparts p (List.mem_cons_of_mem q hp)).cons
      (hparts q List.mem_cons_self)

/-! ## Every number once -/

theorem pairwise_toList (h : r.IsStraight) : r.toList.Pairwise fun s t => s.val < t.val := by
  have hlast := r.last.isLt
  have hstraight : r.first.val ≤ r.last.val := h
  rw [toList, List.pairwise_map]
  refine (List.pairwise_lt_range (n := r.length)).imp_of_mem fun {a b} ha hb hab => ?_
  simp only [List.mem_range, length, Serial.distanceFrom] at ha hb
  simp only [Serial.val_plus]
  omega

/-- **The numbers of a canonical form ascend.** -/
theorem Canonical.pairwise_numbers (h : Canonical rs) :
    (rs.flatMap toList).Pairwise fun s t => s.val < t.val := by
  refine List.pairwise_flatMap.2 ⟨fun r hr => pairwise_toList (h.straight r hr), ?_⟩
  refine h.separated.imp_of_mem fun {r q} hr hq hgap s hs t ht => ?_
  have hs := (mem_toList_iff (h.straight r hr)).1 hs
  have ht := (mem_toList_iff (h.straight q hq)).1 ht
  unfold Covers at hs ht
  omega

theorem Canonical.nodup_numbers (h : Canonical rs) : (rs.flatMap toList).Nodup :=
  h.pairwise_numbers.imp fun hlt heq => absurd (congrArg Serial.val heq) (Nat.ne_of_lt hlt)

theorem Canonical.mem_numbers (h : Canonical rs) : s ∈ rs.flatMap toList ↔ Cover rs s := by
  rw [List.mem_flatMap]
  exact exists_congr fun r => and_congr_right fun hr => mem_toList_iff (h.straight r hr)

/-- The canonical form of single numbers is that of the set of them. -/
theorem mem_numbers_condense_single {reported : List Serial} :
    s ∈ (condense (reported.map single)).flatMap toList ↔ s ∈ reported := by
  rw [List.mem_flatMap, mem_condense]
  simp [mem_toList_single]

/-! ## The longest range -/

theorem length_of_isStraight (h : r.IsStraight) :
    r.length = r.last.val - r.first.val + 1 := by
  have hlast := r.last.isLt
  have hstraight : r.first.val ≤ r.last.val := h
  unfold length Serial.distanceFrom
  omega

theorem Canonical.gap (h : Canonical rs) (hr : r ∈ rs) (hq : q ∈ rs) :
    r = q ∨ r.last.val + 1 < q.first.val ∨ q.last.val + 1 < r.first.val :=
  List.Pairwise.forall_of_forall_of_flip
    (R := fun r q => r = q ∨ r.last.val + 1 < q.first.val ∨ q.last.val + 1 < r.first.val)
    (fun _ _ => Or.inl rfl) (h.separated.imp fun hgap => Or.inr (Or.inl hgap))
    (h.separated.imp fun hgap => Or.inr (Or.inr hgap)) hr hq

/-- The next number, if it is in the set at all, is in the same range. -/
theorem Canonical.covers_next (h : Canonical rs) (hr : r ∈ rs) (hs : r.Covers s)
    (ht : Cover rs t) (hnext : t.val = s.val + 1) : r.Covers t := by
  obtain ⟨q, hq, hqt⟩ := ht
  unfold Covers at *
  rcases h.gap hr hq with rfl | hbehind | hbefore <;> omega

theorem Canonical.covers_plus (h : Canonical rs) (hr : r ∈ rs) (hs : r.Covers s) {n : Nat}
    (hbelow : s.val + n < 16777216) (hrow : ∀ k ≤ n, Cover rs (s.plus k)) :
    r.Covers (s.plus n) := by
  induction n with
  | zero =>
    rwa [s.plus_zero]
  | succ n ih =>
    have hbefore := ih (by omega) fun k hk => hrow k (Nat.le_succ_of_le hk)
    refine h.covers_next hr hbefore (hrow (n + 1) (Nat.le_refl _)) ?_
    simp only [Serial.val_plus]
    omega

/-- **A range is as long as the row of numbers that are all in the set**: there is one of more than
`n` numbers exactly if there is a row of so many. -/
theorem Canonical.exists_longer_iff (h : Canonical rs) (n : Nat) :
    (∃ r ∈ rs, n < r.length)
      ↔ ∃ s : Serial, s.val + n < 16777216 ∧ ∀ k ≤ n, Cover rs (s.plus k) := by
  constructor
  · rintro ⟨r, hr, hlong⟩
    have hlast := r.last.isLt
    have hstraight : r.first.val ≤ r.last.val := h.straight r hr
    rw [length_of_isStraight (h.straight r hr)] at hlong
    refine ⟨r.first, by omega, fun k hk => ⟨r, hr, ?_⟩⟩
    simp only [Covers, Serial.val_plus]
    omega
  · rintro ⟨s, hbelow, hrow⟩
    obtain ⟨r, hr, hs⟩ := hrow 0 (Nat.zero_le n)
    rw [s.plus_zero] at hs
    have hend := h.covers_plus hr hs hbelow hrow
    refine ⟨r, hr, ?_⟩
    simp only [Covers, Serial.val_plus] at hs hend
    rw [length_of_isStraight (h.straight r hr)]
    omega

/-! ## One form of a set -/

/-- Behind the first range of a canonical form there is a gap. -/
theorem Canonical.head_gap (h : Canonical (r :: rs)) (hs : Cover rs s) :
    r.last.val + 1 < s.val := by
  obtain ⟨q, hq, hfirst, -⟩ := hs
  have := (List.pairwise_cons.1 h.separated).1 q hq
  omega

/-- Of two forms whose first ranges begin with numbers of both, neither first range ends later. -/
theorem Canonical.head_le (h : Canonical (r :: rs)) (h' : Canonical (q :: qs))
    (hcover : ∀ s, Cover (r :: rs) s → Cover (q :: qs) s) :
    q.first.val ≤ r.first.val ∧ (q.first.val = r.first.val → r.last.val ≤ q.last.val) := by
  have hr : r.first.val ≤ r.last.val := h.straight r List.mem_cons_self
  have hq : q.first.val ≤ q.last.val := h'.straight q List.mem_cons_self
  have hlast := r.last.isLt
  constructor
  · have hfirst := hcover r.first (cover_cons.2 (Or.inl ⟨Nat.le_refl _, hr⟩))
    rcases cover_cons.1 hfirst with hin | hbehind
    · exact hin.1
    · have := h'.head_gap hbehind
      omega
  · intro hsame
    by_contra hlonger
    -- the number behind the end of `q` is in `r`, and in no range of the other form
    have hval : (Serial.ofNat (q.last.val + 1)).val = q.last.val + 1 := by
      rw [Serial.val_ofNat]
      omega
    have hin : r.Covers (Serial.ofNat (q.last.val + 1)) := by
      unfold Covers
      rw [hval]
      omega
    rcases cover_cons.1 (hcover _ (cover_cons.2 (Or.inl hin))) with hin | hbehind
    · have := hin.2
      omega
    · have := h'.head_gap hbehind
      omega

theorem Canonical.cover_tail (h : Canonical (r :: rs))
    (hcover : ∀ s, Cover (r :: rs) s → Cover (r :: qs) s) : ∀ s, Cover rs s → Cover qs s := by
  intro s hs
  have hbehind := h.head_gap hs
  rcases cover_cons.1 (hcover s (cover_cons.2 (Or.inr hs))) with hin | hs
  · have := hin.2
    omega
  · exact hs

/-- **A set has one canonical form.** -/
theorem Canonical.eq_of_cover_iff (h : Canonical rs) (h' : Canonical qs)
    (hcover : ∀ s, Cover rs s ↔ Cover qs s) : rs = qs := by
  induction rs generalizing qs with
  | nil =>
    cases qs with
    | nil => rfl
    | cons q qs =>
      have hq : q.first.val ≤ q.last.val := h'.straight q List.mem_cons_self
      exact absurd ((hcover q.first).2 (cover_cons.2 (Or.inl ⟨Nat.le_refl _, hq⟩))) cover_nil
  | cons r rs ih =>
    cases qs with
    | nil =>
      have hr : r.first.val ≤ r.last.val := h.straight r List.mem_cons_self
      exact absurd ((hcover r.first).1 (cover_cons.2 (Or.inl ⟨Nat.le_refl _, hr⟩))) cover_nil
    | cons q qs =>
      obtain ⟨hle, hend⟩ := h.head_le h' fun s => (hcover s).1
      obtain ⟨hle', hend'⟩ := h'.head_le h fun s => (hcover s).2
      have hfirst := Nat.le_antisymm hle hle'
      have hlast := Nat.le_antisymm (hend hfirst) (hend' hfirst.symm)
      obtain rfl : r = q := by
        obtain ⟨rfirst, rlast⟩ := r
        obtain ⟨qfirst, qlast⟩ := q
        rw [SerialRange.mk.injEq]
        exact ⟨Serial.ext hfirst.symm, Serial.ext hlast⟩
      rw [ih h.tail h'.tail fun s =>
        ⟨h.cover_tail (fun s => (hcover s).1) s, h'.cover_tail (fun s => (hcover s).2) s⟩]

end SerialRange

end DatagramTransport

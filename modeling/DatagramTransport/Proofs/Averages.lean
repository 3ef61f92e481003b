import DatagramTransport.Latency
import Mathlib.Algebra.Order.BigOperators.Group.List
import Mathlib.Algebra.Order.Ring.Nat

/-!
# Averages — what a few numbers say about all samples

No sample is kept. **What is kept is what would be computed from the whole list of them**: the last,
the least and the greatest, and a sum and a count that stop at their ends. As long as neither has
got there the mean is that of the list, so it lies between the least and the greatest, as does the
last. Behind the end nothing is left of that, as one of the two goes on without the other.
-/

set_option autoImplicit false

namespace DatagramTransport

namespace Latency

variable {l : Latency} {samples : List Nanoseconds}

/-- The statistics are those of the samples. -/
structure Summarizes (l : Latency) (samples : List Nanoseconds) : Prop where
  last : l.last = samples.getLast?
  lowest : l.lowest = samples.min?
  highest : l.highest = samples.max?
  total : l.total = min samples.sum Nanoseconds.longest
  count : l.count = min samples.length mostSamples

theorem summarizes_nothing : Summarizes {} [] := ⟨rfl, rfl, rfl, rfl, rfl⟩

theorem Summarizes.record (h : l.Summarizes samples) (measured : Nanoseconds) :
    (l.record measured).Summarizes (samples ++ [measured]) where
  last := List.getLast?_concat.symm
  lowest := by
    unfold Latency.record
    rw [h.lowest]
    cases samples with
    | nil => rfl
    | cons first samples =>
      simp only [List.cons_append, List.min?_cons', List.foldl_append, List.foldl_cons,
        List.foldl_nil]
  highest := by
    unfold Latency.record
    rw [h.highest]
    cases samples with
    | nil => rfl
    | cons first samples =>
      simp only [List.cons_append, List.max?_cons', List.foldl_append, List.foldl_cons,
        List.foldl_nil]
  total := by
    have hcut (sum more most : Nat) : min (min sum most + more) most = min (sum + more) most := by
      omega
    show min (l.total + measured) Nanoseconds.longest = _
    rw [h.total, hcut, List.sum_append, List.sum_singleton]
  count := by
    show min (l.count + 1) mostSamples = _
    rw [h.count, List.length_append, List.length_singleton]
    omega

/-- As long as nothing has come to its end, the mean is that of the samples. -/
theorem Summarizes.average?_eq (h : l.Summarizes samples) (hsome : samples ≠ [])
    (hsum : samples.sum ≤ Nanoseconds.longest) (hcount : samples.length ≤ mostSamples) :
    l.average? = some (samples.sum / samples.length) := by
  have hpos := List.length_pos_iff.2 hsome
  rw [average?, h.count, h.total, Nat.min_eq_left hcount, Nat.min_eq_left hsum, if_neg (by omega)]

/-- **The mean and the last sample lie between the least and the greatest.** -/
theorem Summarizes.between (h : l.Summarizes samples) (hsome : samples ≠ [])
    (hsum : samples.sum ≤ Nanoseconds.longest) (hcount : samples.length ≤ mostSamples) :
    ∃ lowest mean highest last, l.lowest = some lowest ∧ l.average? = some mean ∧
      l.highest = some highest ∧ l.last = some last ∧
      lowest ≤ mean ∧ mean ≤ highest ∧ lowest ≤ last ∧ last ≤ highest := by
  have hpos := List.length_pos_iff.2 hsome
  obtain ⟨lowest, hlowest⟩ := Option.isSome_iff_exists.1 (List.isSome_min?_iff.2 hsome)
  obtain ⟨highest, hhighest⟩ := Option.isSome_iff_exists.1 (List.isSome_max?_iff.2 hsome)
  have hleast := (List.min?_eq_some_iff.1 hlowest).2
  have hgreatest := (List.max?_eq_some_iff.1 hhighest).2
  have hlast := List.getLast_mem hsome
  refine ⟨lowest, _, highest, samples.getLast hsome, h.lowest.trans hlowest,
    h.average?_eq hsome hsum hcount, h.highest.trans hhighest,
    h.last.trans (List.getLast?_eq_some_getLast hsome), ?_, ?_, hleast _ hlast, hgreatest _ hlast⟩
  · refine (Nat.le_div_iff_mul_le hpos).2 ?_
    rw [Nat.mul_comm]
    exact List.card_nsmul_le_sum samples lowest hleast
  · refine Nat.div_le_of_le_mul ?_
    exact List.sum_le_card_nsmul samples highest hgreatest

end Latency

end DatagramTransport

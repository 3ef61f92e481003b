import DatagramTransport.Proofs.Unbounded
import DatagramTransport.Receiver.Window

/-!
# Receive windows as sets of numbers

A window stands at an unbounded number, its base, and holds what is behind the base and what is
flagged ahead of it. Seen like this `insert` puts one number into a set, and all that settling
does is to change where the window stands: **`insert` never moves the base over a number that was
not received**. `slide` does, and by exactly as much as is needed to bring a number that is too
far ahead to the last place of the window.

Two views are given. `At` is relative to any unbounded base, across any number of turns. `Within`
is for a window all of whose numbers are less than half a turn from zero: then the base is its own
serial number and need not be named.
-/

set_option autoImplicit false

namespace DatagramTransport

namespace Receiver

namespace Window

variable {w : Window} {base k n : Nat}

/-- What a window holds that stands at `base`: everything behind, and what is flagged ahead. -/
def Holds (w : Window) (base k : Nat) : Prop :=
  k < base ∨ w.ahead.testBit (k - base) = true

structure Stands (w : Window) (base : Nat) : Prop where
  base_eq : w.base = Serial.ofNat base
  reach : ∀ i, w.ahead.testBit i = true → i < w.capacity

/-- The window stands at the unbounded number `base`, and this is the first that it lacks. -/
structure At (w : Window) (base : Nat) : Prop extends Stands w base where
  first : w.ahead.testBit 0 = false

theorem at_fresh (capacity : Nat) : (fresh capacity).At 0 where
  base_eq := rfl
  first := by simp [fresh]
  reach := by simp [fresh]

theorem At.not_holds_base (h : w.At base) : ¬ w.Holds base base := by
  rintro (hlt | hbit)
  · omega
  · rw [Nat.sub_self, h.first] at hbit
    cases hbit

theorem Stands.holds_lt (h : w.Stands base) (hk : w.Holds base k) : k < base + w.capacity := by
  rcases hk with hlt | hbit
  · omega
  · have := h.reach _ hbit
    omega

theorem Stands.check (h : w.Stands base) (behind : base ≤ k + 8388608)
    (ahead : k < base + 8388608) :
    w.check (Serial.ofNat k)
      = if k < base then .duplicate
        else if base + w.capacity ≤ k then .beyond
        else if w.ahead.testBit (k - base) then .duplicate
        else .fresh := by
  -- half a turn of the counter tells what is ahead from what is behind
  unfold Window.check
  rw [h.base_eq]
  rcases Nat.lt_or_ge k base with hlt | hge
  · rw [Serial.distanceFrom_ofNat_of_lt hlt (by omega)]
    have hbehind : Serial.half ≤ 16777216 - (base - k) := by
      simp only [Serial.half]
      omega
    simp only [hbehind, hlt, if_true]
  · rw [Serial.distanceFrom_ofNat_of_le hge (by omega)]
    have hahead : ¬ Serial.half ≤ k - base := by
      simp only [Serial.half]
      omega
    have hcap : w.capacity ≤ k - base ↔ base + w.capacity ≤ k := by omega
    simp only [hahead, show ¬ k < base by omega, hcap, if_false]

theorem Stands.check_eq_fresh_iff (h : w.Stands base) (behind : base ≤ k + 8388608)
    (ahead : k < base + 8388608) :
    w.check (Serial.ofNat k) = .fresh ↔ ¬ w.Holds base k ∧ k < base + w.capacity := by
  rw [h.check behind ahead]
  unfold Holds
  split
  · simp_all
  · split
    · simp only [reduceCtorEq, false_iff]
      omega
    · split <;> simp_all

theorem Stands.check_eq_duplicate_iff (h : w.Stands base) (behind : base ≤ k + 8388608)
    (ahead : k < base + 8388608) :
    w.check (Serial.ofNat k) = .duplicate ↔ w.Holds base k := by
  rw [h.check behind ahead]
  unfold Holds
  split
  · simp_all
  · rename_i hge
    split
    · simp only [reduceCtorEq, false_iff, not_or]
      refine ⟨hge, fun hbit => ?_⟩
      have := h.reach _ hbit
      omega
    · split <;> simp_all

/-! ## Putting a number in -/

/-- Moving on over flags that are all set changes where the window stands, not what it holds. -/
theorem holds_skip {places : Nat} (hset : ∀ i < places, w.ahead.testBit i = true) (j : Nat) :
    (w.skip places).Holds (base + places) j ↔ w.Holds base j := by
  unfold Holds skip
  simp only [Nat.testBit_shiftRight]
  rcases Nat.lt_or_ge j (base + places) with hlt | hge
  · have hj : j < base ∨ w.ahead.testBit (j - base) = true := by
      rcases Nat.lt_or_ge j base with hb | hb
      · exact Or.inl hb
      · exact Or.inr (hset _ (by omega))
    simp [hlt, hj]
  · rw [show places + (j - (base + places)) = j - base by omega]
    simp only [show ¬ j < base + places by omega, show ¬ j < base by omega, false_or]

theorem holds_mark (hge : base ≤ k) (j : Nat) :
    (w.mark (k - base)).Holds base j ↔ w.Holds base j ∨ j = k := by
  unfold Holds mark
  simp only [Nat.testBit_or, Nat.one_shiftLeft, Nat.testBit_two_pow, Bool.or_eq_true,
    decide_eq_true_eq]
  constructor
  · rintro (hlt | hold | hnew)
    · exact Or.inl (Or.inl hlt)
    · exact Or.inl (Or.inr hold)
    · rcases Nat.lt_or_ge j base with hlt | hge'
      · exact Or.inl (Or.inl hlt)
      · exact Or.inr (by omega)
  · rintro ((hlt | hold) | rfl)
    · exact Or.inl hlt
    · exact Or.inr (Or.inl hold)
    · exact Or.inr (Or.inr rfl)

theorem insert_of_fresh {s : Serial} (h : w.check s = .fresh) :
    w.insert s = (.fresh, (w.mark (s.distanceFrom w.base)).settle) := by
  unfold insert
  rw [h]

theorem insert_of_not_fresh {s : Serial} (h : w.check s ≠ .fresh) :
    w.insert s = (w.check s, w) := by
  unfold insert
  split
  · contradiction
  · rfl

@[simp] theorem capacity_skip (places : Nat) : (w.skip places).capacity = w.capacity := rfl

@[simp] theorem capacity_insert (s : Serial) : (w.insert s).2.capacity = w.capacity := by
  by_cases h : w.check s = .fresh
  · rw [insert_of_fresh h, settle_eq]
    rfl
  · rw [insert_of_not_fresh h]

/-- **A number that is put in is held from then on, and so is what was held; nothing else is.** The
window stands further on if the number closed the gap at the base. -/
theorem Stands.insert (h : w.Stands base) (behind : base ≤ k + 8388608)
    (ahead : k < base + 8388608) (hk : w.check (Serial.ofNat k) = .fresh) :
    ∃ base', base ≤ base' ∧ (w.insert (Serial.ofNat k)).2.At base' ∧
      ∀ j, (w.insert (Serial.ofNat k)).2.Holds base' j ↔ w.Holds base j ∨ j = k := by
  obtain ⟨hnot, hreach⟩ := (h.check_eq_fresh_iff behind ahead).1 hk
  have hge : base ≤ k := Nat.le_of_not_lt fun hlt => hnot (Or.inl hlt)
  have hoff : (Serial.ofNat k).distanceFrom w.base = k - base := by
    rw [h.base_eq, Serial.distanceFrom_ofNat_of_le hge (by omega)]
  rw [insert_of_fresh hk, hoff]
  simp only [settle_eq]
  obtain ⟨hset, hclear⟩ := testBit_lowRun (w.mark (k - base)).ahead
  refine ⟨base + lowRun (w.mark (k - base)).ahead, Nat.le_add_right _ _, ⟨⟨?_, ?_⟩, ?_⟩,
    fun j => ?_⟩
  · simp only [skip, mark, h.base_eq, Serial.plus_ofNat]
  · intro i hi
    simp only [skip, mark, Nat.testBit_shiftRight, Nat.testBit_or, Nat.one_shiftLeft,
      Nat.testBit_two_pow, Bool.or_eq_true, decide_eq_true_eq] at hi ⊢
    rcases hi with hold | hnew
    · have := h.reach _ hold
      omega
    · omega
  · simpa only [skip, Nat.testBit_shiftRight, Nat.add_zero] using hclear
  · rw [holds_skip hset, holds_mark hge]

/-! ## Sliding -/

theorem reach_of_lt (h : w.Stands base) (behind : base ≤ k + 8388608)
    (ahead : k < base + 8388608) (hk : k < base + w.capacity) :
    w.reach (Serial.ofNat k) = w := by
  unfold reach
  rw [h.base_eq]
  refine if_neg ?_
  rintro ⟨hhalf, hcap⟩
  simp only [Serial.half] at hhalf
  rcases Nat.lt_or_ge k base with hlt | hge
  · rw [Serial.distanceFrom_ofNat_of_lt hlt (by omega)] at hhalf
    omega
  · rw [Serial.distanceFrom_ofNat_of_le hge (by omega)] at hcap
    omega

theorem reach_of_ge (h : w.Stands base) (ahead : k < base + 8388608)
    (hk : base + w.capacity ≤ k) :
    w.reach (Serial.ofNat k) = w.skip (k - base - w.capacity + 1) := by
  unfold reach
  rw [h.base_eq, Serial.distanceFrom_ofNat_of_le (by omega) (by omega)]
  refine if_pos ⟨?_, by omega⟩
  simp only [Serial.half]
  omega

/-- Bringing a number to the last place of the window gives up what is more than a window behind
it. -/
theorem Stands.reach_holds (h : w.Stands base) (ahead : k < base + 8388608)
    (hk : base + w.capacity ≤ k) :
    (w.reach (Serial.ofNat k)).Stands (k - w.capacity + 1) ∧
      ∀ j, (w.reach (Serial.ofNat k)).Holds (k - w.capacity + 1) j
        ↔ w.Holds base j ∨ j + w.capacity ≤ k := by
  rw [reach_of_ge h ahead hk]
  have hto : base + (k - base - w.capacity + 1) = k - w.capacity + 1 := by omega
  refine ⟨⟨?_, fun i hi => ?_⟩, fun j => ?_⟩
  · simp only [skip, h.base_eq, Serial.plus_ofNat, hto]
  · simp only [skip, Nat.testBit_shiftRight] at hi ⊢
    have := h.reach _ hi
    omega
  · unfold Holds
    simp only [skip, Nat.testBit_shiftRight]
    rcases Nat.lt_or_ge j (k - w.capacity + 1) with hlt | hge
    · simp only [hlt, true_or, true_iff]
      exact Or.inr (by omega)
    · rw [show k - base - w.capacity + 1 + (j - (k - w.capacity + 1)) = j - base by omega]
      simp only [show ¬ j < k - w.capacity + 1 by omega, show ¬ j < base by omega,
        show ¬ j + w.capacity ≤ k by omega, false_or, or_false]

/-- **Sliding takes every number in that is not held yet, and gives up what is a whole window or
more behind it.** -/
theorem At.slide (h : w.At base) (hcap : 0 < w.capacity) (behind : base ≤ k + 8388608)
    (ahead : k < base + 8388608) :
    ∃ base', base ≤ base' ∧ (w.slide (Serial.ofNat k)).2.At base' ∧
      ((w.slide (Serial.ofNat k)).1 = true ↔ ¬ w.Holds base k) ∧
      ∀ j, (w.slide (Serial.ofNat k)).2.Holds base' j
        ↔ w.Holds base j ∨ j = k ∨ j + w.capacity ≤ k := by
  rcases Nat.lt_or_ge k (base + w.capacity) with hlt | hge
  · -- inside of the window: it stays where it is, unless the number closes the gap at its base
    unfold Window.slide
    rw [reach_of_lt h.toStands behind ahead hlt]
    by_cases hk : w.check (Serial.ofNat k) = .fresh
    · have hnot := ((h.check_eq_fresh_iff behind ahead).1 hk).1
      obtain ⟨base', hbase, hat, hholds⟩ := h.toStands.insert behind ahead hk
      refine ⟨base', hbase, hat, by simp [insert_of_fresh hk, hnot], fun j => ?_⟩
      rw [hholds]
      constructor
      · rintro (hj | hj)
        · exact Or.inl hj
        · exact Or.inr (Or.inl hj)
      · rintro (hj | hj | hj)
        · exact Or.inl hj
        · exact Or.inr hj
        · exact Or.inl (Or.inl (by omega))
    · have hhas : w.Holds base k := Classical.byContradiction fun hnot =>
        hk ((h.check_eq_fresh_iff behind ahead).2 ⟨hnot, hlt⟩)
      refine ⟨base, Nat.le_refl _, by rwa [insert_of_not_fresh hk], ?_, fun j => ?_⟩
      · simp [insert_of_not_fresh hk, hk, hhas]
      · rw [insert_of_not_fresh hk]
        constructor
        · exact Or.inl
        · rintro (hj | rfl | hj)
          · exact hj
          · exact hhas
          · exact Or.inl (by omega)
  · -- beyond it: the window is moved until the number is its last place, which is free
    obtain ⟨hstands, hreach⟩ := h.toStands.reach_holds ahead hge
    have hcapacity : (w.reach (Serial.ofNat k)).capacity = w.capacity := by
      rw [reach_of_ge h.toStands ahead hge, capacity_skip]
    have hnot : ¬ w.Holds base k := by
      intro hk
      have := h.holds_lt hk
      omega
    have hk : (w.reach (Serial.ofNat k)).check (Serial.ofNat k) = .fresh := by
      refine (hstands.check_eq_fresh_iff (by omega) (by omega)).2 ⟨?_, by omega⟩
      rw [hreach]
      rintro (hold | hgone)
      · exact hnot hold
      · omega
    obtain ⟨base', hbase, hat, hholds⟩ := hstands.insert (by omega) (by omega) hk
    refine ⟨base', by omega, hat, ?_, fun j => ?_⟩
    · simp [Window.slide, insert_of_fresh hk, hnot]
    · unfold Window.slide
      rw [hholds, hreach, or_assoc, or_comm (b := j = k)]

@[simp] theorem capacity_slide (s : Serial) : (w.slide s).2.capacity = w.capacity := by
  have hreach : (w.reach s).capacity = w.capacity := by
    unfold reach
    simp only
    split <;> rfl
  rw [← hreach]
  exact capacity_insert s

/-! ## Windows that never wrap -/

/-- Whether a number was received, for a window that has not come round. -/
def Has (w : Window) (k : Nat) : Prop := w.Holds w.base.val k

structure Within (w : Window) (n : Nat) : Prop where
  standing : w.At w.base.val
  below : ∀ k, w.Has k → k < n

theorem Within.mono {m : Nat} (h : w.Within n) (hnm : n ≤ m) : w.Within m :=
  ⟨h.standing, fun k hk => Nat.lt_of_lt_of_le (h.below k hk) hnm⟩

theorem Within.base_le (h : w.Within n) : w.base.val ≤ n :=
  Nat.le_of_not_lt fun hlt => Nat.lt_irrefl n (h.below n (Or.inl hlt))

theorem Within.has_lt (h : w.Within n) (hk : w.Has k) : k < w.base.val + w.capacity :=
  h.standing.holds_lt hk

theorem has_of_lt_base (hk : k < w.base.val) : w.Has k := Or.inl hk

theorem At.within (h : w.At base) (hn : n ≤ 8388608) (hbelow : ∀ k, w.Holds base k → k < n) :
    w.Within n ∧ w.base.val = base := by
  have hle : base ≤ n := Nat.le_of_not_lt fun hlt => Nat.lt_irrefl n (hbelow n (Or.inl hlt))
  have hval : w.base.val = base := by
    rw [h.base_eq, Serial.val_ofNat_of_lt (by omega)]
  refine ⟨⟨by rwa [hval], fun k hk => ?_⟩, hval⟩
  unfold Has at hk
  rw [hval] at hk
  exact hbelow k hk

theorem within_fresh (capacity : Nat) : (fresh capacity).Within n :=
  ⟨at_fresh capacity, fun k hk => by rcases hk with hlt | hbit <;> simp_all [fresh, Serial.zero]⟩

theorem not_has_fresh (capacity : Nat) : ¬ (fresh capacity).Has k := by
  rintro (hlt | hbit) <;> simp_all [fresh, Serial.zero]

theorem Within.check_eq_fresh_iff (h : w.Within n) (hn : n ≤ 8388608) (hk : k < n) :
    w.check (Serial.ofNat k) = .fresh ↔ ¬ w.Has k ∧ k < w.base.val + w.capacity := by
  have := h.base_le
  exact h.standing.check_eq_fresh_iff (by omega) (by omega)

theorem Within.check_eq_duplicate_iff (h : w.Within n) (hn : n ≤ 8388608) (hk : k < n) :
    w.check (Serial.ofNat k) = .duplicate ↔ w.Has k := by
  have := h.base_le
  exact h.standing.check_eq_duplicate_iff (by omega) (by omega)

theorem Within.insert (h : w.Within n) (hn : n ≤ 8388608) (hk : k < n)
    (hfresh : w.check (Serial.ofNat k) = .fresh) :
    (w.insert (Serial.ofNat k)).2.Within n ∧
      w.base.val ≤ (w.insert (Serial.ofNat k)).2.base.val ∧
      ∀ j, (w.insert (Serial.ofNat k)).2.Has j ↔ w.Has j ∨ j = k := by
  have := h.base_le
  obtain ⟨base', hbase, hat, hholds⟩ :=
    h.standing.toStands.insert (k := k) (by omega) (by omega) hfresh
  obtain ⟨hwithin, hval⟩ := hat.within hn fun j hj => by
    rcases (hholds j).1 hj with hold | rfl
    · exact h.below j hold
    · exact hk
  refine ⟨hwithin, by omega, fun j => ?_⟩
  unfold Has
  rw [hval]
  exact hholds j

theorem Within.slide (h : w.Within n) (hn : n ≤ 8388608) (hk : k < n) (hcap : 0 < w.capacity) :
    (w.slide (Serial.ofNat k)).2.Within n ∧
      ((w.slide (Serial.ofNat k)).1 = true ↔ ¬ w.Has k) ∧
      ∀ j, (w.slide (Serial.ofNat k)).2.Has j ↔ w.Has j ∨ j = k ∨ j + w.capacity ≤ k := by
  have := h.base_le
  obtain ⟨base', -, hat, hnew, hholds⟩ :=
    h.standing.slide (k := k) hcap (by omega) (by omega)
  obtain ⟨hwithin, hval⟩ := hat.within hn fun j hj => by
    rcases (hholds j).1 hj with hold | rfl | hgone
    · exact h.below j hold
    · exact hk
    · omega
  refine ⟨hwithin, hnew, fun j => ?_⟩
  unfold Has
  rw [hval]
  exact hholds j

end Window

end Receiver

end DatagramTransport

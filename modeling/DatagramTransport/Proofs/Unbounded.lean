import DatagramTransport.Serial

/-!
# Unbounded counters — what serial numbers stand for

Every argument about a run is an argument about counters that never wrap: the fifth message, the
thousandth datagram. What a packet carries is such a counter modulo `2^24`, and this file is the
bridge. **As long as two counters are less than a whole turn apart, the distance of their serial
numbers tells which is ahead and by how much**; a counter below `2^24` is its own serial number.
-/

set_option autoImplicit false

namespace DatagramTransport

namespace Serial

theorem val_ofNat_of_lt {n : Nat} (h : n < 16777216) : (ofNat n).val = n :=
  Nat.mod_eq_of_lt h

@[simp] theorem zero_eq : zero = ofNat 0 := rfl

theorem plus_ofNat (a n : Nat) : (ofNat a).plus n = ofNat (a + n) := by
  ext
  simp only [val_plus, val_ofNat]
  omega

theorem next_ofNat (a : Nat) : (ofNat a).next = ofNat (a + 1) := plus_ofNat a 1

theorem ofNat_add_turn (a : Nat) : ofNat (a + 16777216) = ofNat a :=
  ext (Nat.add_mod_right a 16777216)

/-- Counters that are less than a turn apart are told apart by their serial numbers. -/
theorem ofNat_inj {a b : Nat} (h : ofNat a = ofNat b) (hab : a < b + 16777216)
    (hba : b < a + 16777216) : a = b := by
  have hval : a % 16777216 = b % 16777216 := congrArg val h
  omega

theorem distanceFrom_ofNat_of_le {a b : Nat} (hab : a ≤ b) (hba : b < a + 16777216) :
    (ofNat b).distanceFrom (ofNat a) = b - a := by
  simp only [distanceFrom, val_ofNat]
  omega

theorem distanceFrom_ofNat_of_lt {a b : Nat} (hba : b < a) (hab : a ≤ b + 16777216) :
    (ofNat b).distanceFrom (ofNat a) = 16777216 - (a - b) := by
  simp only [distanceFrom, val_ofNat]
  omega

/-- Half a turn behind is behind, but half a turn ahead is not ahead. -/
theorem eq_or_isAfter_ofNat {a b : Nat} (hab : a < b + 8388608) (hba : b ≤ a + 8388608) :
    ofNat a = ofNat b ∨ (ofNat a).isAfter (ofNat b) = true ↔ b ≤ a := by
  simp only [isAfter, bne_iff_ne, Bool.and_eq_true, decide_eq_true_eq]
  rcases Nat.lt_or_ge a b with h | h
  · rw [distanceFrom_ofNat_of_lt h (by omega)]
    constructor
    · rintro (heq | ⟨-, hlt⟩)
      · exact Nat.le_of_eq (ofNat_inj heq (by omega) (by omega)).symm
      · omega
    · intro hle
      omega
  · rw [distanceFrom_ofNat_of_le h (by omega)]
    refine iff_of_true ?_ h
    rcases Nat.eq_or_lt_of_le h with rfl | hlt
    · exact Or.inl rfl
    · exact Or.inr (by omega)

end Serial

end DatagramTransport

import DatagramTransport.Serial

/-!
# The receive window — which numbers arrived already

A window remembers which serial numbers were received: everything behind its base was, and from the
base on there is a flag for each number. The flags are the bits of **one natural number**, `ahead`,
so moving the base on is a shift. The first flag is never set, because the base moves on over
everything that was received.

Whether a number is behind or ahead is told by its distance from the base, half a turn or more being
behind. Ahead of the base the window has a capacity. What lies further ahead is turned away by
`insert`, which is right for numbers that come again; `slide` moves the window up to it instead, and
then what falls out counts as received whether it was or not, which is right for numbers that do
not.
-/

set_option autoImplicit false

namespace DatagramTransport

/-- What a window says about a number. -/
inductive Admission where
  | fresh
  | duplicate
  | beyond
  deriving DecidableEq, Repr

namespace Receiver

/-! ## Runs of bits -/

/-- How many bits at the low end of a number are set. Adding one clears these and sets the one
behind them, so they are the bits that change but for that one. -/
def lowRun (bits : Nat) : Nat := (bits ^^^ (bits + 1)).log2

theorem lowRun_two_mul (n : Nat) : lowRun (2 * n) = 0 := by
  have h : (2 * n) ^^^ (2 * n + 1) = 1 := by
    refine Nat.eq_of_testBit_eq fun i => ?_
    cases i with
    | zero => simp
    | succ i =>
      have h₁ : 2 * n / 2 = n := by omega
      have h₂ : (2 * n + 1) / 2 = n := by omega
      rw [Nat.testBit_xor, Nat.testBit_succ, Nat.testBit_succ, Nat.testBit_succ, h₁, h₂]
      simp
  rw [lowRun, h]
  rfl

theorem lowRun_two_mul_add_one (n : Nat) : lowRun (2 * n + 1) = lowRun n + 1 := by
  have h : (2 * n + 1) ^^^ (2 * n + 1 + 1) = 2 * (n ^^^ (n + 1)) + 1 := by
    refine Nat.eq_of_testBit_eq fun i => ?_
    cases i with
    | zero =>
      simp
      omega
    | succ i =>
      have h₁ : (2 * n + 1) / 2 = n := by omega
      have h₂ : (2 * n + 1 + 1) / 2 = n + 1 := by omega
      have h₃ : (2 * (n ^^^ (n + 1)) + 1) / 2 = n ^^^ (n + 1) := by omega
      rw [Nat.testBit_xor, Nat.testBit_succ, Nat.testBit_succ, Nat.testBit_succ, h₁, h₂, h₃,
        Nat.testBit_xor]
  have hne : n ^^^ (n + 1) ≠ 0 := by
    intro hzero
    have hlow := congrArg (Nat.testBit · 0) hzero
    rcases Nat.mod_two_eq_zero_or_one n with hn | hn <;>
      simp [hn, Nat.add_mod] at hlow
  have hhalf : (2 * (n ^^^ (n + 1)) + 1) / 2 = n ^^^ (n + 1) := by omega
  rw [lowRun, h, Nat.log2_def, if_pos (by omega), hhalf, lowRun]

/-- All bits below the end of the run are set, and the one there is not. -/
theorem testBit_lowRun (n : Nat) :
    (∀ i < lowRun n, n.testBit i = true) ∧ n.testBit (lowRun n) = false := by
  induction n using Nat.strongRecOn with
  | ind n ih =>
    rcases Nat.mod_two_eq_zero_or_one n with hn | hn
    · obtain ⟨m, rfl⟩ : ∃ m, n = 2 * m := ⟨n / 2, by omega⟩
      rw [lowRun_two_mul]
      exact ⟨fun i hi => absurd hi (Nat.not_lt_zero i), by simp⟩
    · obtain ⟨m, rfl⟩ : ∃ m, n = 2 * m + 1 := ⟨n / 2, by omega⟩
      have hm : (2 * m + 1) / 2 = m := by omega
      obtain ⟨hset, hclear⟩ := ih m (by omega)
      rw [lowRun_two_mul_add_one]
      refine ⟨fun i hi => ?_, ?_⟩
      · cases i with
        | zero => simp
        | succ i => rw [Nat.testBit_succ, hm]; exact hset i (by omega)
      · rw [Nat.testBit_succ, hm]
        exact hclear

/-! ## Windows -/

/-- A bounded memory of received numbers. -/
structure Window where
  base : Serial
  /-- Bit `i` tells whether `base + i` was received. -/
  ahead : Nat
  capacity : Nat
  deriving DecidableEq, Repr

namespace Window

def fresh (capacity : Nat) : Window := ⟨Serial.zero, 0, capacity⟩

def check (w : Window) (s : Serial) : Admission :=
  let offset := s.distanceFrom w.base
  if Serial.half ≤ offset then .duplicate
  else if w.capacity ≤ offset then .beyond
  else if w.ahead.testBit offset then .duplicate
  else .fresh

def skip (places : Nat) (w : Window) : Window :=
  { w with base := w.base.plus places, ahead := w.ahead >>> places }

/-- Moves the base on over what was received. There is nothing to do while the first flag is not
set. -/
def settle (w : Window) : Window := if w.ahead &&& 1 = 0 then w else w.skip (lowRun w.ahead)

theorem settle_eq (w : Window) : w.settle = w.skip (lowRun w.ahead) := by
  unfold settle
  split
  · rename_i h
    rw [Nat.and_one_is_mod] at h
    obtain ⟨m, hm⟩ : ∃ m, w.ahead = 2 * m := ⟨w.ahead / 2, by omega⟩
    have hrun : lowRun w.ahead = 0 := hm ▸ lowRun_two_mul m
    simp [skip, hrun, Serial.plus]
  · rfl

def mark (offset : Nat) (w : Window) : Window := { w with ahead := w.ahead ||| 1 <<< offset }

/-- Receives a number, if it is neither a duplicate nor beyond the window. -/
def insert (s : Serial) (w : Window) : Admission × Window :=
  match w.check s with
  | .fresh => (.fresh, (w.mark (s.distanceFrom w.base)).settle)
  | turnedAway => (turnedAway, w)

/-- Moves the window on so far that a number is inside of it. -/
def reach (s : Serial) (w : Window) : Window :=
  let offset := s.distanceFrom w.base
  if offset < Serial.half ∧ w.capacity ≤ offset then w.skip (offset - w.capacity + 1) else w

/-- Receives a number, moving the window on if necessary. Tells whether it is new. -/
def slide (s : Serial) (w : Window) : Bool × Window :=
  let (admission, w) := (w.reach s).insert s
  (admission = .fresh, w)

end Window

end Receiver

end DatagramTransport

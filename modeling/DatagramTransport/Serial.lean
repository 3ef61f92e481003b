/-!
# Serial numbers — counters that wrap around at `2^24`

Datagrams, reliable messages and the messages of a channel are each numbered with a counter of
24 bits. Which of two values of a counter that wraps is the later one cannot be told from their
order: `s` **is after** `t` when counting up from `t` reaches `s` in less than half a turn.

The one order there is, `compare`, is that of the values. It says nothing of what came first and
serves only to keep things by their number.

Everything is said with `Nat` and `%`, so that `omega` can decide a goal once `Serial.ext_iff` and
the four `val` lemmas below have unfolded it. The facts that later modules need are about the pair
`distanceFrom`/`plus`: they undo each other.
-/

set_option autoImplicit false

namespace DatagramTransport

/-- A 24-bit counter value. -/
structure Serial where
  val : Nat
  isLt : val < 16777216
  deriving DecidableEq, Repr

namespace Serial

/-- The number of different serial numbers, `2^24`. It is written out wherever a proof has to
compute with it. -/
def modulus : Nat := 16777216

/-- Half a turn. A distance below it means ahead, a distance from it on means behind. -/
def half : Nat := 8388608

/-- The serial number of an unbounded counter value. -/
def ofNat (n : Nat) : Serial := ⟨n % 16777216, Nat.mod_lt _ (by decide)⟩

def zero : Serial := ofNat 0

def greatest : Serial := ofNat 16777215

instance : Inhabited Serial := ⟨zero⟩

def plus (s : Serial) (n : Nat) : Serial := ofNat (s.val + n)

def next (s : Serial) : Serial := s.plus 1

/-- How many steps lead from `base` up to `s`. The subtraction stands inside of the sum: there it is
stuck at `base`, and the modulus is never counted down. -/
def distanceFrom (s base : Serial) : Nat := (s.val + (16777216 - base.val)) % 16777216

/-- Counting up from `t` reaches `s` in less than half a turn, and in at least one step. -/
def isAfter (s t : Serial) : Bool := s.distanceFrom t != 0 && s.distanceFrom t < 8388608

def isBefore (s t : Serial) : Bool := t.isAfter s

instance : Ord Serial := ⟨fun s t => compare s.val t.val⟩

/-- What a counter hands out, and where it stands afterwards. -/
def issue (counter : Serial) : Serial × Serial := (counter, counter.next)

/-! ## Reading the operations in `Nat` -/

@[ext] theorem ext {s t : Serial} (h : s.val = t.val) : s = t := by
  cases s; cases t; simp_all

@[simp] theorem val_ofNat (n : Nat) : (ofNat n).val = n % 16777216 := rfl

@[simp] theorem val_plus (s : Serial) (n : Nat) : (s.plus n).val = (s.val + n) % 16777216 := rfl

@[simp] theorem val_next (s : Serial) : s.next.val = (s.val + 1) % 16777216 := rfl

@[simp] theorem ofNat_val (s : Serial) : ofNat s.val = s :=
  ext (Nat.mod_eq_of_lt s.isLt)

theorem distanceFrom_lt (s base : Serial) : s.distanceFrom base < 16777216 :=
  Nat.mod_lt _ (by decide)

/-! ## The order of the values is one -/

instance : Std.TransOrd Serial where
  eq_swap {s t} := Std.OrientedOrd.eq_swap (a := s.val) (b := t.val)
  isLE_trans {s t u} := Std.TransOrd.isLE_trans (a := s.val) (b := t.val) (c := u.val)

instance : Std.LawfulEqOrd Serial where
  compare_self {s} := Std.ReflOrd.compare_self (a := s.val)
  eq_of_compare {s t} h := ext (Std.LawfulEqOrd.eq_of_compare (a := s.val) (b := t.val) h)

/-! ## `plus` and `distanceFrom` undo each other -/

@[simp] theorem distanceFrom_self (s : Serial) : s.distanceFrom s = 0 := by
  have := s.isLt
  simp only [distanceFrom]
  omega

theorem plus_distanceFrom (s base : Serial) : base.plus (s.distanceFrom base) = s := by
  have := s.isLt
  have := base.isLt
  ext
  simp only [val_plus, distanceFrom]
  omega

theorem distanceFrom_plus (base : Serial) {n : Nat} (h : n < 16777216) :
    (base.plus n).distanceFrom base = n := by
  have := base.isLt
  simp only [distanceFrom, val_plus]
  omega

/-- Seen from `n` steps further on, everything is `n` steps less far away. -/
theorem distanceFrom_plus_right (s base : Serial) {n : Nat} (h : n ≤ 16777216) :
    s.distanceFrom (base.plus n) = (s.distanceFrom base + 16777216 - n) % 16777216 := by
  have := s.isLt
  have := base.isLt
  simp only [distanceFrom, val_plus]
  omega

theorem distanceFrom_eq_zero_iff {s base : Serial} : s.distanceFrom base = 0 ↔ s = base := by
  have := s.isLt
  have := base.isLt
  constructor
  · intro h
    ext
    simp only [distanceFrom] at h
    omega
  · rintro rfl
    exact distanceFrom_self s

end Serial

end DatagramTransport

/-!
# Octets — numbers as fields of a packet

A packet is a list of octets, and a number in it is a field of fixed width. Numbers are written
**most significant octet first**, with one exception: the 24-bit counters are written least
significant octet first.

Both directions are given by place value, with division and remainder, rather than by shifts. That
makes the law that ties them together a statement about `Nat`: reading back a field of `w` octets
gives the number modulo `values w`, the number of values that the field has, so a writer may be
handed a number that is too large and then keeps its low octets.
-/

set_option autoImplicit false

namespace DatagramTransport

/-- The content of a packet, or of a part of one. -/
abbrev Octets := List UInt8

namespace Octets

/-- Whether there are `n` octets or more. It looks at no more than `n` of them. -/
def atLeast : Nat → Octets → Bool
  | 0, _ => true
  | _ + 1, [] => false
  | n + 1, _ :: rest => atLeast n rest

@[simp] theorem atLeast_iff {n : Nat} {bs : Octets} : bs.atLeast n = true ↔ n ≤ bs.length := by
  induction n generalizing bs with
  | zero => simp [atLeast]
  | succ n ih => cases bs <;> simp [atLeast, ih]

/-- How many values a field of a width has. -/
def values : Nat → Nat
  | 0 => 1
  | width + 1 => values width * 256

/-! ## Most significant octet first -/

/-- The low `width` octets of a number, most significant first. -/
def bigEndian : Nat → Nat → Octets
  | 0, _ => []
  | width + 1, n => UInt8.ofNat (n / values width) :: bigEndian width n

/-- The number that octets stand for, most significant first. -/
def bigValue : Octets → Nat
  | [] => 0
  | b :: rest => b.toNat * values rest.length + bigValue rest

@[simp] theorem length_bigEndian (width n : Nat) : (bigEndian width n).length = width := by
  induction width with
  | zero => rfl
  | succ width ih => simp [bigEndian, ih]

theorem bigValue_bigEndian (width n : Nat) : (bigEndian width n).bigValue = n % values width := by
  induction width with
  | zero => simp [bigEndian, bigValue, values, Nat.mod_one]
  | succ width ih =>
    rw [bigEndian, bigValue, length_bigEndian, ih, UInt8.toNat_ofNat', Nat.mul_comm, Nat.add_comm]
    exact Nat.mod_mul.symm

/-! ## Least significant octet first -/

/-- The low `width` octets of a number, least significant first. -/
def littleEndian : Nat → Nat → Octets
  | 0, _ => []
  | width + 1, n => UInt8.ofNat n :: littleEndian width (n / 256)

/-- The number that octets stand for, least significant first. -/
def littleValue : Octets → Nat
  | [] => 0
  | b :: rest => b.toNat + 256 * littleValue rest

@[simp] theorem length_littleEndian (width n : Nat) : (littleEndian width n).length = width := by
  induction width generalizing n with
  | zero => rfl
  | succ width ih => simp [littleEndian, ih]

theorem littleValue_littleEndian (width n : Nat) :
    (littleEndian width n).littleValue = n % values width := by
  induction width generalizing n with
  | zero => simp [littleEndian, littleValue, values, Nat.mod_one]
  | succ width ih =>
    rw [littleEndian, littleValue, ih, UInt8.toNat_ofNat', values, Nat.mul_comm _ 256,
      Nat.mod_mul]

/-! ## Cutting into pieces -/

/-- Consecutive pieces of `size` octets, after those that are there already, which are given last
first. -/
def chunksOnto (size : Nat) (done : List Octets) (bs : Octets) : List Octets :=
  if bs = [] ∨ size = 0 then done.reverse
  else chunksOnto size (bs.take size :: done) (bs.drop size)
termination_by bs.length
decreasing_by
  rename_i h
  have : bs.length ≠ 0 := fun hn => h (.inl (List.eq_nil_of_length_eq_zero hn))
  simp only [List.length_drop]
  omega

/-- Consecutive pieces of `size` octets, the last of them possibly shorter. There are none of an
empty list, and none of size zero. -/
def chunks (size : Nat) (bs : Octets) : List Octets := chunksOnto size [] bs

/-- What is there already comes out in front and changes nothing. -/
theorem chunksOnto_append (size : Nat) (done more : List Octets) (bs : Octets) :
    chunksOnto size (done ++ more) bs = more.reverse ++ chunksOnto size done bs := by
  fun_induction chunksOnto size done bs with
  | case1 done bs h => rw [chunksOnto, if_pos h, List.reverse_append]
  | case2 done bs h ih => rw [chunksOnto, if_neg h, ← ih, List.cons_append]

theorem chunks_of_ne_nil {size : Nat} {bs : Octets} (hbs : bs ≠ []) (hsize : size ≠ 0) :
    chunks size bs = bs.take size :: chunks size (bs.drop size) := by
  rw [chunks, chunksOnto, if_neg (by simp [hbs, hsize])]
  exact chunksOnto_append size [] [bs.take size] (bs.drop size)

@[simp] theorem chunks_nil (size : Nat) : chunks size [] = [] := by
  rw [chunks, chunksOnto, if_pos (.inl rfl)]
  rfl

end Octets

end DatagramTransport

import DatagramTransport.Octets.Reader

/-!
# Fields — a reader and what it has read

`Octets.Reader` shows that a written field is read back. Two more things are said of fields.

Numbers have one spelling: **a reader of a number takes exactly the octets that the writer makes of
what it returns** (`natural_eq_ok`, and one for each width). From what was read, the packet can be
put together again.

Readers are put together by `bind`, and so is what they read: `Gets r bs a` says that `r` takes `bs`
for `a` **whatever comes behind**, and along a `bind` the octets are appended. A packet is then
read in the order in which its fields are listed.
-/

set_option autoImplicit false

namespace DatagramTransport

namespace Octets

/-! ## Octets are the digits of what they stand for -/

theorem values_pos (width : Nat) : 0 < values width := by
  induction width with
  | zero => decide
  | succ width ih => exact Nat.mul_pos ih (by decide)

theorem bigValue_lt (bs : Octets) : bs.bigValue < values bs.length := by
  induction bs with
  | nil => decide
  | cons b rest ih =>
    have hdigit := Nat.mul_le_mul_right (values rest.length) (Nat.le_of_lt_succ b.toNat_lt)
    rw [bigValue, List.length_cons, values]
    omega

/-- What does not fit into the width has no part in it. -/
theorem bigEndian_mul_add (width high n : Nat) :
    bigEndian width (high * values width + n) = bigEndian width n := by
  induction width generalizing high with
  | zero => rfl
  | succ width ih =>
    have hsplit : high * values (width + 1) + n = high * 256 * values width + n := by
      rw [values, Nat.mul_comm (values width), Nat.mul_assoc]
    rw [hsplit, bigEndian, bigEndian, ih (high * 256), Nat.mul_comm (high * 256),
      Nat.mul_add_div (values_pos width)]
    congr 1
    exact UInt8.toNat_inj.1 (by simp only [UInt8.toNat_ofNat']; omega)

theorem bigEndian_bigValue (bs : Octets) : bigEndian bs.length bs.bigValue = bs := by
  induction bs with
  | nil => rfl
  | cons b rest ih =>
    have hfirst :
        (b.toNat * values rest.length + bigValue rest) / values rest.length = b.toNat := by
      rw [Nat.mul_comm, Nat.mul_add_div (values_pos _), Nat.div_eq_of_lt (bigValue_lt rest),
        Nat.add_zero]
    rw [bigValue, List.length_cons, bigEndian, hfirst, bigEndian_mul_add, ih, UInt8.ofNat_toNat]

theorem littleValue_lt (bs : Octets) : bs.littleValue < values bs.length := by
  induction bs with
  | nil => decide
  | cons b rest ih =>
    have := b.toNat_lt
    rw [littleValue, List.length_cons, values]
    omega

theorem littleEndian_littleValue (bs : Octets) : littleEndian bs.length bs.littleValue = bs := by
  induction bs with
  | nil => rfl
  | cons b rest ih =>
    have hfirst : UInt8.ofNat (b.toNat + 256 * littleValue rest) = b :=
      UInt8.toNat_inj.1 (by have := b.toNat_lt; simp only [UInt8.toNat_ofNat']; omega)
    have hrest : (b.toNat + 256 * littleValue rest) / 256 = littleValue rest := by
      have := b.toNat_lt
      omega
    rw [littleValue, List.length_cons, littleEndian, hfirst, hrest, ih]

end Octets

namespace Reader

variable {α β : Type} {bs rest : Octets}

/-! ## What was read is what would be written -/

theorem natural_eq_ok {width n : Nat} :
    natural width bs = .ok (n, rest)
      ↔ bs = Octets.bigEndian width n ++ rest ∧ n < Octets.values width := by
  constructor
  · intro h
    obtain ⟨taken, mid, htaken, hvalue⟩ := bind_eq_ok.1 h
    obtain ⟨rfl, rfl⟩ := octets_eq_ok.1 htaken
    cases hvalue
    exact ⟨by rw [Octets.bigEndian_bigValue], taken.bigValue_lt⟩
  · rintro ⟨rfl, hn⟩
    exact natural_append rest hn

theorem u8_eq_ok {n : UInt8} : u8 bs = .ok (n, rest) ↔ bs = Octets.u8 n ++ rest := by
  constructor
  · intro h
    obtain ⟨value, mid, hvalue, hn⟩ := bind_eq_ok.1 h
    obtain ⟨rfl, hlt⟩ := natural_eq_ok.1 hvalue
    cases hn
    simp [Octets.u8, Octets.bigEndian, Octets.values]
  · rintro rfl
    exact u8_append n rest

theorem u16_eq_ok {n : UInt16} : u16 bs = .ok (n, rest) ↔ bs = Octets.u16 n ++ rest := by
  constructor
  · intro h
    obtain ⟨value, mid, hvalue, hn⟩ := bind_eq_ok.1 h
    obtain ⟨rfl, hlt⟩ := natural_eq_ok.1 hvalue
    cases hn
    rw [Octets.u16, UInt16.toNat_ofNat_of_lt' hlt]
  · rintro rfl
    exact u16_append n rest

theorem u32_eq_ok {n : UInt32} : u32 bs = .ok (n, rest) ↔ bs = Octets.u32 n ++ rest := by
  constructor
  · intro h
    obtain ⟨value, mid, hvalue, hn⟩ := bind_eq_ok.1 h
    obtain ⟨rfl, hlt⟩ := natural_eq_ok.1 hvalue
    cases hn
    rw [Octets.u32, UInt32.toNat_ofNat_of_lt' hlt]
  · rintro rfl
    exact u32_append n rest

theorem serial_eq_ok {s : Serial} : serial bs = .ok (s, rest) ↔ bs = Octets.serial s ++ rest := by
  constructor
  · intro h
    obtain ⟨taken, mid, htaken, hs⟩ := bind_eq_ok.1 h
    obtain ⟨rfl, hlength⟩ := octets_eq_ok.1 htaken
    cases hs
    have hlt := taken.littleValue_lt
    rw [hlength] at hlt
    have hval : (Serial.ofNat taken.littleValue).val = taken.littleValue := Nat.mod_eq_of_lt hlt
    have htaken := taken.littleEndian_littleValue
    rw [hlength] at htaken
    rw [Octets.serial, hval, htaken]
  · rintro rfl
    exact serial_append s rest

/-! ## What is read whatever comes behind -/

/-- The reader takes `bs` for `a`, whatever comes behind. -/
def Gets (r : Reader α) (bs : Octets) (a : α) : Prop := ∀ rest, r (bs ++ rest) = .ok (a, rest)

namespace Gets

variable {r : Reader α} {f : α → Reader β} {bs' : Octets} {a : α} {b : β}

theorem bind (h : r.Gets bs a) (h' : (f a).Gets bs' b) : (r >>= f).Gets (bs ++ bs') b := by
  intro rest
  rw [List.append_assoc, bind_of_ok (h _), h' rest]

/-- The last field of a row. -/
theorem map (h : r.Gets bs a) (g : α → β) : (r >>= fun a => pure (g a)).Gets bs (g a) := by
  intro rest
  rw [bind_of_ok (h _), pure_apply]

theorem eq_ok (h : r.Gets bs a) : r bs = .ok (a, []) := by
  simpa using h []

end Gets

end Reader

end DatagramTransport

import DatagramTransport.Fault
import DatagramTransport.Octets.Basic

/-!
# Readers — taking fields off the front of a packet

A `Reader` takes a value off the front of the octets that are left and leaves the rest, or refuses
with a `Fault`. Nothing is ever put back, which is `Reader.Consumes`: **a reader that succeeds has
taken at least so many octets**. It composes along `bind`, and it is what lets the readers that
repeat until the end of a packet end themselves.

A field that is cut short is reported with the size of the *whole* field and what was left in front
of it. A field made of several numbers is read number by number, so the numbers that were read
before the missing one do not appear in the report.
-/

set_option autoImplicit false

namespace DatagramTransport

/-- Takes a value off the front of octets and returns it with the rest. -/
def Reader (α : Type) := Octets → Except Fault (α × Octets)

namespace Reader

variable {α β : Type}

instance : Monad Reader where
  pure a := fun bs => .ok (a, bs)
  bind r f := fun bs =>
    match r bs with
    | .ok (a, rest) => f a rest
    | .error e => .error e

def fail (fault : Fault) : Reader α := fun _ => .error fault

/-- Refuses unless `n` octets are left, and takes none. -/
def ensure (n : Nat) : Reader Unit := fun bs =>
  if bs.atLeast n then .ok ((), bs) else .error (.underrun n bs.length)

def octets (n : Nat) : Reader Octets := fun bs =>
  if bs.atLeast n then .ok (bs.take n, bs.drop n) else .error (.underrun n bs.length)

/-- Everything that is left. -/
def rest : Reader Octets := fun bs => .ok (bs, [])

/-- A number of `width` octets, most significant first. -/
def natural (width : Nat) : Reader Nat := do return (← octets width).bigValue

def u8 : Reader UInt8 := do return UInt8.ofNat (← natural 1)
def u16 : Reader UInt16 := do return UInt16.ofNat (← natural 2)
def u32 : Reader UInt32 := do return UInt32.ofNat (← natural 4)
def u64 : Reader UInt64 := do return UInt64.ofNat (← natural 8)
def i8 : Reader Int8 := do return (← u8).toInt8
def i16 : Reader Int16 := do return (← u16).toInt16
def i32 : Reader Int32 := do return (← u32).toInt32
def i64 : Reader Int64 := do return (← u64).toInt64

/-- A 24-bit counter, least significant octet first. -/
def serial : Reader Serial := do return Serial.ofNat (← octets 3).littleValue

/-- A truth value: any octet but zero is true. -/
def bool : Reader Bool := do return (← u8) != 0

/-- A string: its length in octets, then its UTF-8. -/
def text : Reader String := do
  let length ← u16
  let raw ← octets length.toNat
  match String.fromUTF8? ⟨raw.toArray⟩ with
  | some s => pure s
  | none => fail (.malformed .notUtf8)

/-! ## What a bind does -/

@[simp] theorem pure_apply (a : α) (bs : Octets) : (pure a : Reader α) bs = .ok (a, bs) := rfl

theorem bind_apply (r : Reader α) (f : α → Reader β) (bs : Octets) :
    (r >>= f) bs = match r bs with
      | .ok (a, rest) => f a rest
      | .error e => .error e := rfl

theorem bind_of_ok {r : Reader α} {f : α → Reader β} {bs rest : Octets} {a : α}
    (h : r bs = .ok (a, rest)) : (r >>= f) bs = f a rest := by
  rw [bind_apply, h]

theorem bind_of_error {r : Reader α} {f : α → Reader β} {bs : Octets} {e : Fault}
    (h : r bs = .error e) : (r >>= f) bs = .error e := by
  rw [bind_apply, h]

/-- A bind succeeds exactly when both of its parts do, one after the other. -/
theorem bind_eq_ok {r : Reader α} {f : α → Reader β} {bs rest : Octets} {b : β} :
    (r >>= f) bs = .ok (b, rest) ↔
      ∃ a mid, r bs = .ok (a, mid) ∧ f a mid = .ok (b, rest) := by
  rw [bind_apply]
  cases r bs with
  | error e => simp
  | ok p => obtain ⟨a, mid⟩ := p; simp [and_assoc]

/-! ## Fields that are there -/

theorem octets_append {n : Nat} {bs : Octets} (rest : Octets) (h : bs.length = n) :
    octets n (bs ++ rest) = .ok (bs, rest) := by
  subst h
  simp [octets]

theorem natural_append {width n : Nat} (rest : Octets) (h : n < Octets.values width) :
    natural width (Octets.bigEndian width n ++ rest) = .ok (n, rest) := by
  rw [natural, bind_of_ok (octets_append rest (Octets.length_bigEndian width n)),
    Octets.bigValue_bigEndian, Nat.mod_eq_of_lt h]
  rfl

theorem octets_eq_ok {n : Nat} {bs rest taken : Octets} :
    octets n bs = .ok (taken, rest) ↔ bs = taken ++ rest ∧ taken.length = n := by
  constructor
  · intro h
    unfold octets at h
    split at h
    · rename_i hn
      simp only [Except.ok.injEq, Prod.mk.injEq] at h
      obtain ⟨rfl, rfl⟩ := h
      exact ⟨(List.take_append_drop n bs).symm, List.length_take_of_le (Octets.atLeast_iff.1 hn)⟩
    · simp at h
  · rintro ⟨rfl, h⟩
    exact octets_append rest h

/-! ## Readers do not put back -/

/-- Whenever `r` succeeds it has taken at least `n` octets. -/
def Consumes (r : Reader α) (n : Nat) : Prop :=
  ∀ ⦃bs : Octets⦄ ⦃a : α⦄ ⦃rest : Octets⦄, r bs = .ok (a, rest) → rest.length + n ≤ bs.length

theorem consumes_pure (a : α) : Consumes (pure a) 0 := by
  intro bs b rest h
  simp only [pure_apply, Except.ok.injEq, Prod.mk.injEq] at h
  simp [h.2]

theorem consumes_fail (fault : Fault) (n : Nat) : Consumes (fail fault : Reader α) n := by
  intro bs b rest h
  simp [fail] at h

theorem Consumes.bind {r : Reader α} {f : α → Reader β} {m n : Nat} (hr : Consumes r m)
    (hf : ∀ a, Consumes (f a) n) : Consumes (r >>= f) (m + n) := by
  intro bs b rest h
  obtain ⟨a, mid, h₁, h₂⟩ := bind_eq_ok.1 h
  have := hr h₁
  have := hf a h₂
  omega

theorem Consumes.mono {r : Reader α} {m n : Nat} (hr : Consumes r m) (h : n ≤ m) :
    Consumes r n := by
  intro bs a rest hok
  have := hr hok
  omega

theorem consumes_octets (n : Nat) : Consumes (octets n) n := by
  intro bs a rest h
  obtain ⟨rfl, rfl⟩ := octets_eq_ok.1 h
  simp [Nat.add_comm]

theorem consumes_natural (width : Nat) : Consumes (natural width) width :=
  (consumes_octets width).bind fun _ => consumes_pure _

theorem consumes_u8 : Consumes u8 1 := (consumes_natural 1).bind fun _ => consumes_pure _
theorem consumes_u16 : Consumes u16 2 := (consumes_natural 2).bind fun _ => consumes_pure _
theorem consumes_u32 : Consumes u32 4 := (consumes_natural 4).bind fun _ => consumes_pure _
theorem consumes_serial : Consumes serial 3 := (consumes_octets 3).bind fun _ => consumes_pure _

end Reader

/-! ## Writing the same fields -/

namespace Octets

def u8 (n : UInt8) : Octets := [n]
def u16 (n : UInt16) : Octets := bigEndian 2 n.toNat
def u32 (n : UInt32) : Octets := bigEndian 4 n.toNat
def u64 (n : UInt64) : Octets := bigEndian 8 n.toNat
def i64 (n : Int64) : Octets := u64 n.toUInt64

/-- A 24-bit counter, least significant octet first. -/
def serial (s : Serial) : Octets := littleEndian 3 s.val

def bool (b : Bool) : Octets := u8 (if b then 1 else 0)

/-- A string: its length in octets, then its UTF-8. Strings of 64 KiB and more have no encoding. -/
def text (s : String) : Except EncodeFault Octets :=
  let raw := s.toUTF8.data.toList
  if raw.length < 65536 then .ok (u16 (UInt16.ofNat raw.length) ++ raw)
  else .error (.lengthField raw.length)

@[simp] theorem length_u8 (n : UInt8) : (u8 n).length = 1 := rfl
@[simp] theorem length_u16 (n : UInt16) : (u16 n).length = 2 := length_bigEndian 2 _
@[simp] theorem length_u32 (n : UInt32) : (u32 n).length = 4 := length_bigEndian 4 _
@[simp] theorem length_u64 (n : UInt64) : (u64 n).length = 8 := length_bigEndian 8 _
@[simp] theorem length_i64 (n : Int64) : (i64 n).length = 8 := length_u64 _
@[simp] theorem length_serial (s : Serial) : (serial s).length = 3 := length_littleEndian 3 _
@[simp] theorem length_bool (b : Bool) : (bool b).length = 1 := rfl

end Octets

/-! ## A written field is read back -/

namespace Reader

@[simp] theorem u8_append (n : UInt8) (rest : Octets) :
    Reader.u8 (Octets.u8 n ++ rest) = .ok (n, rest) := by
  have h : Octets.u8 n = Octets.bigEndian 1 n.toNat := by
    simp [Octets.u8, Octets.bigEndian, Octets.values]
  rw [u8, h, bind_of_ok (natural_append rest n.toNat_lt)]
  simp

@[simp] theorem u16_append (n : UInt16) (rest : Octets) :
    Reader.u16 (Octets.u16 n ++ rest) = .ok (n, rest) := by
  rw [u16, Octets.u16, bind_of_ok (natural_append rest n.toNat_lt)]
  simp

@[simp] theorem u32_append (n : UInt32) (rest : Octets) :
    Reader.u32 (Octets.u32 n ++ rest) = .ok (n, rest) := by
  rw [u32, Octets.u32, bind_of_ok (natural_append rest n.toNat_lt)]
  simp

@[simp] theorem u64_append (n : UInt64) (rest : Octets) :
    Reader.u64 (Octets.u64 n ++ rest) = .ok (n, rest) := by
  rw [u64, Octets.u64, bind_of_ok (natural_append rest n.toNat_lt)]
  simp

@[simp] theorem i64_append (n : Int64) (rest : Octets) :
    Reader.i64 (Octets.i64 n ++ rest) = .ok (n, rest) := by
  rw [i64, Octets.i64, bind_of_ok (u64_append _ rest)]
  simp

@[simp] theorem bool_append (b : Bool) (rest : Octets) :
    Reader.bool (Octets.bool b ++ rest) = .ok (b, rest) := by
  rw [bool, Octets.bool, bind_of_ok (u8_append _ rest)]
  cases b <;> rfl

@[simp] theorem serial_append (s : Serial) (rest : Octets) :
    Reader.serial (Octets.serial s ++ rest) = .ok (s, rest) := by
  rw [serial, Octets.serial, bind_of_ok (octets_append rest (Octets.length_littleEndian 3 _)),
    Octets.littleValue_littleEndian, Nat.mod_eq_of_lt (show s.val < Octets.values 3 from s.isLt)]
  simp

end Reader

end DatagramTransport

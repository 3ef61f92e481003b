import DatagramTransport.Octets.Reader

/-!
# Addresses — where a peer is, and the address record

An address is a host and a port. The record that carries one in a packet begins with the version of
the host's family, and **only version 4 has a form**: four octets, each complemented, and the port.

A host of the longer family is written in the shorter one if it is one of those set aside for that,
`::ffff:a.b.c.d`, whatever its zone. So writing and reading back such an address changes it, and all
other long addresses are not written at all.
-/

set_option autoImplicit false

namespace DatagramTransport

/-- An IP address, as the number that its octets make up, most significant first. -/
inductive Host where
  | v4 (bits : UInt32)
  /-- The zone tells hosts apart whose number means something in one network only. Where it does not
  matter it is zero. -/
  | v6 (bits : BitVec 128) (zone : UInt32)
  deriving DecidableEq, Repr

/-- A host and a port on it. -/
structure Address where
  host : Host
  port : UInt16
  deriving DecidableEq, Repr

def Host.ofQuad (a b c d : UInt8) : Host :=
  .v4 (UInt32.ofNat (Octets.bigValue [a, b, c, d]))

def Host.toV4? : Host → Option UInt32
  | .v4 bits => some bits
  | .v6 bits _ =>
    if bits.toNat / 4294967296 = 0xffff then some (UInt32.ofNat bits.toNat) else none

namespace Address

/-- `0.0.0.0:0` stands for an address that nobody knows. -/
def unspecified : Address := ⟨.v4 0, 0⟩

/-- The version octet of the only family that has a record. -/
def recordVersion : UInt8 := 4

/-- The length of an address record: version, host and port. -/
def recordLength : Nat := 7

/-- Whether the host is given in the short form, which is the form that reading returns. -/
def IsV4 (a : Address) : Prop := ∃ bits, a.host = .v4 bits

def encode (a : Address) : Except EncodeFault Octets :=
  match a.host.toV4? with
  | some bits => .ok (Octets.u8 recordVersion ++ Octets.u32 (~~~bits) ++ Octets.u16 a.port)
  | none => .error (.addressVersion 6)

/-- Reads an address record. The six octets after the version are one field. -/
def reader : Reader Address := do
  let version ← Reader.u8
  if version = recordVersion then
    Reader.ensure (recordLength - 1)
    let bits ← Reader.u32
    let port ← Reader.u16
    return ⟨.v4 (~~~bits), port⟩
  else
    Reader.fail (.addressVersion version)

theorem consumes_reader : Reader.Consumes reader 1 := by
  refine Reader.consumes_u8.bind (n := 0) fun version => ?_
  split
  · intro bs a rest h
    obtain ⟨_, mid, h₁, h₂⟩ := Reader.bind_eq_ok.1 h
    have hmid : mid = bs := by
      unfold Reader.ensure at h₁
      split at h₁ <;> simp_all
    subst hmid
    exact ((Reader.consumes_u32.bind fun _ =>
      Reader.consumes_u16.bind fun _ => Reader.consumes_pure _).mono (Nat.zero_le _)) h₂
  · exact Reader.consumes_fail _ _

end Address

end DatagramTransport

import DatagramTransport.Reliability

/-!
# Messages — what a datagram is made of

A message is a payload with what its guarantee needs: an index if it is reliable, a place in a
channel's order if it is ordered or sequenced, and a place among the fragments of a larger payload
if it is one of them. On the wire:

* flags: the guarantee's number in the three high bits, then one bit for "fragment"
* the payload's length in *bits*, 16 bits wide
* the index, for reliable guarantees
* order index and channel, for ordered and sequenced guarantees
* number of fragments, number of the split message, number of the fragment, for fragments
* the payload

**The guarantee alone decides which parts are written.** A message that carries an index or a place
in an order that its guarantee has no use for loses it, and one that lacks what is needed gets
zeros; `WellFormed` says when neither happens. The length field is narrow, so that only payloads
below 8192 octets have an encoding (`Encodable`).
-/

set_option autoImplicit false

namespace DatagramTransport

/-- A place in the order of a channel. -/
structure OrderMark where
  index : Serial
  channel : UInt8
  deriving DecidableEq, Repr

/-- A place among the fragments of a payload that was split. -/
structure FragmentMark where
  count : UInt32
  id : UInt16
  index : UInt32
  deriving DecidableEq, Repr

/-- A payload, or a fragment of one, with what its guarantee needs. -/
structure Message where
  reliability : Reliability
  index : Option Serial
  order : Option OrderMark
  fragment : Option FragmentMark
  payload : Octets
  deriving DecidableEq, Repr

namespace Message

/-- Flags and length, which every message has. -/
def minHeaderLength : Nat := 3

def fragmentHeaderLength : Nat := 10

def headerLength (r : Reliability) (isFragment : Bool) : Nat :=
  minHeaderLength + (if r.isReliable then 3 else 0) + (if r.hasOrder then 4 else 0)
    + (if isFragment then fragmentHeaderLength else 0)

def encodedLength (m : Message) : Nat :=
  headerLength m.reliability m.fragment.isSome + m.payload.length

/-- The channel of a message; zero if it has none. -/
def channel (m : Message) : UInt8 :=
  match m.order with
  | some order => order.channel
  | none => 0

/-- The parts that the guarantee asks for are there, no others are, and a fragment is one of those
it announces. -/
structure WellFormed (m : Message) : Prop where
  index : m.index.isSome = m.reliability.isReliable
  order : m.order.isSome = m.reliability.hasOrder
  fragment : ∀ mark ∈ m.fragment, mark.index < mark.count

/-- The length field can hold the payload's length in bits. -/
def Encodable (m : Message) : Prop := m.payload.length < 8192

instance (m : Message) : Decidable m.Encodable := inferInstanceAs (Decidable (_ < _))

/-! ## Writing -/

def flags (m : Message) : UInt8 :=
  m.reliability.id * 32 + (if m.fragment.isSome then 16 else 0)

def orderFields (order : OrderMark) : Octets :=
  Octets.serial order.index ++ Octets.u8 order.channel

def fragmentFields (mark : FragmentMark) : Octets :=
  Octets.u32 mark.count ++ Octets.u16 mark.id ++ Octets.u32 mark.index

/-- The encoding, if the message is `Encodable`. Of a longer payload the length field holds the low
bits only. -/
def encode (m : Message) : Octets :=
  Octets.u8 m.flags
    ++ Octets.u16 (UInt16.ofNat (m.payload.length * 8))
    ++ (if m.reliability.isReliable then Octets.serial (m.index.getD Serial.zero) else [])
    ++ (if m.reliability.hasOrder then orderFields (m.order.getD ⟨Serial.zero, 0⟩) else [])
    ++ (match m.fragment with
        | some mark => fragmentFields mark
        | none => [])
    ++ m.payload

/-- The encoding, or nothing if the length field cannot hold the length. -/
def encode? (m : Message) : Option Octets :=
  if m.Encodable then some m.encode else none

/-! ## Reading -/

def optionalReader {α : Type} (present : Bool) (r : Reader α) : Reader (Option α) :=
  if present then do return some (← r) else pure none

/-- Reads the number of a guarantee, which is given already. -/
def reliabilityReader (id : UInt8) : Reader Reliability :=
  match Reliability.ofId id with
  | .ok r => pure r
  | .error fault => Reader.fail fault

/-- Reads a place in an order, and the channel of that order. -/
def orderReader : Reader OrderMark := do
  let index ← Reader.serial
  let channel ← Reader.u8
  return ⟨index, channel⟩

/-- Reads a place among fragments, and refuses one outside of them. -/
def fragmentReader : Reader FragmentMark := do
  let count ← Reader.u32
  let id ← Reader.u16
  let index ← Reader.u32
  if count = 0 ∨ count ≤ index then
    Reader.fail (.malformed (.fragmentHeader index count))
  else
    return ⟨count, id, index⟩

def payloadReader (declared : Nat) : Reader Octets := fun bs =>
  if bs.atLeast declared then .ok (bs.take declared, bs.drop declared)
  else .error (.malformed (.payloadLength declared bs.length))

/-- Reads a message. A length in bits is rounded up to octets. -/
def reader : Reader Message := do
  let flags ← Reader.u8
  let reliability ← reliabilityReader (flags / 32)
  let bits ← Reader.u16
  let index ← optionalReader reliability.isReliable Reader.serial
  let order ← optionalReader reliability.hasOrder orderReader
  let fragment ← optionalReader (flags / 16 % 2 == 1) fragmentReader
  let payload ← payloadReader ((bits.toNat + 7) / 8)
  return ⟨reliability, index, order, fragment, payload⟩

/-! ## A message is never empty -/

theorem consumes_optionalReader {α : Type} {present : Bool} {r : Reader α} {n : Nat}
    (h : Reader.Consumes r n) : Reader.Consumes (optionalReader present r) 0 := by
  unfold optionalReader
  split
  · exact (h.bind fun _ => Reader.consumes_pure _).mono (Nat.zero_le _)
  · exact Reader.consumes_pure _

theorem consumes_reliabilityReader (id : UInt8) : Reader.Consumes (reliabilityReader id) 0 := by
  unfold reliabilityReader
  split
  · exact Reader.consumes_pure _
  · exact Reader.consumes_fail _ _

theorem consumes_orderReader : Reader.Consumes orderReader 4 :=
  Reader.consumes_serial.bind fun _ => Reader.consumes_u8.bind fun _ => Reader.consumes_pure _

theorem consumes_fragmentReader : Reader.Consumes fragmentReader 10 := by
  refine Reader.consumes_u32.bind (n := 6) fun _ =>
    Reader.consumes_u16.bind (n := 4) fun _ => Reader.consumes_u32.bind (n := 0) fun _ => ?_
  split
  · exact Reader.consumes_fail _ _
  · exact Reader.consumes_pure _

theorem consumes_payloadReader (declared : Nat) : Reader.Consumes (payloadReader declared) 0 := by
  intro bs a rest h
  unfold payloadReader at h
  split at h
  · simp only [Except.ok.injEq, Prod.mk.injEq] at h
    simp [← h.2]
  · simp at h

/-- Reading a message takes its flags and its length at least. -/
theorem consumes_reader : Reader.Consumes reader 3 :=
  Reader.consumes_u8.bind fun _ =>
    (consumes_reliabilityReader _).bind fun _ =>
      Reader.consumes_u16.bind fun _ =>
        (consumes_optionalReader Reader.consumes_serial).bind fun _ =>
          (consumes_optionalReader consumes_orderReader).bind fun _ =>
            (consumes_optionalReader consumes_fragmentReader).bind fun _ =>
              (consumes_payloadReader _).bind fun _ => Reader.consumes_pure _

/-! ## Lengths -/

theorem length_encode (m : Message) : m.encode.length = m.encodedLength := by
  obtain ⟨r, index, order, fragment, payload⟩ := m
  simp only [encode, encodedLength, headerLength, minHeaderLength, fragmentHeaderLength,
    orderFields, fragmentFields, List.length_append, Octets.length_u8, Octets.length_u16]
  cases r.isReliable <;> cases r.hasOrder <;> cases fragment <;> simp

theorem three_le_encodedLength (m : Message) : 3 ≤ m.encodedLength := by
  simp only [encodedLength, headerLength, minHeaderLength]
  omega

end Message

end DatagramTransport

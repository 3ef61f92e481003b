import DatagramTransport.Serial

/-!
# Faults — why received octets were refused, and why a value could not be written

A fault names a cause and carries the numbers that belong to it; its wording is one function,
`Fault.message`. **No fault ends a connection**: the part of a packet that it concerns is dropped
and counted, nothing else.

`Malformation` is kept apart from `Fault` because it arises on both sides of decoding. A header can
be inconsistent with itself, and a message that decodes well can still name a fragment, a channel
or a size that the receiver does not accept.
-/

set_option autoImplicit false

namespace DatagramTransport

/-- What makes a message that could be read to its end unacceptable. -/
inductive Malformation where
  /-- The octets of a string are no UTF-8. -/
  | notUtf8
  /-- There is no delivery guarantee with this number. -/
  | unknownReliability (id : UInt8)
  /-- A fragment that numbers itself outside of its own message. -/
  | fragmentHeader (index count : UInt32)
  /-- A payload said to be longer than what is left of the datagram. -/
  | payloadLength (declared remaining : Nat)
  /-- A range of acknowledged numbers that is too long to be taken for real. -/
  | recordTooLong (first last : Serial)
  /-- An order channel that is not configured. -/
  | orderChannel (channel : UInt8)
  /-- A fragment outside of its message, met at reassembly. -/
  | fragmentIndex (index : UInt32) (id : UInt16)
  /-- A message of more fragments than are accepted. -/
  | fragmentCount (count : UInt32) (limit : Nat)
  /-- Two fragments of one message that disagree on how many there are. -/
  | fragmentCountChanged (id : UInt16) (announced previously : UInt32)
  /-- No place left for reassembling another message. -/
  | noRoom (id : UInt16)
  deriving DecidableEq, Repr

/-- Why octets could not be decoded. -/
inductive Fault where
  /-- The data ends before the field does. -/
  | underrun (needed remaining : Nat)
  | malformed (cause : Malformation)
  /-- A packet from outside a connection that lacks the protocol's marker. -/
  | missingMagic
  | addressVersion (version : UInt8)
  | unknownId (id : UInt8)
  deriving DecidableEq, Repr

/-- Why a value has no encoding. -/
inductive EncodeFault where
  /-- A length or count that its 16-bit field cannot hold. -/
  | lengthField (length : Nat)
  /-- An address of a family that the address record has no form for. -/
  | addressVersion (version : UInt8)
  deriving DecidableEq, Repr

def hexOctet (b : UInt8) : String :=
  String.ofList [Nat.digitChar (b.toNat / 16), Nat.digitChar (b.toNat % 16)]

def Malformation.message : Malformation → String
  | .notUtf8 => "string is not valid UTF-8"
  | .unknownReliability id => "unknown reliability id " ++ toString id.toNat
  | .fragmentHeader index count =>
    "inconsistent split header: index " ++ toString index.toNat ++ " of " ++ toString count.toNat
  | .payloadLength declared remaining =>
    "declared payload length " ++ toString declared ++ " exceeds the remaining "
      ++ toString remaining ++ " bytes"
  | .recordTooLong first last =>
    "ack record " ++ toString first.val ++ ".." ++ toString last.val ++ " is too long"
  | .orderChannel channel => "order channel " ++ toString channel.toNat ++ " is out of range"
  | .fragmentIndex index id =>
    "fragment index " ++ toString index.toNat ++ " of split #" ++ toString id.toNat
      ++ " is out of range"
  | .fragmentCount count limit =>
    "split message with " ++ toString count.toNat ++ " fragments exceeds the limit of "
      ++ toString limit
  | .fragmentCountChanged id announced previously =>
    "split #" ++ toString id.toNat ++ " announced " ++ toString announced.toNat
      ++ " fragments, previously " ++ toString previously.toNat
  | .noRoom id =>
    "too many concurrent split messages, dropping fragment of split #" ++ toString id.toNat

/-- The wording of an unsupported address family, the same for reading and for writing. -/
def addressVersionMessage (version : UInt8) : String :=
  "unsupported address version " ++ toString version.toNat

def Fault.message : Fault → String
  | .underrun needed remaining =>
    "buffer underrun: " ++ toString needed ++ " bytes needed, " ++ toString remaining
      ++ " remaining"
  | .malformed cause => "malformed message: " ++ cause.message
  | .missingMagic => "offline message without valid magic"
  | .addressVersion version => addressVersionMessage version
  | .unknownId id => "unknown message id 0x" ++ hexOctet id

def EncodeFault.message : EncodeFault → String
  | .lengthField length => "length " ++ toString length ++ " does not fit into 16 bits"
  | .addressVersion version => addressVersionMessage version

end DatagramTransport

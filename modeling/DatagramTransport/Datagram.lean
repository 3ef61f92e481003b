import DatagramTransport.Message
import DatagramTransport.Packing

/-!
# Datagrams — messages that travel together

An identifier, a sequence number, and messages up to the end of the packet. A sequence number is
used for one datagram only: a message that is sent again travels in a datagram with a new one.

Sixteen identifiers mean "datagram", one of them is written. Fewer octets than the smallest header
has are no message, so **up to two octets at the end of a packet are left unread**.
-/

set_option autoImplicit false

namespace DatagramTransport

/-- Numbered messages that travel in one packet. -/
structure Datagram where
  sequence : Serial
  messages : List Message
  deriving DecidableEq, Repr

namespace Datagram

/-- The identifier that is written. -/
def id : UInt8 := 0x84

def minId : UInt8 := 0x80

def maxId : UInt8 := 0x8f

def isId (n : UInt8) : Bool := minId ≤ n && n ≤ maxId

/-- Identifier and sequence number. -/
def headerLength : Nat := 4

/-- What the headers below this protocol take of the maximum transmission unit. -/
def headersBelow : Nat := 28

def encodedLength (d : Datagram) : Nat :=
  headerLength + Packing.load Message.encodedLength d.messages

def Encodable (d : Datagram) : Prop := ∀ m ∈ d.messages, m.Encodable

instance (d : Datagram) : Decidable d.Encodable := inferInstanceAs (Decidable (∀ m ∈ _, _))

def encode (d : Datagram) : Octets :=
  Octets.u8 id ++ Octets.serial d.sequence ++ d.messages.flatMap Message.encode

/-- The encoding, or nothing if one of the messages has none. -/
def encode? (d : Datagram) : Option Octets :=
  if d.Encodable then some d.encode else none

/-- Reads messages as long as there may be one, after those that are read already, which are given
last first. -/
def messagesReader (read : List Message) (bs : Octets) : Except Fault (List Message × Octets) :=
  if bs.atLeast Message.minHeaderLength then
    match _read : Message.reader bs with
    | .ok (m, rest) => messagesReader (m :: read) rest
    | .error fault => .error fault
  else .ok (read.reverse, bs)
termination_by bs.length
decreasing_by
  have := Message.consumes_reader _read
  omega

def reader : Reader Datagram := do
  let n ← Reader.u8
  if isId n then
    let sequence ← Reader.serial
    let messages ← messagesReader []
    return ⟨sequence, messages⟩
  else
    Reader.fail (.unknownId n)

theorem length_encode (d : Datagram) : d.encode.length = d.encodedLength := by
  have h := Packing.length_flatMap Message.length_encode d.messages
  simp only [encode, encodedLength, headerLength, List.length_append, Octets.length_u8,
    Octets.length_serial, h]

end Datagram

end DatagramTransport

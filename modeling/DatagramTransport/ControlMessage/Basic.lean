import DatagramTransport.Address.Basic
import DatagramTransport.ControlMessage.Id
import DatagramTransport.Datagram

/-!
# Control messages — how peers find, join and leave each other

The protocol's own messages, told apart by their first octet. Those for use without a connection
carry a **magic** number of sixteen octets, by which they are told from anything else that may come
in from the network.

Three messages have a tail that is not read field by field. The first request is padded to the size
of packet that the peer wants to try, and its length is what says so. The two messages that end the
login carry internal addresses of their sender, which nobody looks at; implementations write
different numbers of them, so they are skipped until only the two timestamps at the end are left.

Octets behind the last field are ignored, whatever the message.
-/

set_option autoImplicit false

namespace DatagramTransport

/-- The octets that mark a message for use without a connection. -/
def magic : Octets :=
  [0x00, 0xff, 0xff, 0x00, 0xfe, 0xfe, 0xfe, 0xfe, 0xfd, 0xfd, 0xfd, 0xfd, 0x12, 0x34, 0x56, 0x78]

def protocolVersion : UInt8 := 9

/-- How many internal addresses the messages at the end of the login are written with. -/
def systemAddressCount : Nat := 10

/-- The length of the two timestamps at the end of the login messages. -/
def loginTimestampsLength : Nat := 16

/-- A message of the protocol's own. Timestamps are milliseconds since some moment of their
sender's choosing. -/
inductive ControlMessage where
  | connectedPing (timestamp : Int64)
  | unconnectedPing (timestamp : Int64) (clientGuid : UInt64) (openConnectionsOnly : Bool)
  | connectedPong (pingTimestamp pongTimestamp : Int64)
  | detectLostConnections
  | openConnectionRequest1 (protocolVersion : UInt8) (mtu : UInt16)
  | openConnectionReply1 (serverGuid : UInt64) (useSecurity : Bool) (mtu : UInt16)
  | openConnectionRequest2 (serverAddress : Address) (mtu : UInt16) (clientGuid : UInt64)
  | openConnectionReply2 (serverGuid : UInt64) (clientAddress : Address) (mtu : UInt16)
      (useEncryption : Bool)
  | connectionRequest (clientGuid : UInt64) (timestamp : Int64) (useSecurity : Bool)
  | connectionRequestAccepted (clientAddress : Address) (systemIndex : UInt16)
      (requestTimestamp acceptedTimestamp : Int64)
  | connectionAttemptFailed
  | alreadyConnected (serverGuid : UInt64)
  | newIncomingConnection (serverAddress : Address) (serverTimestamp clientTimestamp : Int64)
  | noFreeIncomingConnections (serverGuid : UInt64)
  | disconnectionNotification
  | connectionLost
  | incompatibleProtocolVersion (protocolVersion : UInt8) (serverGuid : UInt64)
  | unconnectedPong (timestamp : Int64) (serverGuid : UInt64) (identifier : String)
  deriving DecidableEq, Repr

namespace ControlMessage

def id : ControlMessage → UInt8
  | connectedPing .. => ControlId.connectedPing
  | unconnectedPing _ _ false => ControlId.unconnectedPing
  | unconnectedPing _ _ true => ControlId.unconnectedPingIfOpen
  | connectedPong .. => ControlId.connectedPong
  | detectLostConnections => ControlId.detectLostConnections
  | openConnectionRequest1 .. => ControlId.openConnectionRequest1
  | openConnectionReply1 .. => ControlId.openConnectionReply1
  | openConnectionRequest2 .. => ControlId.openConnectionRequest2
  | openConnectionReply2 .. => ControlId.openConnectionReply2
  | connectionRequest .. => ControlId.connectionRequest
  | connectionRequestAccepted .. => ControlId.connectionRequestAccepted
  | connectionAttemptFailed => ControlId.connectionAttemptFailed
  | alreadyConnected .. => ControlId.alreadyConnected
  | newIncomingConnection .. => ControlId.newIncomingConnection
  | noFreeIncomingConnections .. => ControlId.noFreeIncomingConnections
  | disconnectionNotification => ControlId.disconnectionNotification
  | connectionLost => ControlId.connectionLost
  | incompatibleProtocolVersion .. => ControlId.incompatibleProtocolVersion
  | unconnectedPong .. => ControlId.unconnectedPong

/-! ## Writing -/

/-- What the first request takes of its packet apart from the padding: the headers below, its
identifier, the magic number and the version. -/
def requestOverhead : Nat := Datagram.headersBelow + 2 + magic.length

def systemAddresses : Except EncodeFault Octets := do
  let one ← Address.unspecified.encode
  return (List.replicate systemAddressCount one).flatten

def fields : ControlMessage → Except EncodeFault Octets
  | connectedPing timestamp => .ok (Octets.i64 timestamp)
  | unconnectedPing timestamp clientGuid _ =>
    .ok (Octets.i64 timestamp ++ magic ++ Octets.u64 clientGuid)
  | connectedPong pingTimestamp pongTimestamp =>
    .ok (Octets.i64 pingTimestamp ++ Octets.i64 pongTimestamp)
  | openConnectionRequest1 version mtu =>
    .ok (magic ++ Octets.u8 version ++ List.replicate (mtu.toNat - requestOverhead) 0)
  | openConnectionReply1 serverGuid useSecurity mtu =>
    .ok (magic ++ Octets.u64 serverGuid ++ Octets.bool useSecurity ++ Octets.u16 mtu)
  | openConnectionRequest2 serverAddress mtu clientGuid => do
    let server ← serverAddress.encode
    return magic ++ server ++ Octets.u16 mtu ++ Octets.u64 clientGuid
  | openConnectionReply2 serverGuid clientAddress mtu useEncryption => do
    let client ← clientAddress.encode
    return magic ++ Octets.u64 serverGuid ++ client ++ Octets.u16 mtu ++ Octets.bool useEncryption
  | connectionRequest clientGuid timestamp useSecurity =>
    .ok (Octets.u64 clientGuid ++ Octets.i64 timestamp ++ Octets.bool useSecurity)
  | connectionRequestAccepted clientAddress systemIndex requestTimestamp acceptedTimestamp => do
    let client ← clientAddress.encode
    let system ← systemAddresses
    return client ++ Octets.u16 systemIndex ++ system ++ Octets.i64 requestTimestamp
      ++ Octets.i64 acceptedTimestamp
  | newIncomingConnection serverAddress serverTimestamp clientTimestamp => do
    let server ← serverAddress.encode
    let system ← systemAddresses
    return server ++ system ++ Octets.i64 serverTimestamp ++ Octets.i64 clientTimestamp
  | alreadyConnected serverGuid => .ok (magic ++ Octets.u64 serverGuid)
  | noFreeIncomingConnections serverGuid => .ok (magic ++ Octets.u64 serverGuid)
  | incompatibleProtocolVersion version serverGuid =>
    .ok (Octets.u8 version ++ magic ++ Octets.u64 serverGuid)
  | unconnectedPong timestamp serverGuid identifier => do
    let text ← Octets.text identifier
    return Octets.i64 timestamp ++ Octets.u64 serverGuid ++ magic ++ text
  | detectLostConnections => .ok []
  | connectionAttemptFailed => .ok []
  | disconnectionNotification => .ok []
  | connectionLost => .ok []

/-- The encoding. There is none if the message holds an address of the long family that has no
short form, or a string of 64 KiB and more. -/
def encode (m : ControlMessage) : Except EncodeFault Octets := do
  let fields ← m.fields
  return Octets.u8 m.id ++ fields

/-! ## Reading -/

/-- Reads the magic number. Too few octets are an underrun, wrong ones are not. -/
def magicReader : Reader Unit := do
  let raw ← Reader.octets magic.length
  if raw = magic then return () else Reader.fail .missingMagic

/-- Reads over addresses until only two timestamps are left, or less. -/
def skipAddresses (bs : Octets) : Except Fault (Unit × Octets) :=
  if bs.atLeast (loginTimestampsLength + 1) then
    match _read : Address.reader bs with
    | .ok (_, rest) => skipAddresses rest
    | .error fault => .error fault
  else .ok ((), bs)
termination_by bs.length
decreasing_by
  have := Address.consumes_reader _read
  omega

/-- Reads the rest of a ping from without a connection. -/
def unconnectedPingReader (openConnectionsOnly : Bool) : Reader ControlMessage := do
  let timestamp ← Reader.i64
  magicReader
  let clientGuid ← Reader.u64
  return unconnectedPing timestamp clientGuid openConnectionsOnly

/-- Reads the rest of the first request. The length of its packet is the size that the peer tries,
as far as sixteen bits can tell it. -/
def openConnectionRequest1Reader : Reader ControlMessage := do
  magicReader
  let version ← Reader.u8
  let padding ← Reader.rest
  return openConnectionRequest1 version
    (UInt16.ofNat (min (requestOverhead + padding.length) 65535))

def fieldsReader (n : UInt8) : Reader ControlMessage :=
  if n = ControlId.connectedPing then do
    return connectedPing (← Reader.i64)
  else if n = ControlId.unconnectedPing then
    unconnectedPingReader false
  else if n = ControlId.unconnectedPingIfOpen then
    unconnectedPingReader true
  else if n = ControlId.connectedPong then do
    let pingTimestamp ← Reader.i64
    let pongTimestamp ← Reader.i64
    return connectedPong pingTimestamp pongTimestamp
  else if n = ControlId.detectLostConnections then
    pure detectLostConnections
  else if n = ControlId.openConnectionRequest1 then
    openConnectionRequest1Reader
  else if n = ControlId.openConnectionReply1 then do
    magicReader
    let serverGuid ← Reader.u64
    let useSecurity ← Reader.bool
    let mtu ← Reader.u16
    return openConnectionReply1 serverGuid useSecurity mtu
  else if n = ControlId.openConnectionRequest2 then do
    magicReader
    let serverAddress ← Address.reader
    let mtu ← Reader.u16
    let clientGuid ← Reader.u64
    return openConnectionRequest2 serverAddress mtu clientGuid
  else if n = ControlId.openConnectionReply2 then do
    magicReader
    let serverGuid ← Reader.u64
    let clientAddress ← Address.reader
    let mtu ← Reader.u16
    let useEncryption ← Reader.bool
    return openConnectionReply2 serverGuid clientAddress mtu useEncryption
  else if n = ControlId.connectionRequest then do
    let clientGuid ← Reader.u64
    let timestamp ← Reader.i64
    let useSecurity ← Reader.bool
    return connectionRequest clientGuid timestamp useSecurity
  else if n = ControlId.connectionRequestAccepted then do
    let clientAddress ← Address.reader
    let systemIndex ← Reader.u16
    skipAddresses
    let requestTimestamp ← Reader.i64
    let acceptedTimestamp ← Reader.i64
    return connectionRequestAccepted clientAddress systemIndex requestTimestamp acceptedTimestamp
  else if n = ControlId.connectionAttemptFailed then
    pure connectionAttemptFailed
  else if n = ControlId.alreadyConnected then do
    magicReader
    return alreadyConnected (← Reader.u64)
  else if n = ControlId.newIncomingConnection then do
    let serverAddress ← Address.reader
    skipAddresses
    let serverTimestamp ← Reader.i64
    let clientTimestamp ← Reader.i64
    return newIncomingConnection serverAddress serverTimestamp clientTimestamp
  else if n = ControlId.noFreeIncomingConnections then do
    magicReader
    return noFreeIncomingConnections (← Reader.u64)
  else if n = ControlId.disconnectionNotification then
    pure disconnectionNotification
  else if n = ControlId.connectionLost then
    pure connectionLost
  else if n = ControlId.incompatibleProtocolVersion then do
    let version ← Reader.u8
    magicReader
    let serverGuid ← Reader.u64
    return incompatibleProtocolVersion version serverGuid
  else if n = ControlId.unconnectedPong then do
    let timestamp ← Reader.i64
    let serverGuid ← Reader.u64
    magicReader
    let identifier ← Reader.text
    return unconnectedPong timestamp serverGuid identifier
  else
    Reader.fail (.unknownId n)

def reader : Reader ControlMessage := do
  let n ← Reader.u8
  fieldsReader n

end ControlMessage

end DatagramTransport

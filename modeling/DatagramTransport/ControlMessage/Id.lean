/-!
# Identifiers — the first octet of a packet or of a payload

One octet tells what follows. Outside of datagrams it tells datagrams, acknowledgements and
**offline** messages apart, the last being those that are exchanged without a connection. Inside
of a datagram it tells the **connected** control messages, which a session keeps to itself, from
the application's messages.

The two sets overlap nowhere. What a number that is in neither of them means is up to the
application; it should use numbers from `firstForApplication` on.
-/

set_option autoImplicit false

namespace DatagramTransport

namespace ControlId

def connectedPing : UInt8 := 0x00
def unconnectedPing : UInt8 := 0x01
/-- A ping that asks for an answer only if there is room for a connection. -/
def unconnectedPingIfOpen : UInt8 := 0x02
def connectedPong : UInt8 := 0x03
def detectLostConnections : UInt8 := 0x04
def openConnectionRequest1 : UInt8 := 0x05
def openConnectionReply1 : UInt8 := 0x06
def openConnectionRequest2 : UInt8 := 0x07
def openConnectionReply2 : UInt8 := 0x08
def connectionRequest : UInt8 := 0x09
def connectionRequestAccepted : UInt8 := 0x10
def connectionAttemptFailed : UInt8 := 0x11
def alreadyConnected : UInt8 := 0x12
def newIncomingConnection : UInt8 := 0x13
def noFreeIncomingConnections : UInt8 := 0x14
def disconnectionNotification : UInt8 := 0x15
def connectionLost : UInt8 := 0x16
def incompatibleProtocolVersion : UInt8 := 0x19
def unconnectedPong : UInt8 := 0x1c

/-- The first number that is free for the application's own messages. -/
def firstForApplication : UInt8 := 0x86

/-- The numbers of the messages that are exchanged without a connection. -/
def offline : List UInt8 :=
  [unconnectedPing, unconnectedPingIfOpen, unconnectedPong, openConnectionRequest1,
    openConnectionReply1, openConnectionRequest2, openConnectionReply2, alreadyConnected,
    noFreeIncomingConnections, incompatibleProtocolVersion]

/-- The numbers of the messages that a session keeps to itself. -/
def connected : List UInt8 :=
  [connectedPing, connectedPong, detectLostConnections, connectionRequest,
    connectionRequestAccepted, connectionAttemptFailed, newIncomingConnection,
    disconnectionNotification, connectionLost]

/-- Whether a packet that begins with this octet stands outside of a connection. -/
def isOffline (id : UInt8) : Bool := offline.contains id

/-- Whether a payload that begins with this octet is the session's own business. -/
def isConnected (id : UInt8) : Bool := connected.contains id

end ControlId

end DatagramTransport

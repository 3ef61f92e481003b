import DatagramTransport.Link

/-!
# What a session tells the application

An application learns of a session that the login is complete, then of messages and receipts in any
order, then of the end. The end has a reason with it, whose wording is one function.
-/

set_option autoImplicit false

namespace DatagramTransport

/-- Who began the connection. -/
inductive Role where
  /-- This side did, and sends the request for the login. -/
  | client
  /-- The peer did, and its request is waited for. -/
  | server
  deriving DecidableEq, Repr

/-- How far a session has come. It only ever moves down this list. -/
inductive Phase where
  /-- The login is going on. Nothing is sent for the application, and what arrives is held back. -/
  | handshaking
  | connected
  /-- The end has been decided on, and the last packets wait to be sent. -/
  | disconnecting
  | disconnected
  deriving DecidableEq, Repr

/-- Why a session ended. -/
inductive CloseReason where
  /-- Nothing was received for too long. -/
  | timedOut
  | disconnectedLocally
  | disconnectedByPeer
  /-- The peer has refused the login. -/
  | attemptFailed
  /-- The peer wants a secure connection, which there is none of. -/
  | securityRequested
  deriving DecidableEq, Repr

def CloseReason.message : CloseReason → String
  | timedOut => "session timed out"
  | disconnectedLocally => "disconnected locally"
  | disconnectedByPeer => "disconnected by peer"
  | attemptFailed => "connection closed: connection attempt failed"
  | securityRequested => "connection closed: peer requested security"

/-- What the application is told. -/
inductive Event where
  | connected
  /-- A payload arrived, which is never empty. -/
  | message (channel : UInt8) (payload : Octets)
  | receipt (outcome : Receipt)
  | disconnected (reason : CloseReason)
  deriving DecidableEq, Repr

end DatagramTransport

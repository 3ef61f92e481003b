import DatagramTransport.Address.Text
import DatagramTransport.Session.Receive
import DatagramTransport.Session.Timers
import DatagramTransport.Table

/-!
# End points — the sessions with all peers

An end point has one session at most for each address. What comes from an address goes to its
session, and what a session has to send or to tell goes out under its address, so **a session never
shows in what another one does**. The only thing that sessions share is the table they stand in:
how many there are decides whether a new one is let in.

A session leaves the table when the application ends it, or with the first tick that finds it
closed.
-/

set_option autoImplicit false

namespace DatagramTransport

/-- What an end point does to the world: packets that it sends and events that it tells the
application, each with the peer's address. -/
structure Effects where
  packets : List (Address × Octets)
  events : List (Address × Event)
  deriving DecidableEq, Repr

namespace Effects

def none : Effects := ⟨[], []⟩

def ofPeer (address : Address) (packets : List Octets) (events : List Event) : Effects :=
  ⟨packets.map (address, ·), events.map (address, ·)⟩

def join (all : List Effects) : Effects := ⟨all.flatMap (·.packets), all.flatMap (·.events)⟩

end Effects

/-- Why the application's wish cannot be met. Nothing has changed then. -/
inductive PeerFault where
  | mtuOutOfRange (address : Address) (mtu minMtu maxMtu : UInt16)
  | alreadyPresent (address : Address)
  | noSession (address : Address)
  | send (fault : SendFault)
  deriving DecidableEq, Repr

def PeerFault.message : PeerFault → String
  | mtuOutOfRange address mtu minMtu maxMtu =>
    "MTU " ++ toString mtu.toNat ++ " for " ++ address.text ++ " " ++ mtuRangeText minMtu maxMtu
  | alreadyPresent address => "there is a session for " ++ address.text ++ " already"
  | noSession address => "no session for " ++ address.text
  | send fault => fault.message

/-- The sessions with all peers. -/
structure EndPoint where
  settings : Settings
  sessions : Table Address Session
  deriving Repr

namespace EndPoint

/-- An end point without peers, if the settings are valid. -/
def create (settings : Settings) : Except SettingsFault EndPoint :=
  match settings.fault? with
  | some fault => .error fault
  | none => .ok ⟨settings, []⟩

def localHost (e : EndPoint) : Host := e.settings.bindAddress.host

def peers (e : EndPoint) : List Address := e.sessions.keys

/-- What a session has to tell, and the session afterwards in the table. -/
def settle (address : Address) (packets : List Octets) (s : Session) (e : EndPoint) :
    Effects × EndPoint :=
  let (events, s) := s.takeEvents
  (.ofPeer address packets events, { e with sessions := e.sessions.insert address s })

/-! ## What the application wants -/

/-- Adds a session for a peer with whom the size of packet has been agreed on already. A client
begins the login at once. -/
def register (now : Nanoseconds) (address : Address) (guid : UInt64) (mtu : UInt16) (role : Role)
    (e : EndPoint) : Except PeerFault EndPoint :=
  if mtu < e.settings.minMtu ∨ e.settings.maxMtu < mtu then
    .error (.mtuOutOfRange address mtu e.settings.minMtu e.settings.maxMtu)
  else if e.sessions.has address then .error (.alreadyPresent address)
  else
    let s := (Session.fresh e.settings role address guid mtu now).beginLogin now
    .ok { e with sessions := e.sessions.insert address s }

/-- Queues a payload for a peer. Returns the receipt that is promised for it, if its guarantee asks
for one. -/
def send (address : Address) (r : Reliability) (channel : UInt8) (payload : Octets)
    (e : EndPoint) : Except PeerFault (Option UInt32 × EndPoint) :=
  match e.sessions.get? address with
  | none => .error (.noSession address)
  | some s =>
    match s.send r channel payload with
    | .error fault => .error (.send fault)
    | .ok (receipt, s) => .ok (receipt, { e with sessions := e.sessions.insert address s })

/-- Ends the session with a peer, and sends the notification of it. -/
def disconnect (now : Nanoseconds) (address : Address) (e : EndPoint) :
    Except PeerFault (Effects × EndPoint) :=
  match e.sessions.get? address with
  | none => .error (.noSession address)
  | some s =>
    let (packets, s) := s.disconnect.flush now
    .ok (.ofPeer address packets s.events.toList, { e with sessions := e.sessions.erase address })

/-! ## Peers without a session -/

def hasPlace (e : EndPoint) : Bool :=
  e.settings.acceptIncoming && e.sessions.length < e.settings.maxConnections

def rejection? (source : Address) (e : EndPoint) : Option ControlMessage :=
  if e.sessions.has source then some (.alreadyConnected e.settings.guid)
  else if e.hasPlace then none
  else some (.noFreeIncomingConnections e.settings.guid)

/-- The size of packet nearest to the one that a peer asks for. -/
def negotiateMtu (requested : UInt16) (e : EndPoint) : UInt16 :=
  if requested < e.settings.minMtu then e.settings.minMtu
  else if e.settings.maxMtu < requested then e.settings.maxMtu
  else requested

/-- The answer to a peer that asks for the size of packet. -/
def answerRequest1 (source : Address) (version : UInt8) (mtu : UInt16) (e : EndPoint) :
    ControlMessage :=
  if version = e.settings.protocolVersion then
    (e.rejection? source).getD
      (.openConnectionReply1 e.settings.guid false (e.negotiateMtu mtu))
  else .incompatibleProtocolVersion e.settings.protocolVersion e.settings.guid

/-- The answer to a peer that asks to be let in. If it is, there is a session for it from now on,
whatever becomes of the answer. -/
def answerRequest2 (now : Nanoseconds) (source : Address) (mtu : UInt16) (guid : UInt64)
    (e : EndPoint) : ControlMessage × EndPoint :=
  match e.rejection? source with
  | some rejection => (rejection, e)
  | none =>
    let mtu := e.negotiateMtu mtu
    (.openConnectionReply2 e.settings.guid source mtu false,
      { e with
        sessions :=
          e.sessions.insert source (Session.fresh e.settings .server source guid mtu now) })

/-- The answer to a message from without a connection, if there is any. -/
def answer? (now : Nanoseconds) (source : Address) (m : ControlMessage) (e : EndPoint) :
    Option ControlMessage × EndPoint :=
  match m with
  | .unconnectedPing timestamp _ openConnectionsOnly =>
    (if openConnectionsOnly && !e.hasPlace then none
      else some (.unconnectedPong timestamp e.settings.guid e.settings.identifier), e)
  | .openConnectionRequest1 version mtu => (some (e.answerRequest1 source version mtu), e)
  | .openConnectionRequest2 _ mtu guid =>
    let (reply, e) := e.answerRequest2 now source mtu guid
    (some reply, e)
  | _ => (none, e)

/-- A packet from without a connection arrives. An answer that has no encoding is not sent. -/
def receiveOffline (now : Nanoseconds) (source : Address) (packet : Octets) (e : EndPoint) :
    Effects × EndPoint :=
  match ControlMessage.reader packet with
  | .error _ => (.none, e)
  | .ok (m, _) =>
    match e.answer? now source m with
    | (none, e) => (.none, e)
    | (some reply, e) =>
      match reply.encode with
      | .ok octets => (.ofPeer source [octets] [], e)
      | .error _ => (.none, e)

/-! ## Packets and time -/

def receive (now : Nanoseconds) (source : Address) (packet : Octets) (e : EndPoint) :
    Effects × EndPoint :=
  match packet with
  | [] => (.none, e)
  | id :: _ =>
    if ControlId.isOffline id then e.receiveOffline now source packet
    else
      match e.sessions.get? source with
      | none => (.none, e)
      | some s => e.settle source [] (s.receive now packet).2

def tickSession (now : Nanoseconds) (address : Address) (s : Session) : Effects × Session :=
  let (packets, s) := (s.tick now).flush now
  let (events, s) := s.takeEvents
  (.ofPeer address packets events, s)

/-- Time passes: for all sessions, and those that are closed then are removed. -/
def tick (now : Nanoseconds) (e : EndPoint) : Effects × EndPoint :=
  let ticked := e.sessions.map fun (address, s) => (address, tickSession now address s)
  (.join (ticked.map fun (_, effects, _) => effects),
    { e with
      sessions := (ticked.map fun (address, _, s) => (address, s)).filter
        fun entry => !entry.2.isClosed })

/-- The times of the ticks in a span of time, the first of them at its beginning. -/
def tickTimes (start span : Nanoseconds) (e : EndPoint) : List Nanoseconds :=
  let interval := e.settings.tickInterval
  (List.range ((span + interval - 1) / interval)).map fun i => start + i * interval

/-- Lets a span of time pass, tick by tick. -/
def run (start span : Nanoseconds) (e : EndPoint) : Effects × EndPoint :=
  let (effects, e) := Stepwise.collect tick (e.tickTimes start span) e
  (.join effects, e)

end EndPoint

end DatagramTransport

import DatagramTransport.Proofs.Acceptance
import DatagramTransport.Proofs.Handover
import Mathlib.Logic.Relation

/-!
# Routine — what a session does while it stays in a phase, and how it leaves one

Most of what is done with a session leaves it in its phase, and then the session does one of a few
things with its sender: it says something, hears of what it has sent, lets time pass, or sends what
waits. **What it says depends on the phase alone**: pings and answers to pings at any time, what the
login takes during the login, and whatever the application wants while it is connected.

There are five ways to leave a phase. An operation, and a payload that arrives, is a few such moves
in a row, so what every move keeps is kept by any run.
-/

set_option autoImplicit false

namespace DatagramTransport

/-! ## What is done with a sender

What a sender does is known from the modules on it, and here it is only listed. The list is one for
each phase, as a phase allows some payloads and not others: this is all that later modules use when
they show that something is not in the queue. -/

/-- What a session puts into its queue while it stays in this phase. -/
inductive Phase.Says : Phase → Reliability → UInt8 → Octets → Prop
  | ping {p : Phase} {timestamp : Int64} {payload : Octets}
    (encode_eq : (ControlMessage.connectedPing timestamp).encode = .ok payload) :
    Says p .unreliable 0 payload
  | pong {p : Phase} {ping pong : Int64} {payload : Octets}
    (encode_eq : (ControlMessage.connectedPong ping pong).encode = .ok payload) :
    Says p .unreliable 0 payload
  | request {guid : UInt64} {timestamp : Int64} {payload : Octets}
    (encode_eq : (ControlMessage.connectionRequest guid timestamp false).encode = .ok payload) :
    Says .handshaking .reliableOrdered 0 payload
  | acceptance {client : Address} {index : UInt16} {request accepted : Int64} {payload : Octets}
    (encode_eq : (ControlMessage.connectionRequestAccepted client index request accepted).encode
      = .ok payload) : Says .handshaking .reliableOrdered 0 payload
  | anything (r : Reliability) (channel : UInt8) (payload : Octets) :
    Says .connected r channel payload

/-- What is done with the sender of a session in this phase. -/
inductive Sender.Deed (p : Phase) : Sender → Sender → Prop
  | say {s s' : Sender} {r : Reliability} {channel : UInt8} {payload : Octets}
    {receipt : Option UInt32} (hsaid : p.Says r channel payload)
    (send_eq : s.send r channel payload = .ok (receipt, s')) : Deed p s s'
  | hear (s : Sender) (now : Nanoseconds) (a : Acknowledgement) : Deed p s (s.receive now a).2
  | tick (s : Sender) (now : Nanoseconds) : Deed p s (s.tick now).2
  | flush (isOpen : p.isOpen = true) (s : Sender) (now : Nanoseconds) (limit : Nat) :
    Deed p s (s.flush now limit).2

/-- What is sent without a receipt waits at the end of the queue, and nobody waits for it. -/
theorem Sender.entries_of_send {s s' : Sender} {r : Reliability} {channel : UInt8}
    {payload : Octets} {receipt : Option UInt32} (hr : r.wantsReceipt = false)
    (hsend : s.send r channel payload = .ok (receipt, s')) :
    s'.queue.entries.toList = s.queue.entries.toList
      ++ (s.queue.messagesFor r channel payload).map (⟨·, none, false⟩) := by
  obtain ⟨-, hqueue, -⟩ := send_eq_ok hsend
  obtain rfl : receipt = none := by
    rcases receipt_of_send hsend with ⟨hnone, -⟩ | ⟨-, hwants, -⟩
    · exact hnone
    · rw [hr] at hwants
      cases hwants
  rw [hqueue, Queue.append, Fifo.toList_append]

/-- What every step keeps is kept by steps in a row. -/
theorem keeps_row {α : Type} {R : α → α → Prop} {P : α → Prop}
    (hkeeps : ∀ a b, R a b → P a → P b) {a b : α} (h : Relation.ReflTransGen R a b) (ha : P a) :
    P b := by
  induction h with
  | refl => exact ha
  | tail _ hstep ih => exact hkeeps _ _ hstep ih

namespace Sender.Queue

variable {settings : Settings} {mtu : UInt16}

/-- Whatever a sender does, its queue is one for the same settings. -/
theorem Suits.deed {p : Phase} {s s' : Sender} (h : s.queue.Suits settings mtu)
    (deed : Deed p s s') : s'.queue.Suits settings mtu := by
  cases deed with
  | say hsaid hsend =>
    rw [(send_eq_ok hsend).2.1]
    exact h.append _ _ _ _
  | hear _ now a =>
    obtain ⟨back, hqueue, -⟩ := (recalls_receive now a s).entries_eq
    rw [hqueue]
    exact h.entries _
  | tick _ now =>
    obtain ⟨back, hqueue, -⟩ := (recalls_tick now s).entries_eq
    rw [hqueue]
    exact h.entries _
  | flush _ _ now limit =>
    rw [show (s.flush now limit).2.queue = (s.queue.pack limit).2 from
      queue_collect_dispatch now _ _]
    exact h.entries _

end Sender.Queue

namespace Session

variable {s s' s'' : Session}

/-! ## Staying in a phase

`Stays` forgets most of what a session does, and it composes. What is left is which session it is,
its phase, and the deeds of its sender in a row. An invariant about the queue needs no more: it is
shown for one deed, and `keeps_row` does the rest. -/

/-- The session stays in its phase, and its sender does what is done in that phase. -/
structure Stays (s s' : Session) : Prop where
  settings_eq : s'.settings = s.settings
  role_eq : s'.role = s.role
  address_eq : s'.address = s.address
  phase_eq : s'.phase = s.phase
  closing_eq : s'.closing = s.closing
  deeds : Relation.ReflTransGen (Sender.Deed s.phase) s.link.sender s'.link.sender

theorem Stays.refl (s : Session) : s.Stays s := ⟨rfl, rfl, rfl, rfl, rfl, .refl⟩

theorem Stays.trans (h : s.Stays s') (h' : s'.Stays s'') : s.Stays s'' where
  settings_eq := h'.settings_eq.trans h.settings_eq
  role_eq := h'.role_eq.trans h.role_eq
  address_eq := h'.address_eq.trans h.address_eq
  phase_eq := h'.phase_eq.trans h.phase_eq
  closing_eq := h'.closing_eq.trans h.closing_eq
  deeds := h.deeds.trans (h.phase_eq ▸ h'.deeds)

/-- A control message that has an encoding and is not refused goes to the sender, and nothing else
happens. -/
theorem sendControl_cases (r : Reliability) (m : ControlMessage) (s : Session) :
    ∃ sender, s.sendControl r m = { s with link := { s.link with sender := sender } } ∧
      (sender = s.link.sender ∨ ∃ payload receipt, m.encode = .ok payload ∧
        s.link.sender.send r 0 payload = .ok (receipt, sender)) := by
  unfold sendControl
  split
  · exact ⟨s.link.sender, rfl, Or.inl rfl⟩
  next payload hencode =>
    split
    · exact ⟨s.link.sender, rfl, Or.inl rfl⟩
    next receipt link hlink =>
      unfold Link.send at hlink
      split at hlink
      · cases hlink
      next receipt sender hsend =>
        cases hlink
        exact ⟨sender, rfl, Or.inr ⟨payload, receipt, hencode, hsend⟩⟩

/-- A control message that has no encoding is not sent. -/
theorem sendControl_of_fault {m : ControlMessage} {fault : EncodeFault} (r : Reliability)
    (hencode : m.encode = .error fault) (s : Session) : s.sendControl r m = s := by
  unfold sendControl
  rw [hencode]

/-- One that is refused is not sent either. -/
theorem sendControl_of_refused {r : Reliability} {m : ControlMessage} {payload : Octets}
    {fault : SendFault} (hencode : m.encode = .ok payload)
    (hrefused : s.link.sender.queue.refusal? r 0 payload = some fault) :
    s.sendControl r m = s := by
  simp only [sendControl, hencode, Link.send, Sender.send,
    Sender.Queue.enqueue_eq_error_iff.2 hrefused]

/-- Any other is. -/
theorem sendControl_of_accepted {r : Reliability} {m : ControlMessage} {payload : Octets}
    (hencode : m.encode = .ok payload)
    (haccepted : s.link.sender.queue.refusal? r 0 payload = none) :
    ∃ sender receipt, s.sendControl r m = { s with link := { s.link with sender := sender } } ∧
      s.link.sender.send r 0 payload = .ok (receipt, sender) := by
  have hsend : ∃ receipt sender, s.link.sender.send r 0 payload = .ok (receipt, sender) := by
    simp only [Sender.send, Sender.Queue.enqueue_of_accepted haccepted]
    cases r.wantsReceipt with
    | true => exact ⟨_, _, rfl⟩
    | false => exact ⟨_, _, rfl⟩
  obtain ⟨receipt, sender, hsend⟩ := hsend
  refine ⟨sender, receipt, ?_, hsend⟩
  simp only [sendControl, hencode, Link.send, hsend]

theorem stays_sendControl {r : Reliability} {m : ControlMessage}
    (hsaid : ∀ payload, m.encode = .ok payload → s.phase.Says r 0 payload) :
    s.Stays (s.sendControl r m) := by
  obtain ⟨sender, heq, rfl | ⟨payload, receipt, hencode, hsend⟩⟩ := sendControl_cases r m s
  · rw [heq]
    exact Stays.refl s
  · rw [heq]
    exact ⟨rfl, rfl, rfl, rfl, rfl, .single (.say (hsaid payload hencode) hsend)⟩

theorem stays_sendPing (now : Nanoseconds) (s : Session) : s.Stays (s.sendPing now) := by
  unfold sendPing
  refine Stays.trans ?_ (stays_sendControl fun _ => .ping)
  exact ⟨rfl, rfl, rfl, rfl, rfl, .refl⟩

theorem stays_takePong (now : Nanoseconds) (timestamp : Int64) (s : Session) :
    s.Stays (s.takePong now timestamp) := by
  unfold takePong
  split
  · exact ⟨rfl, rfl, rfl, rfl, rfl, .refl⟩
  · exact Stays.refl s

theorem stays_beginLogin (now : Nanoseconds) (s : Session) : s.Stays (s.beginLogin now) := by
  unfold beginLogin
  split
  next hlogin => exact stays_sendControl fun _ hencode => hlogin.2 ▸ .request hencode
  next => exact Stays.refl s

theorem stays_send {r : Reliability} {channel : UInt8} {payload : Octets}
    {receipt : Option UInt32} (h : s.send r channel payload = .ok (receipt, s')) :
    s.Stays s' := by
  unfold send at h
  split at h
  next hphase =>
    split at h
    · cases h
    next hlink =>
      cases h
      unfold Link.send at hlink
      split at hlink
      · cases hlink
      next hsend =>
        cases hlink
        have hsaid : s.phase.Says r channel payload := hphase ▸ .anything r channel payload
        exact ⟨rfl, rfl, rfl, rfl, rfl, .single (.say hsaid hsend)⟩
  next => cases h

theorem stays_takeMessage (channel : UInt8) (payload : Octets) (s : Session) :
    s.Stays (s.takeMessage channel payload) := by
  unfold takeMessage
  split
  · exact ⟨rfl, rfl, rfl, rfl, rfl, .refl⟩
  · exact ⟨rfl, rfl, rfl, rfl, rfl, .refl⟩
  · exact Stays.refl s
  · exact Stays.refl s

theorem stays_pingIfDue (now : Nanoseconds) (s : Session) : s.Stays (s.pingIfDue now) := by
  unfold pingIfDue
  split
  · exact stays_sendPing now s
  · exact Stays.refl s

theorem stays_probeIfDue (now : Nanoseconds) (hphase : s.phase = .connected) :
    s.Stays (s.probeIfDue now) := by
  unfold probeIfDue
  split
  · refine Stays.trans ?_ (stays_sendControl fun payload _ => ?_)
    · exact ⟨rfl, rfl, rfl, rfl, rfl, .refl⟩
    · exact hphase ▸ .anything _ _ _
  · exact Stays.refl s

/-! ## Moves

A move stays in the phase or leaves it, and there are five ways to leave: the login is completed, a
client joins, a server turns a client away, the application disconnects, or the session ends. All
but the end are given by what they make of the whole session, so that nothing is lost of what it
says on the way. -/

/-- The login is over for a client: it has answered, if it could, and is connected. -/
def joined (now : Nanoseconds) (accepted : Int64) (s : Session) : Session :=
  (s.sendControl .reliableOrdered
    (.newIncomingConnection s.address accepted (s.timestamp now))).completeLogin

/-- A server has turned a client away that wants security. -/
def rebuffed (s : Session) : Session :=
  { s.sendControl .reliableOrdered .connectionAttemptFailed with
    phase := .disconnecting
    closing := some .securityRequested }

/-- What a payload that arrives makes of the session that it meets. -/
inductive Deals (now : Nanoseconds) : Session → Session → Prop
  | stays {s s' : Session} (stays : s.Stays s') : Deals now s s'
  | admits {s : Session} (role_eq : s.role = .server) : Deals now s s.completeLogin
  | joins {s : Session} (role_eq : s.role = .client) (phase_eq : s.phase = .handshaking)
    (accepted : Int64) : Deals now s (s.joined now accepted)
  | rebuffs {s : Session} (role_eq : s.role = .server) (phase_eq : s.phase = .handshaking) :
    Deals now s s.rebuffed
  | ends {s s' : Session} (phase_eq : s'.phase = .disconnected) : Deals now s s'

variable {now : Nanoseconds}

theorem Deals.refl (s : Session) : s.Deals now s := .stays (Stays.refl s)

theorem deals_close (reason : CloseReason) (s : Session) : s.Deals now (s.close reason) := by
  unfold close
  split
  · exact Deals.refl s
  · exact .ends rfl

theorem deals_takeControl (now : Nanoseconds) (m : ControlMessage) (s : Session) :
    s.Deals now (s.takeControl now m) := by
  cases m with
  | connectedPing timestamp => exact .stays (stays_sendControl fun _ => .pong)
  | connectedPong timestamp _ => exact .stays (stays_takePong now timestamp s)
  | detectLostConnections => exact .stays (stays_sendPing now s)
  | connectionRequest _ timestamp useSecurity =>
    show s.Deals now (s.takeRequest now timestamp useSecurity)
    unfold takeRequest
    split
    next hlogin =>
      split
      · exact .rebuffs hlogin.1 hlogin.2
      · exact .stays (stays_sendControl fun _ hencode => hlogin.2 ▸ .acceptance hencode)
    next => exact Deals.refl s
  | connectionRequestAccepted _ _ _ timestamp =>
    show s.Deals now (s.takeAcceptance now timestamp)
    unfold takeAcceptance
    split
    next hlogin => exact .joins hlogin.1 hlogin.2 timestamp
    next => exact Deals.refl s
  | newIncomingConnection _ _ _ =>
    unfold takeControl
    simp only
    split
    next hserver => exact .admits hserver
    next => exact Deals.refl s
  | connectionAttemptFailed =>
    unfold takeControl
    simp only
    split
    · exact deals_close _ s
    · exact Deals.refl s
  | disconnectionNotification | connectionLost => exact deals_close _ s
  | _ => exact Deals.refl s

/-- **A payload that arrives takes a session one phase on, or ends it, or leaves it where it
is.** -/
theorem deals_takeDelivery (now : Nanoseconds) (d : Delivery) (s : Session) :
    s.Deals now (s.takeDelivery now d) := by
  unfold takeDelivery
  split
  · exact Deals.refl s
  · split
    · split
      · exact deals_takeControl now _ s
      · exact .stays ⟨rfl, rfl, rfl, rfl, rfl, .refl⟩
    · exact .stays (stays_takeMessage _ _ s)

/-- What becomes of a session in one go. -/
inductive Goes : Session → Session → Prop
  | deals {s s' : Session} (now : Nanoseconds) (deals : s.Deals now s') : Goes s s'
  | opens (s : Session) : Goes s s.completeLogin
  | leaves (s : Session) : Goes s s.disconnect

theorem Stays.goes (h : s.Stays s') : s.Goes s' := .deals 0 (.stays h)

theorem Goes.refl (s : Session) : s.Goes s := (Stays.refl s).goes

theorem goes_takeDeliveries (now : Nanoseconds) (ds : List Delivery) (s : Session) :
    Relation.ReflTransGen Goes s (s.takeDeliveries now ds) := by
  unfold takeDeliveries
  induction ds generalizing s with
  | nil => exact .refl
  | cons d ds ih => exact .head (.deals now (deals_takeDelivery now d s)) (ih _)

theorem stays_opened {now : Nanoseconds} {packet : Octets} {ds : List Delivery}
    (h : s.opened? now packet = some (ds, s')) : s.Stays s' := by
  unfold opened? at h
  split at h
  · cases h
  · split at h
    · cases h
      exact ⟨rfl, rfl, rfl, rfl, rfl, .refl⟩
    · cases h

theorem stays_receive {now : Nanoseconds} {packet : Octets}
    (h : s.opened? now packet = none) : s.Stays (s.receive now packet).2 := by
  unfold opened? at h
  unfold receive
  split
  · exact Stays.refl s
  next hopen =>
    rw [if_neg hopen] at h
    split
    next p rest hread =>
      cases p with
      | datagram d =>
        rw [hread] at h
        cases h
      | acknowledgement a => exact ⟨rfl, rfl, rfl, rfl, rfl, .single (.hear _ now a)⟩
    · exact ⟨rfl, rfl, rfl, rfl, rfl, .refl⟩

theorem goes_receive (now : Nanoseconds) (packet : Octets) (s : Session) :
    Relation.ReflTransGen Goes s (s.receive now packet).2 := by
  cases hopened : s.opened? now packet with
  | none => exact .single (stays_receive hopened).goes
  | some result =>
    obtain ⟨ds, s'⟩ := result
    rw [receive_of_opened hopened]
    exact .head (stays_opened hopened).goes (goes_takeDeliveries now ds s')

theorem goes_tick (now : Nanoseconds) (s : Session) : s.Goes (s.tick now) := by
  unfold tick
  split
  · exact Goes.refl s
  · split
    · exact .deals now (deals_close _ s)
    · have hticked : s.Stays
          ({ s with link := (s.link.tick now).2 }.emitReceipts (s.link.tick now).1) :=
        ⟨rfl, rfl, rfl, rfl, rfl, .single (.tick _ now)⟩
      simp only
      split
      next hphase =>
        have hping := stays_pingIfDue now
          ({ s with link := (s.link.tick now).2 }.emitReceipts (s.link.tick now).1)
        exact (hticked.trans (hping.trans
          (stays_probeIfDue now (hping.phase_eq.trans hphase)))).goes
      next => exact hticked.goes

/-- A session that is disconnecting is disconnected by the next flush. -/
theorem phase_flush_of_disconnecting (h : s.phase = .disconnecting) (now : Nanoseconds) :
    (s.flush now).2.phase = .disconnected := by
  show (s.flushPackets now).2.phase = _
  unfold flushPackets
  simp only [h, reduceCtorEq, if_false, if_true, close]
  rfl

/-- A flush brings acknowledgements, and then what is taken out of the queue, batch by batch. -/
theorem flush_packets (h : s.phase ≠ .disconnected) (now : Nanoseconds) :
    ∃ (acknowledgements : List Acknowledgement) (datagrams : List Datagram),
      (s.flush now).1 = (acknowledgements.map Packet.acknowledgement
        ++ datagrams.map Packet.datagram).map Packet.encode ∧
      datagrams.map (·.messages)
        = (s.link.sender.queue.pack s.settings.maxDatagramsPerTick).1.map
          (·.map (·.message)) := by
  have hflush : (s.flush now).1
      = (s.link.flushPackets now s.settings.maxDatagramsPerTick).1.map Packet.encode := by
    unfold flush flushPackets
    rw [if_neg h]
  exact ⟨_, _, hflush, Sender.messages_collect_dispatch now _ _⟩

theorem goes_flush (now : Nanoseconds) (s : Session) : s.Goes (s.flush now).2 := by
  cases hphase : s.phase with
  | disconnecting => exact .deals now (.ends (phase_flush_of_disconnecting hphase now))
  | disconnected =>
    have hsame : (s.flush now).2 = s := by
      simp only [flush, flushPackets, hphase, if_true]
    rw [hsame]
    exact Goes.refl s
  | handshaking | connected =>
    have hsame : (s.flush now).2
        = { s with link := (s.link.flushPackets now s.settings.maxDatagramsPerTick).2 } := by
      simp only [flush, flushPackets, hphase, reduceCtorEq, if_false]
    rw [hsame]
    have hopen : s.phase.isOpen = true := by
      rw [hphase]
      rfl
    exact Stays.goes ⟨rfl, rfl, rfl, rfl, rfl, .single (.flush hopen _ now _)⟩

/-- **An operation is some moves in a row.** -/
theorem goes_perform (op : Operation) (s : Session) :
    Relation.ReflTransGen Goes s (s.perform op).2 := by
  cases op with
  | beginLogin now => exact .single (stays_beginLogin now s).goes
  | completeLogin => exact .single (.opens s)
  | send r channel payload =>
    simp only [perform]
    split
    · exact .refl
    next hsend => exact .single (stays_send hsend).goes
  | disconnect => exact .single (.leaves s)
  | tick now => exact .single (goes_tick now s)
  | flush now => exact .single (goes_flush now s)
  | receive now packet =>
    have hgoes := goes_receive now packet s
    simp only [perform]
    generalize s.receive now packet = received at hgoes ⊢
    obtain ⟨_ | _, s'⟩ := received
    · exact hgoes
    · exact hgoes
  | takeEvents => exact .single (Stays.goes ⟨rfl, rfl, rfl, rfl, rfl, .refl⟩)

/-- **What every move keeps holds after any run.** -/
theorem keeps_conduct {P : Session → Prop} (hkeeps : ∀ s s' : Session, s.Goes s' → P s → P s')
    (hs : P s) (ops : List Operation) : P (s.conduct ops).2 := by
  unfold conduct
  induction ops generalizing s with
  | nil => exact hs
  | cons op ops ih =>
    rw [Stepwise.collect_cons]
    exact ih (keeps_row hkeeps (goes_perform op s) hs)

/-! ## What never changes

The settings, the role and the address of a session are those it was made with as long as it lives,
and its queue is one for these settings. Whether a control message is refused can then be told from
its length, without a look at the session. -/

/-- The session was made like this, and its queue with it. -/
structure Made (settings : Settings) (role : Role) (address : Address) (mtu : UInt16)
    (s : Session) : Prop where
  settings_eq : s.settings = settings
  role_eq : s.role = role
  address_eq : s.address = address
  suits : s.link.sender.queue.Suits settings mtu

variable {settings : Settings} {role : Role} {address : Address} {mtu : UInt16}

theorem made_fresh (settings : Settings) (role : Role) (address : Address) (guid : UInt64)
    (mtu : UInt16) (now : Nanoseconds) :
    (fresh settings role address guid mtu now).Made settings role address mtu :=
  ⟨rfl, rfl, rfl, Sender.Queue.suits_fresh settings mtu⟩

theorem Made.stays (h : s.Made settings role address mtu) (hstays : s.Stays s') :
    s'.Made settings role address mtu where
  settings_eq := hstays.settings_eq.trans h.settings_eq
  role_eq := hstays.role_eq.trans h.role_eq
  address_eq := hstays.address_eq.trans h.address_eq
  suits := keeps_row (P := fun sender : Sender => sender.queue.Suits settings mtu)
    (fun _ _ deed hsuits => hsuits.deed deed) hstays.deeds h.suits

theorem Made.sendControl (h : s.Made settings role address mtu) (r : Reliability)
    (m : ControlMessage) : (s.sendControl r m).Made settings role address mtu := by
  obtain ⟨sender, heq, rfl | ⟨payload, receipt, -, hsend⟩⟩ := sendControl_cases r m s
  · rw [heq]
    exact h
  · rw [heq]
    refine ⟨h.settings_eq, h.role_eq, h.address_eq, ?_⟩
    show sender.queue.Suits settings mtu
    rw [(Sender.send_eq_ok hsend).2.1]
    exact h.suits.append _ _ _ _

theorem Made.completeLogin (h : s.Made settings role address mtu) :
    s.completeLogin.Made settings role address mtu := by
  unfold Session.completeLogin
  split
  · exact ⟨h.settings_eq, h.role_eq, h.address_eq, h.suits⟩
  · exact h

theorem Made.clear (h : s.Made settings role address mtu) :
    { s with link := s.link.clear }.Made settings role address mtu :=
  ⟨h.settings_eq, h.role_eq, h.address_eq, h.suits.entries _⟩

theorem Made.disconnect (h : s.Made settings role address mtu) :
    s.disconnect.Made settings role address mtu := by
  unfold Session.disconnect
  split
  · exact h
  · have hlast := h.clear.sendControl .unreliable .disconnectionNotification
    exact ⟨hlast.settings_eq, hlast.role_eq, hlast.address_eq, hlast.suits⟩

/-- Which control messages are refused is a matter of their length. -/
theorem Made.refusal?_eq_none_iff (h : s.Made settings role address mtu)
    (hvalid : settings.Valid) (r : Reliability) (payload : Octets) :
    s.link.sender.queue.refusal? r 0 payload = none ↔ payload.length
      ≤ (mtu.toNat - (32 + Message.headerLength r.ofFragments true))
        * settings.maxFragmentsPerSend := by
  obtain ⟨-, -, -, -, -, -, hchannels⟩ := hvalid.bounds
  rw [h.suits.refusal?_eq_none_iff (show (0 : UInt8).toNat < settings.orderChannels from hchannels)]
  simp only [Sender.Queue.maxPacketLength, Datagram.headersBelow, Datagram.headerLength,
    Nat.sub_sub, Nat.reduceAdd]

/-- **A session that is about to end, or has ended, stays as it is or ends.** -/
theorem Goes.of_late (h : s.Goes s') (hlate : s.phase = .disconnecting ∨ s.phase = .disconnected) :
    s.Stays s' ∨ s'.phase = .disconnected := by
  have hphase : s.phase ≠ .handshaking := by
    rcases hlate with hphase | hphase <;> simp [hphase]
  have hopens : s.completeLogin = s := if_neg hphase
  have hleaves : s.disconnect = s := if_pos hlate
  cases h with
  | deals now hdeals =>
    cases hdeals with
    | stays hstays => exact Or.inl hstays
    | admits => exact Or.inl (hopens.symm ▸ Stays.refl s)
    | joins _ hlogin | rebuffs _ hlogin => exact absurd hlogin hphase
    | ends hended => exact Or.inr hended
  | opens => exact Or.inl (hopens.symm ▸ Stays.refl s)
  | leaves => exact Or.inl (hleaves.symm ▸ Stays.refl s)

/-- A session that is not disconnected was not so before. -/
theorem Goes.phase_ne (h : s.Goes s') (hphase : s'.phase ≠ .disconnected) :
    s.phase ≠ .disconnected := by
  intro hover
  rcases h.of_late (Or.inr hover) with hstays | hended
  · exact hphase (hstays.phase_eq.trans hover)
  · exact hphase hended

theorem Made.goes (h : s.Made settings role address mtu) (hgoes : s.Goes s')
    (hphase : s'.phase ≠ .disconnected) : s'.Made settings role address mtu := by
  cases hgoes with
  | deals now hdeals =>
    cases hdeals with
    | stays hstays => exact h.stays hstays
    | admits => exact h.completeLogin
    | joins => exact (h.sendControl _ _).completeLogin
    | rebuffs =>
      have hlast := h.sendControl .reliableOrdered .connectionAttemptFailed
      exact ⟨hlast.settings_eq, hlast.role_eq, hlast.address_eq, hlast.suits⟩
    | ends hended => exact absurd hended hphase
  | opens => exact h.completeLogin
  | leaves => exact h.disconnect

/-- As long as a session has not ended, it is what it was made. -/
theorem made_conduct (settings : Settings) (role : Role) (address : Address) (guid : UInt64)
    (mtu : UInt16) (now : Nanoseconds) (ops : List Operation) :
    let s := ((fresh settings role address guid mtu now).conduct ops).2
    s.phase ≠ .disconnected → s.Made settings role address mtu :=
  keeps_conduct (P := fun s => s.phase ≠ .disconnected → s.Made settings role address mtu)
    (fun _ _ hgoes hmade hphase => (hmade (hgoes.phase_ne hphase)).goes hgoes hphase)
    (fun _ => made_fresh settings role address guid mtu now) ops

end Session

end DatagramTransport

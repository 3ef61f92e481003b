import DatagramTransport.Proofs.Handover
import DatagramTransport.Proofs.Provenance
import Mathlib.Data.List.Induction

/-!
# Login — who is connected first

Two sessions of two roles exchange packets, and the network between them may lose, repeat, delay and
reorder what it carries, but it makes up nothing. **The server is connected only after the client,
and the client only after it was told to begin and the server has granted its request.**

Each step of the login is taken because of a control message that only the step before sends. So the
argument is one about first octets: before the client is connected neither session takes a payload
of the application, so all that goes in are control messages, and of these some wait for a step of
the login. What has not gone in at one end does not come out at the other, however the packets are
carried.
-/

set_option autoImplicit false

namespace DatagramTransport

def Role.peer : Role → Role
  | client => server
  | server => client

/-- A client asks for the login, and not for security. -/
def Delivery.isOpenRequest (d : Delivery) : Bool :=
  match ControlMessage.reader d.payload with
  | .ok (.connectionRequest _ _ useSecurity, _) => !useSecurity
  | _ => false

namespace Session

/-! ## Two sessions

A course is a list of steps, each of one of the two. Packets are not part of the state: what can
arrive is what the other has sent at any time before, so loss, repetition and delay are nothing but
a choice of steps. Whether the login was begun, granted or completed is read off the course, by the
phases that a session went through, and not off the sessions as they are in the end. -/

/-- What is done with two sessions, in the order in which it is done. -/
abbrev Course := List (Role × Operation)

namespace Course

/-- What is done with one of them. -/
def deeds (role : Role) (steps : Course) : List Operation :=
  (steps.filter fun step => step.1 = role).map Prod.snd

/-- The client is told to begin. -/
def Begun (steps : Course) : Prop := ∃ now, (Role.client, Operation.beginLogin now) ∈ steps

variable (start : Role → Session) (steps : Course)

def party (role : Role) : Session := ((start role).conduct (steps.deeds role)).2

/-- All packets that one of them has put on the wire. -/
def sent (role : Role) : List Octets :=
  ((start role).conduct (steps.deeds role)).1.flatMap Answer.packetList

/-- The session has been connected, if only in the middle of a datagram. -/
def Opened (role : Role) : Prop := .connected ∈ (start role).phases (steps.deeds role)

/-- The server has dealt with a request without security while it was in the login. -/
def Granted : Prop :=
  ∃ entry ∈ (start .server).handled (steps.deeds .server),
    entry.1 = .handshaking ∧ entry.2.isOpenRequest = true

/-- What can happen next: nothing arrives that the other has not sent, and nobody says from outside
that the login is complete. -/
def Allows : Role × Operation → Prop
  | (_, .completeLogin) => False
  | (role, .receive _ packet) => packet ∈ steps.sent start role.peer
  | _ => True

instance (step : Role × Operation) : Decidable (steps.Allows start step) :=
  match step with
  | (_, .completeLogin) => inferInstanceAs (Decidable False)
  | (role, .receive _ packet) =>
    inferInstanceAs (Decidable (packet ∈ steps.sent start role.peer))
  | (_, .beginLogin _) | (_, .send ..) | (_, .disconnect) | (_, .tick _) | (_, .flush _)
  | (_, .takeEvents) => inferInstanceAs (Decidable True)

/-- Each step could happen after those before it. -/
def Fair : Prop :=
  ∀ i (h : i < steps.length), Allows start (steps.take i) steps[i]

instance : Decidable (steps.Fair start) :=
  inferInstanceAs (Decidable (∀ i (_ : i < steps.length), _))

variable {start steps} {role other : Role} {op : Operation}

theorem deeds_snoc : deeds other (steps ++ [(role, op)])
    = if role = other then deeds other steps ++ [op] else deeds other steps := by
  by_cases h : role = other <;> simp [deeds, h]

theorem party_snoc : party start (steps ++ [(role, op)]) other
    = if role = other then ((party start steps other).perform op).2
      else party start steps other := by
  rw [party, deeds_snoc]
  split
  · rw [conduct_snoc]
    rfl
  · rfl

theorem sent_snoc : sent start (steps ++ [(role, op)]) other
    = sent start steps other
      ++ if role = other then ((party start steps other).perform op).1.packetList else [] := by
  rw [sent, deeds_snoc]
  split
  · rw [conduct_snoc, List.flatMap_append, List.flatMap_singleton]
    rfl
  · rw [List.append_nil]
    rfl

theorem opened_snoc : Opened start (steps ++ [(role, op)]) other ↔ Opened start steps other ∨
    (role = other ∧ .connected ∈ ((party start steps other).handles op).map Prod.fst
      ++ [((party start steps other).perform op).2.phase]) := by
  rw [Opened, deeds_snoc]
  split
  next h => rw [mem_phases_snoc]; simp only [h, true_and]; rfl
  next h => simp only [h, false_and, or_false]; rfl

theorem granted_snoc : Granted start (steps ++ [(role, op)]) ↔ Granted start steps ∨
    (role = .server ∧ ∃ entry ∈ (party start steps .server).handles op,
      entry.1 = .handshaking ∧ entry.2.isOpenRequest = true) := by
  rw [Granted, deeds_snoc]
  split
  next h =>
    simp only [handled_snoc, List.mem_append, or_and_right, exists_or, h, true_and]
    rfl
  next h =>
    simp only [h, false_and, or_false]
    rfl

theorem begun_snoc : Begun (steps ++ [(role, op)]) ↔ Begun steps ∨
    (role = .client ∧ ∃ now, op = .beginLogin now) := by
  simp only [Begun, List.mem_append, List.mem_singleton, Prod.mk.injEq, exists_or, eq_comm,
    exists_and_left]

theorem Fair.earlier (h : Fair start (steps ++ [(role, op)])) :
    Fair start steps ∧ Allows start steps (role, op) := by
  constructor
  · intro i hi
    have hallowed := h i (by rw [List.length_append]; omega)
    rwa [List.take_append_of_le_length (Nat.le_of_lt hi), List.getElem_append_left hi] at hallowed
  · have hallowed := h steps.length (by rw [List.length_append, List.length_singleton]; omega)
    rwa [List.take_left, List.getElem_concat_length rfl] at hallowed

end Course

/-! ## What can be said before the client is connected

`Spoken` says which first octets may have gone in so far; it depends on whether the login was begun
and granted, and grows with these. A session is `Limited` to a set of first octets if all payloads
in its queue, in its records and in its receiver begin with one of these, and it is not connected.
Every operation that puts something into the queue has to come up with an octet that is in the set.
-/

/-- The identifiers that may have gone in at either end. -/
def Spoken (begun granted : Prop) (id : UInt8) : Prop :=
  id ∈ [ControlId.connectedPing, ControlId.connectedPong, ControlId.detectLostConnections,
      ControlId.connectionAttemptFailed, ControlId.disconnectionNotification] ∨
    (id = ControlId.connectionRequest ∧ begun) ∨
    (id = ControlId.connectionRequestAccepted ∧ granted)

variable {begun begun' granted granted' : Prop}

theorem Spoken.mono {id : UInt8} (h : Spoken begun granted id) (hbegun : begun → begun')
    (hgranted : granted → granted') : Spoken begun' granted' id :=
  h.imp_right (Or.imp (And.imp_right hbegun) (And.imp_right hgranted))

theorem Spoken.isConnected {id : UInt8} (h : Spoken begun granted id) :
    ControlId.isConnected id = true := by
  rcases h with hfree | ⟨rfl, -⟩ | ⟨rfl, -⟩
  · simp only [List.mem_cons, List.not_mem_nil, or_false] at hfree
    rcases hfree with rfl | rfl | rfl | rfl | rfl <;> rfl
  · rfl
  · rfl

theorem begun_of_spoken (h : Spoken begun granted ControlId.connectionRequest) : begun := by
  rcases h with hfree | ⟨-, hbegun⟩ | ⟨heq, -⟩
  · exact absurd hfree (by decide)
  · exact hbegun
  · exact absurd heq (by decide)

theorem granted_of_spoken (h : Spoken begun granted ControlId.connectionRequestAccepted) :
    granted := by
  rcases h with hfree | ⟨heq, -⟩ | ⟨-, hgranted⟩
  · exact absurd hfree (by decide)
  · exact absurd heq (by decide)
  · exact hgranted

theorem not_spoken_newIncomingConnection :
    ¬Spoken begun granted ControlId.newIncomingConnection := by
  rintro (hfree | ⟨heq, -⟩ | ⟨heq, -⟩)
  · exact absurd hfree (by decide)
  · exact absurd heq (by decide)
  · exact absurd heq (by decide)

/-- A request that comes out says that the login was begun. -/
theorem begun_of_isOpenRequest {d : Delivery} (hd : d.payload.LedBy (Spoken begun granted))
    (h : d.isOpenRequest = true) : begun := by
  obtain ⟨id, rest, hpayload, hid⟩ := hd
  unfold Delivery.isOpenRequest at h
  rw [hpayload] at h
  split at h
  next hread =>
    rw [← ControlMessage.id_of_reader hread] at hid
    exact begun_of_spoken hid
  · cases h

/-- The session is not connected, and of what it keeps and what it is going to say only these
identifiers are known to it. -/
structure Limited (role : Role) (ids : UInt8 → Prop) (s : Session) : Prop where
  role_eq : s.role = role
  phase_ne : s.phase ≠ .connected
  sender : s.link.sender.KeepsOnly (Message.LedBy ids)
  receiver : s.link.receiver.LedBy ids

section Limited

variable {s s' : Session} {role : Role} {ids ids' : UInt8 → Prop}

theorem limited_fresh (settings : Settings) (role : Role) (address : Address) (guid : UInt64)
    (mtu : UInt16) (now : Nanoseconds) :
    (fresh settings role address guid mtu now).Limited role ids where
  role_eq := rfl
  phase_ne := nofun
  sender := Sender.keepsOnly_fresh settings mtu
  receiver := Receiver.ledBy_fresh settings

theorem Limited.mono (h : s.Limited role ids) (himp : ∀ id, ids id → ids' id) :
    s.Limited role ids' :=
  ⟨h.role_eq, h.phase_ne, h.sender.mono fun _ hm => hm.mono himp, h.receiver.mono himp⟩

/-- Nothing else in a session matters. -/
theorem Limited.congr (h : s.Limited role ids) (hrole : s'.role = s.role)
    (hphase : s'.phase ≠ .connected) (hlink : s'.link = s.link) : s'.Limited role ids :=
  ⟨hrole.trans h.role_eq, hphase, hlink ▸ h.sender, hlink ▸ h.receiver⟩

theorem Limited.sendControl (h : s.Limited role (Spoken begun granted)) (r : Reliability)
    {m : ControlMessage} (hm : Spoken begun granted m.id) :
    (s.sendControl r m).Limited role (Spoken begun granted) ∧
      (s.sendControl r m).phase = s.phase := by
  unfold Session.sendControl
  split
  · exact ⟨h, rfl⟩
  next payload hencode =>
    obtain ⟨fields, hfields, rfl⟩ := ControlMessage.encode_eq_ok hencode
    have hlength := ControlMessage.length_fields_le hfields hm.isConnected
    unfold Link.send
    split
    next => exact ⟨h, rfl⟩
    next hlink =>
      split at hlink
      · cases hlink
      next hsend =>
        cases hlink
        refine ⟨⟨h.role_eq, h.phase_ne, h.sender.send hsend ?_, h.receiver⟩, rfl⟩
        exact Sender.Queue.ledBy_messagesFor (Sender.send_eq_ok hsend).1
          (by rw [List.length_cons]; omega) ⟨_, _, rfl, hm⟩

theorem Limited.clear (h : s.Limited role ids) :
    { s with link := s.link.clear }.Limited role ids :=
  ⟨h.role_eq, h.phase_ne, Sender.keepsOnly_clear h.sender, h.receiver⟩

theorem Limited.close (h : s.Limited role ids) (reason : CloseReason) :
    (s.close reason).Limited role ids := by
  unfold Session.close
  split
  · exact h
  · exact h.clear.congr rfl nofun rfl

theorem Limited.sendPing (h : s.Limited role (Spoken begun granted)) (now : Nanoseconds) :
    (s.sendPing now).Limited role (Spoken begun granted) := by
  unfold Session.sendPing
  have hping : Spoken begun granted ControlId.connectedPing := Or.inl (by decide)
  refine (Limited.sendControl (m := .connectedPing _) ?_ _ hping).1
  exact h.congr rfl h.phase_ne rfl

theorem Limited.beginLogin (h : s.Limited role (Spoken begun granted))
    (hbegun : role = .client → begun) (now : Nanoseconds) :
    (s.beginLogin now).Limited role (Spoken begun granted) := by
  unfold Session.beginLogin
  split
  next hclient =>
    have hrole := h.role_eq.symm.trans hclient.1
    exact (h.sendControl _ (Or.inr (Or.inl ⟨rfl, hbegun hrole⟩))).1
  · exact h

theorem Limited.disconnect (h : s.Limited role (Spoken begun granted)) :
    s.disconnect.Limited role (Spoken begun granted) := by
  unfold Session.disconnect
  split
  · exact h
  · have hlast := (h.clear.sendControl .unreliable (m := .disconnectionNotification)
      (Or.inl (by decide))).1
    exact hlast.congr rfl nofun rfl

theorem Limited.tick (h : s.Limited role ids) (now : Nanoseconds) :
    (s.tick now).Limited role ids := by
  unfold Session.tick
  split
  · exact h
  · split
    · exact h.close _
    · simp only
      split
      next hphase => exact absurd hphase h.phase_ne
      next => exact ⟨h.role_eq, h.phase_ne, h.sender.tick now, h.receiver⟩

/-! ## What arrives

A payload that comes out of a limited receiver begins with an octet that is spoken, so it is a
control message, and only two kinds of these matter. A request makes a server say an acceptance, and
with that the set grows by one octet: this is when it is granted. An acceptance connects a client,
and it can have come out only if it was granted. All others leave the session limited as it was.

In a datagram one delivery after the other may do so. `Waits` is what is left of the claim in the
middle of a datagram, with what was granted by the deliveries that were dealt with. -/

theorem Limited.takePong (h : s.Limited role ids) (now : Nanoseconds) (timestamp : Int64) :
    (s.takePong now timestamp).Limited role ids := by
  unfold Session.takePong
  split
  · exact h.congr rfl h.phase_ne rfl
  · exact h

/-- A server answers a request, and with an acceptance only if it grants what is asked for. -/
theorem Limited.takeRequest (h : s.Limited role (Spoken begun granted)) (now : Nanoseconds)
    (timestamp : Int64) {useSecurity : Bool}
    (hgranted : role = .server → s.phase = .handshaking → useSecurity = false → granted) :
    (s.takeRequest now timestamp useSecurity).Limited role (Spoken begun granted) := by
  unfold Session.takeRequest
  split
  next hserver =>
    cases useSecurity with
    | true =>
      have hfailed : Spoken begun granted ControlId.connectionAttemptFailed := Or.inl (by decide)
      have hlast := (h.sendControl .reliableOrdered (m := .connectionAttemptFailed) hfailed).1
      exact hlast.congr rfl nofun rfl
    | false =>
      have hgranted := hgranted (h.role_eq.symm.trans hserver.1) hserver.2 rfl
      exact (h.sendControl _ (Or.inr (Or.inr ⟨rfl, hgranted⟩))).1
  · exact h

/-- A client that is in the login is done with it. -/
theorem Limited.takeAcceptance (h : s.Limited role ids) (now : Nanoseconds) (timestamp : Int64) :
    (role = .client ∧ (s.takeAcceptance now timestamp).phase = .connected) ∨
      (s.takeAcceptance now timestamp).Limited role ids := by
  unfold Session.takeAcceptance
  split
  next hclient =>
    refine Or.inl ⟨h.role_eq.symm.trans hclient.1, ?_⟩
    have hphase := (rests_sendControl (r := .reliableOrdered) rfl
      (.newIncomingConnection s.address timestamp (s.timestamp now)) s).phase_eq
    rw [completeLogin, if_pos (hphase.trans hclient.2)]
    rfl
  · exact Or.inr h

/-- **A control message takes the session on only if it is an acceptance**, which was granted, and
makes it say something new only if it is a request. -/
theorem Limited.takeControl (h : s.Limited role (Spoken begun granted)) (now : Nanoseconds)
    {m : ControlMessage} (hm : Spoken begun granted m.id) (himp : granted → granted')
    (hrequest : role = .server → s.phase = .handshaking → ∀ guid timestamp,
      m = .connectionRequest guid timestamp false → granted') :
    (role = .client ∧ granted ∧ (s.takeControl now m).phase = .connected) ∨
      (s.takeControl now m).Limited role (Spoken begun granted') := by
  have h' := h.mono fun _ hid => hid.mono id himp
  cases m with
  | connectedPing timestamp =>
    have hpong : Spoken begun granted' ControlId.connectedPong := Or.inl (by decide)
    exact Or.inr (h'.sendControl _ (m := .connectedPong _ _) hpong).1
  | connectedPong timestamp _ => exact Or.inr (h'.takePong now timestamp)
  | detectLostConnections => exact Or.inr (h'.sendPing now)
  | connectionRequest guid timestamp useSecurity =>
    refine Or.inr (h'.takeRequest now timestamp fun hserver hphase hopen => ?_)
    exact hrequest hserver hphase guid timestamp (by rw [hopen])
  | connectionRequestAccepted _ _ _ timestamp =>
    rcases h'.takeAcceptance now timestamp with ⟨hclient, hphase⟩ | hrest
    · exact Or.inl ⟨hclient, granted_of_spoken hm, hphase⟩
    · exact Or.inr hrest
  | newIncomingConnection _ _ _ => exact absurd hm not_spoken_newIncomingConnection
  | connectionAttemptFailed =>
    refine Or.inr ?_
    unfold Session.takeControl
    simp only
    split
    · exact h'.close _
    · exact h'
  | disconnectionNotification | connectionLost => exact Or.inr (h'.close _)
  | _ => exact Or.inr h'

/-- A server in the login meets a request without security. -/
def Grants (role : Role) (entry : Phase × Delivery) : Prop :=
  role = .server ∧ entry.1 = .handshaking ∧ entry.2.isOpenRequest = true

theorem Limited.takeDelivery (h : s.Limited role (Spoken begun granted)) (now : Nanoseconds)
    {d : Delivery} (hd : d.payload.LedBy (Spoken begun granted)) :
    (role = .client ∧ granted ∧ (s.takeDelivery now d).phase = .connected) ∨
      (s.takeDelivery now d).Limited role
        (Spoken begun (granted ∨ Grants role (s.phase, d))) := by
  obtain ⟨first, rest, hpayload, hfirst⟩ := hd
  simp only [Session.takeDelivery, hpayload, hfirst.isConnected, if_true]
  split
  next m _ hread =>
    rw [← ControlMessage.id_of_reader hread] at hfirst
    refine h.takeControl now hfirst Or.inl fun hserver hphase guid timestamp hm => Or.inr ?_
    refine ⟨hserver, hphase, ?_⟩
    simp only [Delivery.isOpenRequest, hpayload, hread, hm, Bool.not_false]
  next =>
    exact Or.inr ((h.mono fun _ hid => hid.mono id Or.inl).congr rfl h.phase_ne rfl)

/-- After these deliveries the session has not been connected, and what it is going to say goes
beyond what is spoken only as far as it has granted something. -/
structure Waits (role : Role) (begun granted : Prop) (met : List (Phase × Delivery))
    (s : Session) : Prop where
  unopened : .connected ∉ met.map Prod.fst ++ [s.phase]
  heard : ∀ entry ∈ met, entry.2.payload.LedBy (Spoken begun granted)
  limited : s.Limited role (Spoken begun (granted ∨ ∃ entry ∈ met, Grants role entry))

theorem Limited.waits (h : s.Limited role (Spoken begun granted)) :
    s.Waits role begun granted [] where
  unopened := fun hmem => h.phase_ne (List.mem_singleton.1 hmem).symm
  heard := nofun
  limited := h.mono fun _ hid => hid.mono id Or.inl

/-- **Of a whole datagram the same holds**: a client is connected because it was granted, or nobody
is connected. -/
theorem Limited.takeDeliveries (h : s.Limited role (Spoken begun granted)) (now : Nanoseconds)
    {ds : List Delivery} (hds : ∀ d ∈ ds, d.payload.LedBy (Spoken begun granted)) :
    (role = .client ∧ granted ∧
        .connected ∈ (s.meets now ds).map Prod.fst ++ [(s.takeDeliveries now ds).phase]) ∨
      (s.takeDeliveries now ds).Waits role begun granted (s.meets now ds) := by
  have hrun : (role = .client ∧ granted ∧
        .connected ∈ (s.meets now ds).map Prod.fst ++ [(s.takeDeliveries now ds).phase]) ∨
      .connected ∉ (s.meets now ds).map Prod.fst ++ [(s.takeDeliveries now ds).phase] ∧
        (s.takeDeliveries now ds).Limited role
          (Spoken begun (granted ∨ ∃ entry ∈ s.meets now ds, Grants role entry)) := by
    induction ds generalizing s granted with
    | nil => exact Or.inr ⟨h.waits.unopened, h.waits.limited⟩
    | cons d ds ih =>
      have hhead := hds d List.mem_cons_self
      have htail d' (hd' : d' ∈ ds) := hds d' (List.mem_cons_of_mem d hd')
      simp only [meets, List.map_cons, List.cons_append, List.mem_cons, not_or, exists_eq_or_imp]
      rcases h.takeDelivery now hhead with ⟨hclient, hgranted, hphase⟩ | hnext
      · refine Or.inl ⟨hclient, hgranted, Or.inr ?_⟩
        exact hphase ▸ phase_mem_meets now ds (s.takeDelivery now d)
      · rcases ih hnext fun d' hd' => (htail d' hd').mono fun _ hid => hid.mono id Or.inl with
          ⟨hclient, hgranted, hmem⟩ | ⟨hmem, hlast⟩
        · -- a client has granted nothing in the meantime
          refine Or.inl ⟨hclient, hgranted.resolve_right fun hgrants => ?_, Or.inr hmem⟩
          cases hclient.symm.trans hgrants.1
        · refine Or.inr ⟨⟨h.phase_ne.symm, hmem⟩, ?_⟩
          exact hlast.mono fun _ hid => hid.mono id or_assoc.1
  rcases hrun with hclient | ⟨hmem, hlast⟩
  · exact Or.inl hclient
  · refine Or.inr ⟨hmem, fun entry hentry => hds entry.2 ?_, hlast⟩
    rw [← map_snd_meets now ds s]
    exact List.mem_map_of_mem hentry

theorem Limited.opened? (h : s.Limited role ids) {now : Nanoseconds} {packet : Octets}
    {ds : List Delivery} (hcarries : packet.Carries ids)
    (hopened : s.opened? now packet = some (ds, s')) :
    s'.Limited role ids ∧ ∀ d ∈ ds, d.payload.LedBy ids := by
  unfold Session.opened? at hopened
  split at hopened
  · cases hopened
  · split at hopened
    next d rest hread =>
      cases hopened
      obtain ⟨hout, hreceiver⟩ := h.receiver.receive (hcarries.reader hread)
      exact ⟨⟨h.role_eq, h.phase_ne, h.sender, hreceiver⟩, hout⟩
    · cases hopened

/-- A packet that brings no deliveries concerns the sender at most. -/
theorem Limited.receive_of_none (h : s.Limited role ids) {now : Nanoseconds} {packet : Octets}
    (hopened : s.opened? now packet = none) : (s.receive now packet).2.Limited role ids := by
  unfold Session.opened? at hopened
  unfold Session.receive
  split
  · exact h
  next hopen =>
    rw [if_neg hopen] at hopened
    split
    next p rest hread =>
      cases p with
      | datagram d =>
        rw [hread] at hopened
        cases hopened
      | acknowledgement a =>
        exact ⟨h.role_eq, h.phase_ne, h.sender.receive now a, h.receiver⟩
    · exact h.congr rfl h.phase_ne rfl

theorem Limited.receive (h : s.Limited role (Spoken begun granted)) (now : Nanoseconds)
    {packet : Octets} (hcarries : packet.Carries (Spoken begun granted)) :
    (role = .client ∧ granted ∧ .connected ∈ (s.handles (.receive now packet)).map Prod.fst
        ++ [(s.receive now packet).2.phase]) ∨
      (s.receive now packet).2.Waits role begun granted (s.handles (.receive now packet)) := by
  simp only [handles]
  cases hopened : s.opened? now packet with
  | none => exact Or.inr (h.receive_of_none hopened).waits
  | some result =>
    obtain ⟨ds, s'⟩ := result
    obtain ⟨h', hds⟩ := h.opened? hcarries hopened
    rw [receive_of_opened hopened]
    exact h'.takeDeliveries now hds

/-! ## What is sent -/

theorem Limited.flush (h : s.Limited role ids) (now : Nanoseconds) :
    (∀ packet ∈ (s.flush now).1, packet.Carries ids) ∧ (s.flush now).2.Limited role ids := by
  show (∀ packet ∈ (s.flushPackets now).1.map Packet.encode, packet.Carries ids) ∧
    (s.flushPackets now).2.Limited role ids
  unfold flushPackets
  split
  · exact ⟨nofun, h⟩
  · obtain ⟨hsender, hout⟩ := h.sender.flush now s.settings.maxDatagramsPerTick
    have hsent : Limited role ids { s with
        link := (s.link.flushPackets now s.settings.maxDatagramsPerTick).2 } :=
      ⟨h.role_eq, h.phase_ne, hsender, h.receiver.congr rfl rfl⟩
    refine ⟨fun packet hpacket => ?_, ?_⟩
    · obtain ⟨p, hp, rfl⟩ := List.mem_map.1 hpacket
      rcases List.mem_append.1 hp with hack | hdatagram
      · obtain ⟨a, -, rfl⟩ := List.mem_map.1 hack
        exact ⟨.acknowledgement a, trivial, rfl⟩
      · obtain ⟨d, hd, rfl⟩ := List.mem_map.1 hdatagram
        exact ⟨.datagram d, hout d hd, rfl⟩
    · simp only
      split
      · refine Limited.close ?_ _
        exact hsent.congr rfl hsent.phase_ne rfl
      · exact hsent

/-- **Whatever is done with a session that is not connected**, a client is connected by it because
it was granted, or the session waits and sends nothing but what is spoken. -/
theorem Limited.perform (h : s.Limited role (Spoken begun granted)) {op : Operation}
    (hop : op ≠ .completeLogin) (hbegun : (∃ now, op = .beginLogin now) → role = .client → begun)
    (hcarries : ∀ now packet, op = .receive now packet →
      packet.Carries (Spoken begun granted)) :
    (role = .client ∧ granted ∧
        .connected ∈ (s.handles op).map Prod.fst ++ [(s.perform op).2.phase]) ∨
      (s.perform op).2.Waits role begun granted (s.handles op) ∧
        ∀ packet ∈ (s.perform op).1.packetList, packet.Carries (Spoken begun granted) := by
  have hnone : ∀ packet ∈ ([] : List Octets), packet.Carries (Spoken begun granted) :=
    List.forall_mem_nil _
  cases op with
  | beginLogin now => exact Or.inr ⟨(h.beginLogin (hbegun ⟨now, rfl⟩) now).waits, hnone⟩
  | completeLogin => exact absurd rfl hop
  | send r channel payload =>
    have hrefused : s.send r channel payload = .error .notConnected := if_neg h.phase_ne
    simp only [Session.perform, hrefused]
    exact Or.inr ⟨h.waits, hnone⟩
  | disconnect => exact Or.inr ⟨h.disconnect.waits, hnone⟩
  | tick now => exact Or.inr ⟨(h.tick now).waits, hnone⟩
  | flush now =>
    obtain ⟨hpackets, hflushed⟩ := h.flush now
    exact Or.inr ⟨hflushed.waits, hpackets⟩
  | receive now packet =>
    have hreceived := h.receive now (hcarries now packet rfl)
    simp only [Session.perform]
    generalize s.receive now packet = received at hreceived ⊢
    obtain ⟨_ | _, s'⟩ := received
    · exact hreceived.imp_right fun hwaits => ⟨hwaits, hnone⟩
    · exact hreceived.imp_right fun hwaits => ⟨hwaits, hnone⟩
  | takeEvents =>
    have htaken : s.takeEvents.2.Limited role (Spoken begun granted) :=
      h.congr rfl h.phase_ne rfl
    exact Or.inr ⟨htaken.waits, hnone⟩

end Limited

/-! ## Any run

As long as the client has not been connected, both sessions are limited to what is spoken, and so
are all packets that they have sent. A fair step keeps that or connects the client, for the right
reason. Once the client has been connected there is nothing left to keep: the server can be
connected only behind it, whatever it hears, as it has not been connected before. -/

namespace Course

variable {start : Role → Session} {steps : Course}

/-- Nothing was granted that was not begun, and neither end knows more than that. -/
structure Pending (start : Role → Session) (steps : Course) : Prop where
  begun : steps.Granted start → steps.Begun
  limited : ∀ role,
    (steps.party start role).Limited role (Spoken steps.Begun (steps.Granted start))
  carries : ∀ role, ∀ packet ∈ steps.sent start role,
    packet.Carries (Spoken steps.Begun (steps.Granted start))

/-- How far the two have come in the login. -/
structure Agrees (start : Role → Session) (steps : Course) : Prop where
  client : steps.Opened start .client → steps.Begun ∧ steps.Granted start
  server : steps.Opened start .server → steps.Opened start .client
  pending : ¬steps.Opened start .client → steps.Pending start

variable {role : Role} {op : Operation}

/-- A step that can happen connects the client, which was granted, or leaves its session waiting. -/
theorem Pending.perform (h : steps.Pending start) (hallowed : steps.Allows start (role, op)) :
    let s := steps.party start role
    let spoken := Spoken (Begun (steps ++ [(role, op)])) (steps.Granted start)
    (role = .client ∧ steps.Granted start ∧
        .connected ∈ (s.handles op).map Prod.fst ++ [(s.perform op).2.phase]) ∨
      (s.perform op).2.Waits role (Begun (steps ++ [(role, op)])) (steps.Granted start)
          (s.handles op) ∧
        ∀ packet ∈ (s.perform op).1.packetList, packet.Carries spoken := by
  intro s spoken
  have himp : ∀ id, Spoken steps.Begun (steps.Granted start) id → spoken id := fun _ hid =>
    hid.mono (fun hbegun => begun_snoc.2 (Or.inl hbegun)) id
  refine ((h.limited role).mono himp).perform ?_ ?_ ?_
  · rintro rfl
    exact hallowed
  · intro hbegin hrole
    exact begun_snoc.2 (Or.inr ⟨hrole, hbegin⟩)
  · rintro now packet rfl
    exact (h.carries role.peer packet hallowed).mono himp

theorem Pending.snoc (h : steps.Pending start)
    (hwaits : ((steps.party start role).perform op).2.Waits role (Begun (steps ++ [(role, op)]))
      (steps.Granted start) ((steps.party start role).handles op))
    (hpackets : ∀ packet ∈ ((steps.party start role).perform op).1.packetList,
      packet.Carries (Spoken (Begun (steps ++ [(role, op)])) (steps.Granted start))) :
    Pending start (steps ++ [(role, op)]) := by
  have hbegun : steps.Begun → Begun (steps ++ [(role, op)]) := fun hb => begun_snoc.2 (Or.inl hb)
  have hgranted : steps.Granted start → Granted start (steps ++ [(role, op)]) :=
    fun hg => granted_snoc.2 (Or.inl hg)
  refine ⟨fun hg => ?_, fun other => ?_, fun other packet hpacket => ?_⟩
  · rcases granted_snoc.1 hg with hg | ⟨rfl, entry, hentry, -, hopen⟩
    · exact hbegun (h.begun hg)
    · exact begun_of_isOpenRequest (hwaits.heard entry hentry) hopen
  · rw [party_snoc]
    split
    next heq =>
      subst heq
      refine hwaits.limited.mono fun _ hid => hid.mono id ?_
      rintro (hg | ⟨entry, hentry, rfl, hgrants⟩)
      · exact hgranted hg
      · exact granted_snoc.2 (Or.inr ⟨rfl, entry, hentry, hgrants⟩)
    next => exact (h.limited other).mono fun _ hid => hid.mono hbegun hgranted
  · rw [sent_snoc] at hpacket
    rcases List.mem_append.1 hpacket with hold | hnew
    · exact (h.carries other packet hold).mono fun _ hid => hid.mono hbegun hgranted
    · split at hnew
      next heq =>
        subst heq
        exact (hpackets packet hnew).mono fun _ hid => hid.mono id hgranted
      next => cases hnew

/-- **One more step**: who is connected by it was preceded by the other, as far as the login
goes. -/
theorem Agrees.snoc (h : steps.Agrees start) (hallowed : steps.Allows start (role, op)) :
    Agrees start (steps ++ [(role, op)]) ∧
      (Opened start (steps ++ [(role, op)]) .server → steps.Opened start .client) ∧
      (Opened start (steps ++ [(role, op)]) .client → steps.Begun ∧ steps.Granted start) := by
  have hfurther : steps.Begun ∧ steps.Granted start →
      Begun (steps ++ [(role, op)]) ∧ Granted start (steps ++ [(role, op)]) := fun ⟨hb, hg⟩ =>
    ⟨begun_snoc.2 (Or.inl hb), granted_snoc.2 (Or.inl hg)⟩
  by_cases hclient : steps.Opened start .client
  · -- for the client the login is over, and all that is claimed has happened
    have hstill : Opened start (steps ++ [(role, op)]) .client := opened_snoc.2 (Or.inl hclient)
    have hall := h.client hclient
    exact ⟨⟨fun _ => hfurther hall, fun _ => hstill, fun hno => absurd hstill hno⟩,
      fun _ => hclient, fun _ => hall⟩
  · have hpending := h.pending hclient
    have hneither (other : Role) : ¬steps.Opened start other := by
      cases other with
      | client => exact hclient
      | server => exact fun ho => hclient (h.server ho)
    rcases hpending.perform hallowed with ⟨rfl, hg, hmem⟩ | ⟨hwaits, hpackets⟩
    · have hnow : Opened start (steps ++ [(.client, op)]) .client :=
        opened_snoc.2 (Or.inr ⟨rfl, hmem⟩)
      have hserver : ¬Opened start (steps ++ [(.client, op)]) .server := fun ho =>
        (opened_snoc.1 ho).elim (hneither .server) fun hnew => nomatch hnew.1
      have hall := And.intro (hpending.begun hg) hg
      exact ⟨⟨fun _ => hfurther hall, fun _ => hnow, fun hno => absurd hnow hno⟩,
        fun ho => absurd ho hserver, fun _ => hall⟩
    · have hstill (other : Role) : ¬Opened start (steps ++ [(role, op)]) other := by
        intro ho
        rcases opened_snoc.1 ho with hold | ⟨rfl, hmem⟩
        · exact hneither other hold
        · exact hwaits.unopened hmem
      exact ⟨⟨fun ho => absurd ho (hstill .client), fun ho => absurd ho (hstill .server),
        fun _ => hpending.snoc hwaits hpackets⟩,
        fun ho => absurd ho (hstill .server), fun ho => absurd ho (hstill .client)⟩

/-- Two sessions at their beginning, each with settings, an address and so on of its own. -/
def fresh (settings : Role → Settings) (address : Role → Address) (guid : Role → UInt64)
    (mtu : Role → UInt16) (created : Role → Nanoseconds) (role : Role) : Session :=
  Session.fresh (settings role) role (address role) (guid role) (mtu role) (created role)

variable (settings : Role → Settings) (address : Role → Address) (guid : Role → UInt64)
  (mtu : Role → UInt16) (created : Role → Nanoseconds)

theorem agrees_fresh : Agrees (fresh settings address guid mtu created) [] where
  client := fun ho => nomatch List.mem_singleton.1 ho
  server := fun ho => nomatch List.mem_singleton.1 ho
  pending := by
    refine fun _ => ⟨?_, fun role => limited_fresh _ role _ _ _ _, fun _ => nofun⟩
    rintro ⟨entry, hentry, -⟩
    cases hentry

/-- **The two agree on the login.** In any run in which the network makes up nothing and nobody says
from outside that the login is complete: when the server is connected the client was so before, and
when the client is connected it had been told to begin and the server had dealt with a request
without security while it was in the login. -/
theorem login_agrees {steps : Course}
    (hfair : steps.Fair (fresh settings address guid mtu created)) :
    let start := fresh settings address guid mtu created
    (steps.Opened start .server → Opened start steps.dropLast .client) ∧
      (steps.Opened start .client → Begun steps.dropLast ∧ Granted start steps.dropLast) := by
  intro start
  have hrun : steps.Agrees start ∧
      (steps.Opened start .server → Opened start steps.dropLast .client) ∧
      (steps.Opened start .client → Begun steps.dropLast ∧ Granted start steps.dropLast) := by
    induction steps using List.reverseRecOn with
    | nil =>
      have hnone := agrees_fresh settings address guid mtu created
      exact ⟨hnone, hnone.server, hnone.client⟩
    | append_singleton steps step ih =>
      obtain ⟨hearlier, hallowed⟩ := hfair.earlier
      rw [List.dropLast_concat]
      exact (ih hearlier).1.snoc hallowed
  exact hrun.2

/-- One session receives a packet that the other has sent before. -/
def bring (start : Role → Session) (role : Role) (n : Nat) (steps : Course) : Course :=
  steps ++ [(role, .receive 0 ((steps.sent start role.peer).getD n []))]

def plain : Role → Session :=
  fresh (fun _ => {}) (fun _ => ⟨.v4 0, 0⟩) (fun _ => 0) (fun _ => 1464) (fun _ => 0)

/-- A login that is begun twice, with a packet that arrives twice and others that never do. -/
def loggedIn : Course :=
  let asked : Course := [(.client, .beginLogin 0), (.client, .beginLogin 0), (.client, .flush 0)]
  let granted := bring plain .server 0 (bring plain .server 0 asked ++ [(.server, .flush 0)])
  let accepted := bring plain .client 1 granted ++ [(.client, .flush 0)]
  bring plain .server 2 accepted

theorem login_agrees_loggedIn : loggedIn.Fair plain ∧ loggedIn.Opened plain .server ∧
    Opened plain loggedIn.dropLast .client ∧ Begun loggedIn.dropLast ∧
    Granted plain loggedIn.dropLast :=
  have hfair : loggedIn.Fair plain := by decide +kernel
  have hagrees := login_agrees _ _ _ _ _ hfair
  have hserver : loggedIn.Opened plain .server := by unfold Opened; decide +kernel
  have hclient : loggedIn.Opened plain .client := by unfold Opened; decide +kernel
  ⟨hfair, hserver, hagrees.1 hserver, hagrees.2 hclient⟩

end Course

end Session

end DatagramTransport

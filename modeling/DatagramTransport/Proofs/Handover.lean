import DatagramTransport.Proofs.Conduct

/-!
# Handover — what becomes of what the link brings

A session stands between its link and the application. Of what the link brings it keeps the control
messages to itself and hands on the rest, by one of two ways: until the login is complete a message
is held back, and from then on it is told at once. **The two ways make one sequence**, in the order
of the link, without a message too many or too few.

The session can move on in the middle of a datagram, and what is behind that in the datagram meets
it in the next phase. So the account is kept message by message: `handled` are all messages that the
session dealt with, each with the phase that it met, and `phases` all phases it went through. Which
messages are handed on depends on these two alone.
-/

set_option autoImplicit false

namespace DatagramTransport

namespace Event

/-- The message that is told, with its channel. -/
def message? : Event → Option (UInt8 × Octets)
  | message channel payload => some (channel, payload)
  | _ => none

def messages (es : List Event) : List (UInt8 × Octets) := es.filterMap message?

@[simp] theorem messages_append (es fs : List Event) :
    messages (es ++ fs) = messages es ++ messages fs :=
  List.filterMap_append

@[simp] theorem messages_map_receipt (receipts : List Receipt) :
    messages (receipts.map .receipt) = [] := by
  induction receipts with
  | nil => rfl
  | cons receipt receipts ih => exact ih

end Event

/-- The payload is neither empty nor the session's own business. -/
def Delivery.isForApplication (d : Delivery) : Bool :=
  match d.payload with
  | [] => false
  | id :: _ => !ControlId.isConnected id

/-- Messages for the application are taken in this phase, to be told now or later. -/
def Phase.isOpen : Phase → Bool
  | handshaking | connected => true
  | disconnecting | disconnected => false

namespace Session

/-! ## What is dealt with, and when

The log is read off the code by replaying it: a delivery is paired with the phase of the session
that is about to deal with it, which is the session that has dealt with those before it. Nothing is
said about what becomes of the delivery, so the log does not depend on what is to be shown. -/

/-- What a packet brings and the session that is going to deal with it, if it is a datagram and the
session still listens. -/
def opened? (now : Nanoseconds) (packet : Octets) (s : Session) :
    Option (List Delivery × Session) :=
  if s.phase = .disconnected then none
  else
    match Packet.reader packet with
    | .ok (.datagram d, _) =>
      let (deliveries, link) := s.link.receiveDatagram d
      some (deliveries, { s with link := link, lastReceived := now })
    | _ => none

/-- The deliveries that a session deals with, each with the phase that it meets. -/
def meets (now : Nanoseconds) : List Delivery → Session → List (Phase × Delivery)
  | [], _ => []
  | d :: ds, s => (s.phase, d) :: meets now ds (s.takeDelivery now d)

def handles (op : Operation) (s : Session) : List (Phase × Delivery) :=
  match op with
  | .receive now packet =>
    match s.opened? now packet with
    | some (ds, s) => s.meets now ds
    | none => []
  | _ => []

/-- All deliveries of a run. -/
def handled : List Operation → Session → List (Phase × Delivery)
  | [], _ => []
  | op :: ops, s => s.handles op ++ handled ops (s.perform op).2

/-- The phases that a session goes through in a run, those in the middle of a datagram included. -/
def phases : List Operation → Session → List Phase
  | [], s => [s.phase]
  | op :: ops, s => s.phase :: ((s.handles op).map Prod.fst ++ phases ops (s.perform op).2)

/-- The session in the middle of a datagram, when it has dealt with so much of what the datagram
brings. -/
def partway (now : Nanoseconds) (packet : Octets) (n : Nat) (s : Session) : Session :=
  match s.opened? now packet with
  | some (ds, s) => s.takeDeliveries now (ds.take n)
  | none => s

/-- What is to be handed on, by its channel and its payload. -/
def forApplication (log : List (Phase × Delivery)) : List (UInt8 × Octets) :=
  (log.filter fun (phase, d) => phase.isOpen && d.isForApplication).map
    fun (_, d) => (d.channel, d.payload)

variable {s s' s'' : Session} {before : List Event} {past : List (Phase × Delivery)}
  {opened opened' : Prop}

/-- Nothing that the link brings is passed over, and nothing is dealt with twice. -/
@[simp] theorem map_snd_meets (now : Nanoseconds) (ds : List Delivery) (s : Session) :
    (s.meets now ds).map Prod.snd = ds := by
  induction ds generalizing s with
  | nil => rfl
  | cons d ds ih => rw [meets, List.map_cons, ih]

theorem meets_take (now : Nanoseconds) (n : Nat) (ds : List Delivery) (s : Session) :
    s.meets now (ds.take n) = (s.meets now ds).take n := by
  induction ds generalizing s n with
  | nil => rw [List.take_nil, meets, List.take_nil]
  | cons d ds ih =>
    cases n with
    | zero => rfl
    | succ n => rw [List.take_succ_cons, meets, meets, List.take_succ_cons, ih]

theorem receive_of_opened {now : Nanoseconds} {packet : Octets} {ds : List Delivery}
    (h : s.opened? now packet = some (ds, s')) :
    s.receive now packet = (.ok (), s'.takeDeliveries now ds) := by
  unfold opened? at h
  unfold receive
  split at h
  · cases h
  next hopen =>
    rw [if_neg hopen]
    split at h
    next d rest hread =>
      cases h
      rw [hread]
      rfl
    · cases h

theorem phase_mem_meets (now : Nanoseconds) (ds : List Delivery) (s : Session) :
    s.phase ∈ (s.meets now ds).map Prod.fst ++ [(s.takeDeliveries now ds).phase] := by
  cases ds with
  | nil => exact List.mem_singleton_self _
  | cons d ds => exact List.mem_cons_self

theorem phase_mem_phases (ops : List Operation) (s : Session) : s.phase ∈ s.phases ops := by
  cases ops with
  | nil => exact List.mem_singleton_self _
  | cons op ops => exact List.mem_cons_self

theorem handled_snoc (ops : List Operation) (op : Operation) (s : Session) :
    s.handled (ops ++ [op]) = s.handled ops ++ (s.conduct ops).2.handles op := by
  unfold conduct
  induction ops generalizing s with
  | nil => exact List.append_nil _
  | cons first ops ih =>
    rw [List.cons_append, handled, handled, ih, Stepwise.collect_cons, List.append_assoc]

/-- The phases that one more operation adds. -/
theorem mem_phases_snoc {phase : Phase} (ops : List Operation) (op : Operation) (s : Session) :
    phase ∈ s.phases (ops ++ [op]) ↔ phase ∈ s.phases ops ∨
      phase ∈ ((s.conduct ops).2.handles op).map Prod.fst
        ++ [((s.conduct ops).2.perform op).2.phase] := by
  unfold conduct
  induction ops generalizing s with
  | nil => exact List.mem_cons.trans (or_congr_left List.mem_singleton.symm)
  | cons first ops ih =>
    simp only [List.cons_append, phases, List.mem_cons, List.mem_append, ih,
      Stepwise.collect_cons, or_assoc]

theorem forApplication_append (log more : List (Phase × Delivery)) :
    forApplication (log ++ more) = forApplication log ++ forApplication more := by
  rw [forApplication, List.filter_append, List.map_append]
  rfl

/-! ## The account, and what leaves it alone

The invariant has two cases. Until the login is complete nothing was told, and what is held back is
all that was for the application so far; from then on all of this was told, and what is held back
plays no part any more. `opened` stands for "has been connected" and only ever becomes true, so that
a session that was connected once is in the second case for good.

Most operations neither tell a message nor forget one that is held back (`Silent`). One thing they
may do is give up the login, and that is why `early` is about a session in the login only. -/

/-- What was told, before and in the events that wait, squares with what was dealt with; `opened`
says whether the session has been connected. -/
structure Conveys (before : List Event) (past : List (Phase × Delivery)) (opened : Prop)
    (s : Session) : Prop where
  told : opened → Event.messages (before ++ s.events.toList) = forApplication past
  untold : ¬opened → Event.messages (before ++ s.events.toList) = []
  early : s.phase = .handshaking →
    ¬opened ∧ Event.messages s.early.toList = forApplication past
  opened : s.phase = .connected → opened

theorem conveys_fresh (settings : Settings) (role : Role) (address : Address) (guid : UInt64)
    (mtu : UInt16) (now : Nanoseconds) :
    (fresh settings role address guid mtu now).Conveys [] [] False where
  told := False.elim
  untold := fun _ => rfl
  early := fun _ => ⟨id, rfl⟩
  opened := nofun

theorem Conveys.congr (h : s.Conveys before past opened) (hopened : opened ↔ opened') :
    s.Conveys before past opened' := by
  rwa [← propext hopened]

/-- The session tells no message and forgets none, except that it may give up the login. -/
structure Silent (s s' : Session) : Prop where
  messages_eq : Event.messages s'.events.toList = Event.messages s.events.toList
  early_eq : s'.phase = .handshaking → s.phase = .handshaking ∧ s'.early = s.early
  connected : s'.phase = .connected → s.phase = .connected

theorem Silent.refl (s : Session) : s.Silent s := ⟨rfl, fun h => ⟨h, rfl⟩, id⟩

theorem Silent.trans (h : s.Silent s') (h' : s'.Silent s'') : s.Silent s'' where
  messages_eq := h'.messages_eq.trans h.messages_eq
  early_eq := by
    intro hphase
    obtain ⟨hphase', hearly'⟩ := h'.early_eq hphase
    obtain ⟨hphase, hearly⟩ := h.early_eq hphase'
    exact ⟨hphase, hearly'.trans hearly⟩
  connected := h.connected ∘ h'.connected

theorem Rests.silent (h : s.Rests s') : s.Silent s' where
  messages_eq := by rw [h.events_eq]
  early_eq := fun hphase => ⟨h.phase_eq ▸ hphase, h.early_eq⟩
  connected := fun hphase => h.phase_eq ▸ hphase

theorem silent_emitReceipts (receipts : List Receipt) (s : Session) :
    s.Silent (s.emitReceipts receipts) where
  messages_eq := by
    show Event.messages (s.events.append (receipts.map .receipt)).toList = _
    rw [Fifo.toList_append, Event.messages_append, Event.messages_map_receipt, List.append_nil]
  early_eq := fun hphase => ⟨hphase, rfl⟩
  connected := id

theorem silent_close (reason : CloseReason) (s : Session) : s.Silent (s.close reason) := by
  unfold close
  split
  · exact Silent.refl s
  · refine ⟨?_, nofun, nofun⟩
    show Event.messages (s.events.append [.disconnected reason]).toList = _
    rw [Fifo.toList_append, Event.messages_append]
    exact List.append_nil _

theorem silent_disconnect (s : Session) : s.Silent s.disconnect := by
  unfold disconnect
  split
  · exact Silent.refl s
  · have hcleared : s.Silent { s with link := s.link.clear } := ⟨rfl, fun h => ⟨h, rfl⟩, id⟩
    have hrests := rests_sendControl (r := .unreliable) rfl .disconnectionNotification
      { s with link := s.link.clear }
    refine hcleared.trans ?_
    exact ⟨congrArg (Event.messages ·.toList) hrests.events_eq, nofun, nofun⟩

theorem silent_takeRequest (now : Nanoseconds) (timestamp : Int64) (useSecurity : Bool)
    (s : Session) : s.Silent (s.takeRequest now timestamp useSecurity) := by
  unfold takeRequest
  split
  · split
    · have hrests := rests_sendControl (r := .reliableOrdered) rfl .connectionAttemptFailed s
      exact ⟨congrArg (Event.messages ·.toList) hrests.events_eq, nofun, nofun⟩
    · exact (rests_sendControl rfl _ s).silent
  · exact Silent.refl s

theorem silent_tick (now : Nanoseconds) (s : Session) : s.Silent (s.tick now) := by
  unfold tick
  split
  · exact Silent.refl s
  · split
    · exact silent_close _ s
    · have hlink : s.Silent { s with link := (s.link.tick now).2 } :=
        ⟨rfl, fun h => ⟨h, rfl⟩, id⟩
      have hticked := hlink.trans (silent_emitReceipts (s.link.tick now).1 _)
      simp only
      split
      · exact hticked.trans ((rests_pingIfDue now _).trans (rests_probeIfDue now _)).silent
      · exact hticked

theorem silent_flush (now : Nanoseconds) (s : Session) : s.Silent (s.flush now).2 := by
  show s.Silent (s.flushPackets now).2
  unfold flushPackets
  split
  · exact Silent.refl s
  · have hsent : s.Silent
        { s with link := (s.link.flushPackets now s.settings.maxDatagramsPerTick).2 } :=
      ⟨rfl, fun h => ⟨h, rfl⟩, id⟩
    simp only
    split
    · refine hsent.trans (Silent.trans ?_ (silent_close _ _))
      exact ⟨rfl, fun h => ⟨h, rfl⟩, id⟩
    · exact hsent

theorem silent_send {r : Reliability} {channel : UInt8} {payload : Octets}
    {receipt : Option UInt32} (h : s.send r channel payload = .ok (receipt, s')) :
    s.Silent s' := by
  unfold send at h
  split at h
  · split at h
    · cases h
    · cases h
      exact ⟨rfl, fun h => ⟨h, rfl⟩, id⟩
  · cases h

theorem Conveys.keep (h : s.Conveys before past opened) (hsilent : s.Silent s') :
    s'.Conveys before past opened := by
  refine ⟨?_, ?_, fun hphase => ?_, fun hphase => h.opened (hsilent.connected hphase)⟩
  · rw [Event.messages_append, hsilent.messages_eq, ← Event.messages_append]
    exact h.told
  · rw [Event.messages_append, hsilent.messages_eq, ← Event.messages_append]
    exact h.untold
  · obtain ⟨hphase, hearly⟩ := hsilent.early_eq hphase
    rw [hearly]
    exact h.early hphase

/-- A session that is connected has been so. -/
theorem Conveys.opened_iff (h : s.Conveys before past opened) :
    opened ↔ opened ∨ s.phase = .connected :=
  ⟨Or.inl, fun ho => ho.elim id h.opened⟩

theorem Conveys.silent (h : s.Conveys before past opened) (hsilent : s.Silent s') :
    s'.Conveys before past (opened ∨ s'.phase = .connected) :=
  (h.keep hsilent).congr (h.keep hsilent).opened_iff

/-! ## What adds to it

A delivery is one of three: the session's own, a message for the application, or nothing that anyone
deals with. The first may complete the login, and then the events of what was held back are added
before anything that follows in the datagram. The second adds the same message to the log and to the
events, or to what is held back. -/

/-- **The end of the login hands on what was held back**, and that is all there was. -/
theorem Conveys.completeLogin (h : s.Conveys before past opened) :
    s.completeLogin.Conveys before past (opened ∨ s.completeLogin.phase = .connected) := by
  unfold Session.completeLogin
  split
  next hphase =>
    obtain ⟨hnot, hearly⟩ := h.early hphase
    refine ⟨fun _ => ?_, fun hno => absurd (Or.inr rfl) hno, nofun, Or.inr⟩
    show Event.messages (before ++ (s.events.append (.connected :: s.early.toList)).toList) = _
    rw [Fifo.toList_append, ← List.append_assoc, Event.messages_append, h.untold hnot,
      List.nil_append]
    exact hearly
  next => exact h.silent (Silent.refl s)

theorem Conveys.takeControl (h : s.Conveys before past opened) (now : Nanoseconds)
    (m : ControlMessage) :
    (s.takeControl now m).Conveys before past
      (opened ∨ (s.takeControl now m).phase = .connected) := by
  cases m with
  | connectedPing timestamp =>
    unfold Session.takeControl
    exact h.silent (rests_sendControl rfl _ s).silent
  | connectedPong timestamp _ => exact h.silent (rests_takePong now timestamp s).silent
  | detectLostConnections => exact h.silent (rests_sendPing now s).silent
  | connectionRequest _ timestamp useSecurity =>
    exact h.silent (silent_takeRequest now timestamp useSecurity s)
  | connectionRequestAccepted _ _ _ timestamp =>
    show (s.takeAcceptance now timestamp).Conveys _ _ (_ ∨ (s.takeAcceptance _ _).phase = _)
    unfold takeAcceptance
    split
    next hlogin =>
      -- the answer goes into the queue first, and the session is in the login still
      have hrests := rests_sendControl (r := .reliableOrdered) rfl
        (.newIncomingConnection s.address timestamp (s.timestamp now)) s
      exact (h.keep hrests.silent).completeLogin
    next => exact h.silent (Silent.refl s)
  | newIncomingConnection _ _ _ =>
    unfold Session.takeControl
    simp only
    split
    · exact h.completeLogin
    · exact h.silent (Silent.refl s)
  | connectionAttemptFailed =>
    unfold Session.takeControl
    simp only
    split
    · exact h.silent (silent_close _ s)
    · exact h.silent (Silent.refl s)
  | disconnectionNotification | connectionLost => exact h.silent (silent_close _ s)
  | _ => exact h.silent (Silent.refl s)

/-- What is not for the application leaves no trace in the account. -/
theorem Conveys.pass (h : s.Conveys before past opened) {phase : Phase} {d : Delivery}
    (hpass : (phase.isOpen && d.isForApplication) = false) :
    s.Conveys before (past ++ [(phase, d)]) opened := by
  have hsame : forApplication (past ++ [(phase, d)]) = forApplication past := by
    simp only [forApplication, List.filter_append, List.filter_cons, hpass, List.filter_nil,
      Bool.false_eq_true, if_false, List.append_nil]
  refine ⟨?_, h.untold, ?_, h.opened⟩
  · rw [hsame]
    exact h.told
  · rw [hsame]
    exact h.early

/-- A message for the application is told, held back or dropped, as the phase says. -/
theorem Conveys.takeMessage (h : s.Conveys before past opened) {d : Delivery}
    (hd : d.isForApplication = true) :
    (s.takeMessage d.channel d.payload).Conveys before (past ++ [(s.phase, d)])
      (opened ∨ (s.takeMessage d.channel d.payload).phase = .connected) := by
  have hnext (hphase : s.phase.isOpen = true) : forApplication (past ++ [(s.phase, d)])
      = forApplication past ++ [(d.channel, d.payload)] := by
    rw [forApplication_append]
    simp only [forApplication, List.filter_cons, hphase, hd, List.filter_nil, Bool.and_self,
      if_true, List.map_cons, List.map_nil]
  have hdropped (hphase : s.phase.isOpen = false) :
      s.Conveys before (past ++ [(s.phase, d)]) (opened ∨ s.phase = .connected) :=
    (h.silent (Silent.refl s)).pass (by rw [hphase, Bool.false_and])
  cases hphase : s.phase with
  | connected =>
    have htold : s.takeMessage d.channel d.payload = s.emit [.message d.channel d.payload] := by
      simp only [Session.takeMessage, hphase]
    rw [htold]
    rw [hphase] at hnext
    refine ⟨fun _ => ?_, fun hno => absurd (Or.inr hphase) hno, fun hlogin => ?_,
      fun _ => Or.inr hphase⟩
    · show Event.messages (before ++ (s.events.append [.message d.channel d.payload]).toList) = _
      rw [Fifo.toList_append, ← List.append_assoc, Event.messages_append,
        h.told (h.opened hphase), hnext rfl]
      rfl
    · rw [show s.phase = .handshaking from hlogin] at hphase
      cases hphase
  | handshaking =>
    have hheld : s.takeMessage d.channel d.payload
        = { s with early := s.early.append [.message d.channel d.payload] } := by
      simp only [Session.takeMessage, hphase]
    obtain ⟨hnot, hearly⟩ := h.early hphase
    rw [hheld]
    rw [hphase] at hnext
    have hno : ¬(opened ∨ s.phase = .connected) := by
      rw [hphase]
      exact fun ho => ho.elim hnot nofun
    refine ⟨fun ho => absurd ho hno, fun _ => h.untold hnot, fun _ => ⟨hno, ?_⟩, Or.inr⟩
    show Event.messages (s.early.append [.message d.channel d.payload]).toList = _
    rw [Fifo.toList_append, Event.messages_append, hearly, hnext rfl]
    rfl
  | disconnecting | disconnected =>
    have hsame : s.takeMessage d.channel d.payload = s := by
      simp only [Session.takeMessage, hphase]
    rw [hphase] at hdropped
    rw [hsame, hphase]
    exact hdropped rfl

theorem Conveys.takeDelivery (h : s.Conveys before past opened) (now : Nanoseconds)
    (d : Delivery) :
    (s.takeDelivery now d).Conveys before (past ++ [(s.phase, d)])
      (opened ∨ (s.takeDelivery now d).phase = .connected) := by
  cases hpayload : d.payload with
  | nil =>
    have hnone : s.takeDelivery now d = s := by simp only [Session.takeDelivery, hpayload]
    rw [hnone]
    refine (h.silent (Silent.refl s)).pass ?_
    simp only [Delivery.isForApplication, hpayload, Bool.and_false]
  | cons id rest =>
    cases hid : ControlId.isConnected id with
    | true =>
      have hpass : (s.phase.isOpen && d.isForApplication) = false := by
        simp only [Delivery.isForApplication, hpayload, hid, Bool.not_true, Bool.and_false]
      refine Conveys.pass ?_ hpass
      simp only [Session.takeDelivery, hpayload, hid, if_true]
      split
      · exact h.takeControl now _
      · exact h.silent ⟨rfl, fun hphase => ⟨hphase, rfl⟩, fun hphase => hphase⟩
    | false =>
      have htaken : s.takeDelivery now d = s.takeMessage d.channel d.payload := by
        simp only [Session.takeDelivery, hpayload, hid, Bool.false_eq_true, if_false]
      rw [htaken]
      refine h.takeMessage ?_
      simp only [Delivery.isForApplication, hpayload, hid, Bool.not_false]

/-- **Each delivery is accounted for in the phase that it meets.** -/
theorem Conveys.takeDeliveries (h : s.Conveys before past opened) (now : Nanoseconds)
    (ds : List Delivery) :
    (s.takeDeliveries now ds).Conveys before (past ++ s.meets now ds)
      (opened ∨ .connected ∈ (s.meets now ds).map Prod.fst ++
        [(s.takeDeliveries now ds).phase]) := by
  induction ds generalizing s past opened with
  | nil =>
    rw [meets, List.append_nil]
    refine h.congr ⟨Or.inl, fun ho => ho.elim id fun hmem => h.opened ?_⟩
    exact (List.mem_singleton.1 hmem).symm
  | cons d ds ih =>
    have hrest := ih (h.takeDelivery now d)
    have hmem := phase_mem_meets now ds (s.takeDelivery now d)
    rw [List.append_assoc] at hrest
    refine Conveys.congr hrest ?_
    rw [meets, List.map_cons, List.cons_append, List.mem_cons]
    constructor
    · rintro ((ho | hphase) | hlater)
      · exact Or.inl ho
      · exact Or.inr (Or.inr (hphase ▸ hmem))
      · exact Or.inr (Or.inr hlater)
    · rintro (ho | hnow | hlater)
      · exact Or.inl (Or.inl ho)
      · exact Or.inl (Or.inl (h.opened hnow.symm))
      · exact Or.inr hlater

/-! ## Any run -/

/-- A packet that brings no deliveries brings receipts at most. -/
theorem silent_receive {now : Nanoseconds} {packet : Octets}
    (h : s.opened? now packet = none) : s.Silent (s.receive now packet).2 := by
  unfold opened? at h
  unfold Session.receive
  split
  · exact Silent.refl s
  next hopen =>
    rw [if_neg hopen] at h
    split
    next p rest hread =>
      cases p with
      | datagram d =>
        rw [hread] at h
        cases h
      | acknowledgement a =>
        have hheard : s.Silent { s with
            link := (s.link.receiveAcknowledgement now a).2, lastReceived := now } :=
          ⟨rfl, fun h => ⟨h, rfl⟩, id⟩
        exact hheard.trans (silent_emitReceipts _ _)
    · exact ⟨rfl, fun h => ⟨h, rfl⟩, id⟩

theorem silent_opened {now : Nanoseconds} {packet : Octets} {ds : List Delivery}
    (h : s.opened? now packet = some (ds, s')) : s.Silent s' := by
  unfold opened? at h
  split at h
  · cases h
  · split at h
    · cases h
      exact ⟨rfl, fun h => ⟨h, rfl⟩, id⟩
    · cases h

theorem Conveys.receive (h : s.Conveys before past opened) (now : Nanoseconds)
    (packet : Octets) :
    (s.receive now packet).2.Conveys before (past ++ s.handles (.receive now packet))
      (opened ∨ .connected ∈ (s.handles (.receive now packet)).map Prod.fst ++
        [(s.receive now packet).2.phase]) := by
  simp only [handles]
  cases hopened : s.opened? now packet with
  | none =>
    rw [List.append_nil, List.map_nil, List.nil_append, List.mem_singleton]
    exact (h.silent (silent_receive hopened)).congr (or_congr_right eq_comm)
  | some result =>
    obtain ⟨ds, s'⟩ := result
    rw [receive_of_opened hopened]
    exact (h.keep (silent_opened hopened)).takeDeliveries now ds

/-- In the middle of a datagram the account is as good as behind it. -/
theorem Conveys.partway (h : s.Conveys before past opened) (now : Nanoseconds)
    (packet : Octets) (n : Nat) :
    (s.partway now packet n).Conveys before (past ++ (s.handles (.receive now packet)).take n)
      (opened ∨ .connected ∈ ((s.handles (.receive now packet)).take n).map Prod.fst ++
        [(s.partway now packet n).phase]) := by
  simp only [handles, Session.partway]
  cases hopened : s.opened? now packet with
  | none =>
    rw [List.take_nil, List.append_nil, List.map_nil, List.nil_append, List.mem_singleton]
    exact (h.silent (Silent.refl s)).congr (or_congr_right eq_comm)
  | some result =>
    obtain ⟨ds, s'⟩ := result
    simp only
    rw [← meets_take]
    exact (h.keep (silent_opened hopened)).takeDeliveries now (ds.take n)

theorem Conveys.takeEvents (h : s.Conveys before past opened) :
    s.takeEvents.2.Conveys (before ++ s.takeEvents.1) past opened := by
  have hall : before ++ s.takeEvents.1 ++ s.takeEvents.2.events.toList
      = before ++ s.events.toList := List.append_nil _
  refine ⟨?_, ?_, h.early, h.opened⟩
  · rw [hall]
    exact h.told
  · rw [hall]
    exact h.untold

theorem Conveys.perform (h : s.Conveys before past opened) (op : Operation) :
    (s.perform op).2.Conveys (before ++ (s.perform op).1.eventList) (past ++ s.handles op)
      (opened ∨ .connected ∈ (s.handles op).map Prod.fst ++ [(s.perform op).2.phase]) := by
  -- nothing comes of most operations but another state
  have hquiet {answer : Answer} {s' : Session} (hanswer : answer.eventList = [])
      (h' : s'.Conveys before past (opened ∨ s'.phase = .connected)) :
      s'.Conveys (before ++ answer.eventList) (past ++ [])
        (opened ∨ .connected ∈ ([] : List (Phase × Delivery)).map Prod.fst ++ [s'.phase]) := by
    rw [hanswer, List.append_nil, List.append_nil, List.map_nil, List.nil_append,
      List.mem_singleton]
    exact h'.congr (or_congr_right eq_comm)
  cases op with
  | beginLogin now => exact hquiet rfl (h.silent (rests_beginLogin now s).silent)
  | completeLogin => exact hquiet rfl h.completeLogin
  | send r channel payload =>
    simp only [Session.perform]
    split
    · exact hquiet rfl (h.silent (Silent.refl s))
    next hsend => exact hquiet rfl (h.silent (silent_send hsend))
  | disconnect => exact hquiet rfl (h.silent (silent_disconnect s))
  | tick now => exact hquiet rfl (h.silent (silent_tick now s))
  | flush now => exact hquiet rfl (h.silent (silent_flush now s))
  | receive now packet =>
    have hreceived := h.receive now packet
    simp only [Session.perform]
    generalize s.receive now packet = received at hreceived ⊢
    obtain ⟨_ | _, s'⟩ := received
    · rwa [show Answer.eventList (.malformed _) = [] from rfl, List.append_nil]
    · rwa [show Answer.eventList .done = [] from rfl, List.append_nil]
  | takeEvents =>
    show s.takeEvents.2.Conveys (before ++ s.takeEvents.1) (past ++ []) _
    rw [List.append_nil]
    exact h.takeEvents.congr (h.opened_iff.trans (or_congr_right
      (eq_comm.trans List.mem_singleton.symm)))

/-- **Whatever is done with a session, what was told squares with what was dealt with.** -/
theorem Conveys.conduct (h : s.Conveys before past opened) (ops : List Operation) :
    (s.conduct ops).2.Conveys (before ++ (s.conduct ops).1.flatMap Answer.eventList)
      (past ++ s.handled ops) (opened ∨ .connected ∈ s.phases ops) := by
  unfold Session.conduct
  induction ops generalizing s before past opened with
  | nil =>
    rw [Stepwise.collect_nil, List.flatMap_nil, handled, phases, List.append_nil, List.append_nil]
    exact h.congr (h.opened_iff.trans (or_congr_right
      (eq_comm.trans List.mem_singleton.symm)))
  | cons op ops ih =>
    have hrest := ih (h.perform op)
    have hmem := phase_mem_phases ops (s.perform op).2
    rw [Stepwise.collect_cons, List.flatMap_cons, handled, ← List.append_assoc,
      ← List.append_assoc]
    refine Conveys.congr hrest ?_
    rw [phases, List.mem_cons, List.mem_append, List.mem_append, List.mem_singleton]
    constructor
    · rintro ((ho | hmet | hnext) | hlater)
      · exact Or.inl ho
      · exact Or.inr (Or.inr (Or.inl hmet))
      · exact Or.inr (Or.inr (Or.inr (hnext ▸ hmem)))
      · exact Or.inr (Or.inr (Or.inr hlater))
    · rintro (ho | hnow | hmet | hlater)
      · exact Or.inl (Or.inl ho)
      · exact Or.inl (Or.inl (h.opened hnow.symm))
      · exact Or.inl (Or.inr (Or.inl hmet))
      · exact Or.inr hlater

theorem Conveys.messages_eq [Decidable opened] (h : s.Conveys before past opened) :
    Event.messages (before ++ s.events.toList) = if opened then forApplication past else [] := by
  split
  next ho => exact h.told ho
  next hno => exact h.untold hno

/-- **The messages that an application is told are those that the link brought while the session was
open, without the session's own**, in the order of the link and unchanged, once the login is
complete, and none before. This holds after any operations, and also in the middle of a datagram
that arrives after them. -/
theorem messages_told (settings : Settings) (role : Role) (address : Address) (guid : UInt64)
    (mtu : UInt16) (start : Nanoseconds) (ops : List Operation) :
    let s₀ := fresh settings role address guid mtu start
    let s := (s₀.conduct ops).2
    Event.messages (s₀.told ops)
        = (if .connected ∈ s₀.phases ops then forApplication (s₀.handled ops) else []) ∧
      ∀ now packet n,
        let met := (s.handles (.receive now packet)).take n
        let s' := s.partway now packet n
        Event.messages ((s₀.conduct ops).1.flatMap Answer.eventList ++ s'.events.toList)
          = if .connected ∈ s₀.phases ops ++ (met.map Prod.fst ++ [s'.phase]) then
              forApplication (s₀.handled ops ++ met)
            else [] := by
  intro s₀ s
  have hconveys : s.Conveys ((s₀.conduct ops).1.flatMap Answer.eventList) (s₀.handled ops)
      (.connected ∈ s₀.phases ops) :=
    ((conveys_fresh settings role address guid mtu start).conduct ops).congr
      ⟨fun ho => ho.elim False.elim id, Or.inr⟩
  refine ⟨hconveys.messages_eq, fun now packet n => ?_⟩
  exact ((hconveys.partway now packet n).congr List.mem_append.symm).messages_eq

-- a message before the end of the login, and one on either side of the end of the session
example : (fresh {} .server ⟨.v4 0, 0⟩ 0 1464 0).told
    [.receive 0 [0x84, 0, 0, 0, 0, 0, 8, 0x86], .completeLogin,
      .receive 0 [0x84, 1, 0, 0, 0, 0, 8, 0x87, 0, 0, 8, 0x15, 0, 0, 8, 0x88]]
      = [.connected, .message 0 [0x86], .message 0 [0x87], .disconnected .disconnectedByPeer] := by
  decide +kernel

end Session

end DatagramTransport

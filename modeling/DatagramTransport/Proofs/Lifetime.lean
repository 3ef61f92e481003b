import DatagramTransport.Proofs.Conduct

/-!
# Lifetime — what an application is told, and in which order

A session can end in the middle of a datagram, and what is behind that in the datagram is dealt with
all the same; it can end before the login is complete, by the clock, by either peer and by its own
flush. **An application is told of the login, then of messages and receipts, then of the end**, or
of the end alone, whatever is done with the session and whatever arrives.

Three facts carry this from one function to the next. What was told fits the phase; what is held
back are messages only; and no receipt is pending except while the session is connected, so that an
acknowledgement that comes before or after that time has nothing to tell.
-/

set_option autoImplicit false

namespace DatagramTransport

/-- What an application is told between the login and the end. -/
def Event.isNews : Event → Bool
  | .message _ _ => true
  | .receipt _ => true
  | _ => false

namespace Phase

/-- The login was told, and then nothing but news. -/
def Opened (es : List Event) : Prop :=
  ∃ news, es = .connected :: news ∧ ∀ e ∈ news, e.isNews = true

theorem Opened.append {es more : List Event} (h : Opened es) (hmore : ∀ e ∈ more, e.isNews = true) :
    Opened (es ++ more) := by
  obtain ⟨news, rfl, hnews⟩ := h
  exact ⟨news ++ more, rfl, fun e he => (List.mem_append.1 he).elim (hnews e) (hmore e)⟩

/-- The place of a phase among all of them. -/
def rank : Phase → Nat
  | handshaking => 0
  | connected => 1
  | disconnecting => 2
  | disconnected => 3

/-- An application can have been told this, in this phase. -/
def Tells : Phase → List Event → Prop
  | handshaking, es => es = []
  | connected, es => Opened es
  | disconnecting, es => es = [] ∨ Opened es
  | disconnected, es => ∃ before reason, es = before ++ [.disconnected reason] ∧
      (before = [] ∨ Opened before)

/-- Before the end nothing was told, or the login and news. -/
theorem Tells.cases {p : Phase} {es : List Event} (h : p.Tells es) (hp : p ≠ .disconnected) :
    es = [] ∨ Opened es := by
  cases p with
  | handshaking => exact Or.inl h
  | connected => exact Or.inr h
  | disconnecting => exact h
  | disconnected => exact absurd rfl hp

theorem Tells.shape {p : Phase} {es : List Event} (h : p.Tells es) :
    es = [] ∨ (∃ reason, es = [.disconnected reason]) ∨
      ∃ news ending, es = .connected :: (news ++ ending) ∧ (∀ e ∈ news, e.isNews = true) ∧
        (ending = [] ∨ ∃ reason, ending = [.disconnected reason]) := by
  have hopened : Opened es → ∃ news ending, es = .connected :: (news ++ ending) ∧
      (∀ e ∈ news, e.isNews = true) ∧
      (ending = [] ∨ ∃ reason, ending = [.disconnected reason]) := by
    rintro ⟨news, rfl, hnews⟩
    exact ⟨news, [], by rw [List.append_nil], hnews, Or.inl rfl⟩
  cases p with
  | handshaking => exact Or.inl h
  | connected => exact Or.inr (Or.inr (hopened h))
  | disconnecting => exact h.imp_right fun h => Or.inr (hopened h)
  | disconnected =>
    obtain ⟨before, reason, rfl, rfl | ⟨news, rfl, hnews⟩⟩ := h
    · exact Or.inr (Or.inl ⟨reason, rfl⟩)
    · exact Or.inr (Or.inr ⟨news, [.disconnected reason], rfl, hnews, Or.inr ⟨reason, rfl⟩⟩)

/-- The end is told in the last phase and in no other. -/
theorem Tells.disconnected_iff {p : Phase} {es : List Event} (h : p.Tells es) :
    p = .disconnected ↔ ∃ reason, .disconnected reason ∈ es := by
  constructor
  · rintro rfl
    obtain ⟨before, reason, rfl, -⟩ := h
    exact ⟨reason, List.mem_append_right _ List.mem_cons_self⟩
  · rintro ⟨reason, hmem⟩
    by_contra hp
    rcases h.cases hp with rfl | ⟨news, rfl, hnews⟩
    · cases hmem
    · rcases List.mem_cons.1 hmem with heq | hmem
      · cases heq
      · cases hnews _ hmem

end Phase

/-! ## Where no receipt is pending -/

namespace Sender

variable {s : Sender}

theorem settle_empty {step : UInt32 → Pending → List Receipt × Pending}
    (hstep : ∀ id, step id ∅ = ([], ∅)) (ids : List UInt32) : settle step ids ∅ = ([], ∅) := by
  induction ids with
  | nil => rfl
  | cons id ids ih => rw [settle_cons, hstep, ih, List.append_nil]

theorem confirm_empty (id : UInt32) : confirm id ∅ = ([], ∅) := by
  unfold confirm
  rw [Std.TreeMap.getElem?_emptyc]

theorem release_empty (outcome : UInt32 → Receipt) (id : UInt32) :
    release outcome id ∅ = ([], ∅) := by
  unfold release
  rw [Std.TreeMap.contains_emptyc, if_neg Bool.false_ne_true]

theorem acknowledge_of_unpromised (h : s.pendingReceipts = ∅) (now : Nanoseconds)
    (sequence : Serial) :
    (s.acknowledge now sequence).1 = [] ∧ (s.acknowledge now sequence).2.pendingReceipts = ∅ := by
  unfold acknowledge
  split
  · exact ⟨rfl, h⟩
  next sent _ =>
    simp only [deliver, h, settle_empty confirm_empty, settle_empty (release_empty .acked),
      List.append_nil, and_self]

theorem acknowledgeAll_of_unpromised (h : s.pendingReceipts = ∅) (now : Nanoseconds)
    (sequences : List Serial) :
    (s.acknowledgeAll now sequences).1 = [] ∧
      (s.acknowledgeAll now sequences).2.pendingReceipts = ∅ := by
  induction sequences generalizing s with
  | nil => exact ⟨rfl, h⟩
  | cons sequence sequences ih =>
    obtain ⟨hnone, hpending⟩ := acknowledge_of_unpromised h now sequence
    obtain ⟨hrest, hpending'⟩ := ih hpending
    refine ⟨?_, ?_⟩
    · rw [acknowledgeAll_cons_due, hnone, hrest, List.append_nil]
    · rw [acknowledgeAll_cons]
      exact hpending'

theorem lose_of_unpromised (h : s.pendingReceipts = ∅)
    (isLost : Serial → SentDatagram → Bool) :
    (s.lose isLost).1 = [] ∧ (s.lose isLost).2.pendingReceipts = ∅ := by
  simp only [lose, h, settle_empty (release_empty .lost), and_self]

/-- **Without a promise nothing comes of an acknowledgement.** -/
theorem receive_of_unpromised (h : s.pendingReceipts = ∅) (now : Nanoseconds)
    (a : Acknowledgement) :
    (s.receive now a).1 = [] ∧ (s.receive now a).2.pendingReceipts = ∅ := by
  unfold receive
  split
  · exact acknowledgeAll_of_unpromised h now _
  · exact lose_of_unpromised h _

theorem tick_of_unpromised (h : s.pendingReceipts = ∅) (now : Nanoseconds) :
    (s.tick now).1 = [] ∧ (s.tick now).2.pendingReceipts = ∅ := by
  unfold tick
  split
  · exact lose_of_unpromised (s := { s with timer := s.timer.backOff }) h _
  · exact ⟨rfl, h⟩

end Sender

namespace Session

variable {s s' s'' : Session} {before : List Event}

/-! ## The invariant, and what keeps it -/

/-- What was told, before and in the events that wait, fits the phase. -/
structure Orderly (before : List Event) (s : Session) : Prop where
  tells : s.phase.Tells (before ++ s.events.toList)
  early : ∀ e ∈ s.early.toList, e.isNews = true
  unpromised : s.phase ≠ .connected → s.link.sender.pendingReceipts = ∅

theorem orderly_fresh (settings : Settings) (role : Role) (address : Address) (guid : UInt64)
    (mtu : UInt16) (now : Nanoseconds) :
    (fresh settings role address guid mtu now).Orderly [] where
  tells := rfl
  early := fun _ he => absurd he List.not_mem_nil
  unpromised := fun _ => rfl

/-- The session goes on from one state to the other, and not back. -/
structure Moves (s s' : Session) : Prop where
  rank_le : s.phase.rank ≤ s'.phase.rank
  orderly : ∀ before, s.Orderly before → s'.Orderly before

theorem Moves.refl (s : Session) : s.Moves s := ⟨Nat.le_refl _, fun _ => id⟩

theorem Moves.trans (h : s.Moves s') (h' : s'.Moves s'') : s.Moves s'' where
  rank_le := Nat.le_trans h.rank_le h'.rank_le
  orderly := fun before horderly => h'.orderly before (h.orderly before horderly)

theorem Rests.moves (h : s.Rests s') : s.Moves s' where
  rank_le := Nat.le_of_eq (by rw [h.phase_eq])
  orderly := by
    intro before horderly
    refine ⟨?_, ?_, ?_⟩
    · rw [h.phase_eq, h.events_eq]
      exact horderly.tells
    · rw [h.early_eq]
      exact horderly.early
    · rw [h.phase_eq, h.pending_eq]
      exact horderly.unpromised

/-- A session that is connected can tell news. -/
theorem moves_emit {news : List Event} (h : s.phase = .connected)
    (hnews : ∀ e ∈ news, e.isNews = true) : s.Moves (s.emit news) where
  rank_le := Nat.le_refl _
  orderly := by
    intro before horderly
    refine ⟨?_, horderly.early, horderly.unpromised⟩
    have htells := horderly.tells
    rw [h] at htells
    show s.phase.Tells (before ++ (s.events.append news).toList)
    rw [h, Fifo.toList_append, ← List.append_assoc]
    exact Phase.Opened.append htells hnews

/-! ## From phase to phase -/

theorem moves_completeLogin (s : Session) : s.Moves s.completeLogin := by
  unfold completeLogin
  split
  next hphase =>
    refine ⟨by rw [hphase]; exact Nat.zero_le _, fun before horderly => ⟨?_, ?_, ?_⟩⟩
    · -- nothing was told yet, and what was held back comes out
      have hnothing : before ++ s.events.toList = [] := by
        have htells := horderly.tells
        rwa [hphase] at htells
      show Phase.Opened (before ++ (s.events.append (.connected :: s.early.toList)).toList)
      rw [Fifo.toList_append, ← List.append_assoc, hnothing]
      exact ⟨s.early.toList, rfl, horderly.early⟩
    · exact fun e he => absurd he List.not_mem_nil
    · exact fun hnot => absurd rfl hnot
  next => exact Moves.refl s

theorem moves_close (reason : CloseReason) (s : Session) : s.Moves (s.close reason) := by
  unfold close
  split
  next => exact Moves.refl s
  next hopen =>
    refine ⟨?_, fun before horderly => ⟨?_, ?_, fun _ => rfl⟩⟩
    · show s.phase.rank ≤ 3
      cases s.phase <;> decide
    · refine ⟨before ++ s.events.toList, reason, ?_, horderly.tells.cases hopen⟩
      show before ++ (s.events.append [.disconnected reason]).toList = _
      rw [Fifo.toList_append, ← List.append_assoc]
    · exact fun e he => absurd he List.not_mem_nil

/-- A session that is neither disconnecting nor disconnected may be disconnecting next, if all
receipts are forgotten. -/
theorem moves_disconnecting {closing : Option CloseReason}
    (h : s.phase = .handshaking ∨ s.phase = .connected)
    (hpending : s.link.sender.pendingReceipts = ∅) :
    s.Moves { s with phase := .disconnecting, closing := closing } where
  rank_le := by
    rcases h with h | h
    · rw [h]
      exact Nat.zero_le _
    · rw [h]
      exact Nat.le_succ _
  orderly := by
    intro before horderly
    refine ⟨horderly.tells.cases ?_, horderly.early, fun _ => hpending⟩
    rcases h with h | h
    · rw [h]
      exact nofun
    · rw [h]
      exact nofun

theorem moves_disconnect (s : Session) : s.Moves s.disconnect := by
  unfold disconnect
  split
  · exact Moves.refl s
  next hopen =>
    have hphase : s.phase = .handshaking ∨ s.phase = .connected := by
      cases h : s.phase with
      | handshaking => exact Or.inl rfl
      | connected => exact Or.inr rfl
      | disconnecting => exact absurd (Or.inl h) hopen
      | disconnected => exact absurd (Or.inr h) hopen
    have hclear : s.Moves { s with link := s.link.clear } :=
      ⟨Nat.le_refl _, fun _ horderly => ⟨horderly.tells, horderly.early, fun _ => rfl⟩⟩
    have hrests := rests_sendControl (r := .unreliable) rfl .disconnectionNotification
      { s with link := s.link.clear }
    exact (hclear.trans hrests.moves).trans
      (moves_disconnecting (by rwa [hrests.phase_eq]) hrests.pending_eq)

/-! ## What arrives -/

theorem moves_takeRequest (now : Nanoseconds) (timestamp : Int64) (useSecurity : Bool)
    (s : Session) : s.Moves (s.takeRequest now timestamp useSecurity) := by
  unfold takeRequest
  split
  next hlogin =>
    split
    · have hrests := rests_sendControl (r := .reliableOrdered) rfl .connectionAttemptFailed s
      refine ⟨?_, fun before horderly => ?_⟩
      · show s.phase.rank ≤ 2
        rw [hlogin.2]
        exact Nat.zero_le _
      · have hpending := horderly.unpromised (by rw [hlogin.2]; exact nofun)
        exact (hrests.moves.trans (moves_disconnecting
          (Or.inl (hrests.phase_eq.trans hlogin.2)) (hrests.pending_eq.trans hpending))).orderly
          before horderly
    · exact (rests_sendControl rfl _ s).moves
  next => exact Moves.refl s

theorem moves_takeAcceptance (now : Nanoseconds) (timestamp : Int64) (s : Session) :
    s.Moves (s.takeAcceptance now timestamp) := by
  unfold takeAcceptance
  split
  · exact (rests_sendControl rfl _ s).moves.trans (moves_completeLogin _)
  · exact Moves.refl s

theorem moves_takeControl (now : Nanoseconds) (m : ControlMessage) (s : Session) :
    s.Moves (s.takeControl now m) := by
  cases m with
  | connectedPing timestamp =>
    unfold takeControl
    exact (rests_sendControl rfl _ s).moves
  | connectedPong timestamp _ => exact (rests_takePong now timestamp s).moves
  | detectLostConnections => exact (rests_sendPing now s).moves
  | connectionRequest _ timestamp useSecurity =>
    exact moves_takeRequest now timestamp useSecurity s
  | connectionRequestAccepted _ _ _ timestamp => exact moves_takeAcceptance now timestamp s
  | newIncomingConnection _ _ _ =>
    unfold takeControl
    simp only
    split
    · exact moves_completeLogin s
    · exact Moves.refl s
  | connectionAttemptFailed =>
    unfold takeControl
    simp only
    split
    · exact moves_close .attemptFailed s
    · exact Moves.refl s
  | disconnectionNotification | connectionLost => exact moves_close .disconnectedByPeer s
  | _ => exact Moves.refl s

/-- A message is told, held back or dropped. -/
theorem moves_takeMessage (channel : UInt8) (payload : Octets) (s : Session) :
    s.Moves (s.takeMessage channel payload) := by
  have hnews : ∀ e ∈ [Event.message channel payload], e.isNews = true := by
    intro e he
    rw [List.mem_singleton.1 he]
    rfl
  unfold takeMessage
  split
  next hphase => exact moves_emit hphase hnews
  · refine ⟨Nat.le_refl _, fun before horderly => ⟨horderly.tells, fun e he => ?_,
      horderly.unpromised⟩⟩
    rw [Fifo.toList_append] at he
    exact (List.mem_append.1 he).elim (horderly.early e) (hnews e)
  · exact Moves.refl s
  · exact Moves.refl s

theorem moves_takeDelivery (now : Nanoseconds) (d : Delivery) (s : Session) :
    s.Moves (s.takeDelivery now d) := by
  unfold takeDelivery
  split
  · exact Moves.refl s
  · split
    · split
      · exact moves_takeControl now _ s
      · exact Rests.moves ⟨rfl, rfl, rfl, rfl⟩
    · exact moves_takeMessage _ _ s

/-- **Whatever a datagram brings, each part of it moves the session on from where it is.** -/
theorem moves_takeDeliveries (now : Nanoseconds) (ds : List Delivery) (s : Session) :
    s.Moves (s.takeDeliveries now ds) := by
  unfold takeDeliveries
  induction ds generalizing s with
  | nil => exact Moves.refl s
  | cons d ds ih => exact (moves_takeDelivery now d s).trans (ih (s.takeDelivery now d))

/-- Receipts are told while the session is connected; at other times there are none. -/
theorem moves_emitReceipts {receipts : List Receipt} {link : Link}
    (h : s.link.sender.pendingReceipts = ∅ → receipts = [] ∧ link.sender.pendingReceipts = ∅) :
    s.Moves ({ s with link := link }.emitReceipts receipts) where
  rank_le := Nat.le_refl _
  orderly := by
    intro before horderly
    by_cases hphase : s.phase = .connected
    · refine Orderly.mk ?_ horderly.early fun hnot => absurd hphase hnot
      have hnews : ∀ e ∈ receipts.map Event.receipt, e.isNews = true := by
        intro e he
        obtain ⟨receipt, -, rfl⟩ := List.mem_map.1 he
        rfl
      exact ((moves_emit hphase hnews).orderly before horderly).tells
    · obtain ⟨rfl, hpending⟩ := h (horderly.unpromised hphase)
      refine ⟨?_, horderly.early, fun _ => hpending⟩
      show s.phase.Tells (before ++ (s.events.append []).toList)
      rw [Fifo.toList_append, List.append_nil]
      exact horderly.tells

theorem moves_takePacket (now : Nanoseconds) (p : Packet) (s : Session) :
    s.Moves (s.takePacket now p) := by
  have hheard : s.Moves { s with lastReceived := now } := Rests.moves ⟨rfl, rfl, rfl, rfl⟩
  unfold takePacket
  split
  · refine Moves.trans ?_ (moves_takeDeliveries now _ _)
    exact Rests.moves ⟨rfl, rfl, rfl, rfl⟩
  next a =>
    exact hheard.trans (moves_emitReceipts fun hpending =>
      Sender.receive_of_unpromised hpending now a)

theorem moves_receive (now : Nanoseconds) (packet : Octets) (s : Session) :
    s.Moves (s.receive now packet).2 := by
  unfold receive
  split
  · exact Moves.refl s
  · split
    · exact moves_takePacket now _ s
    · exact Rests.moves ⟨rfl, rfl, rfl, rfl⟩

/-! ## What time brings -/

theorem moves_tick (now : Nanoseconds) (s : Session) : s.Moves (s.tick now) := by
  unfold tick
  split
  · exact Moves.refl s
  · split
    · exact moves_close _ s
    · have hticked : s.Moves
          ({ s with link := (s.link.tick now).2 }.emitReceipts (s.link.tick now).1) :=
        moves_emitReceipts fun hpending => Sender.tick_of_unpromised hpending now
      simp only
      split
      · exact hticked.trans ((rests_pingIfDue now _).trans (rests_probeIfDue now _)).moves
      · exact hticked

theorem moves_flush (now : Nanoseconds) (s : Session) : s.Moves (s.flush now).2 := by
  show s.Moves (s.flushPackets now).2
  unfold flushPackets
  split
  · exact Moves.refl s
  · have hsent : s.Rests
        { s with link := (s.link.flushPackets now s.settings.maxDatagramsPerTick).2 } :=
      ⟨rfl, rfl, rfl, (Sender.receipts_flush now _ s.link.sender).1⟩
    simp only
    split
    · refine hsent.moves.trans (Moves.trans ?_ (moves_close _ _))
      exact Rests.moves ⟨rfl, rfl, rfl, rfl⟩
    · exact hsent.moves

/-! ## Any operation, and any number of them -/

theorem moves_send {r : Reliability} {channel : UInt8} {payload : Octets}
    {receipt : Option UInt32} (h : s.send r channel payload = .ok (receipt, s')) : s.Moves s' := by
  unfold send at h
  split at h
  next hphase =>
    split at h
    · cases h
    · cases h
      exact ⟨Nat.le_refl _, fun before horderly =>
        ⟨horderly.tells, horderly.early, fun hnot => absurd hphase hnot⟩⟩
  next => cases h

theorem moves_perform {op : Operation} (hop : op ≠ .takeEvents) (s : Session) :
    (s.perform op).1.eventList = [] ∧ s.Moves (s.perform op).2 := by
  cases op with
  | beginLogin now => exact ⟨rfl, (rests_beginLogin now s).moves⟩
  | completeLogin => exact ⟨rfl, moves_completeLogin s⟩
  | send r channel payload =>
    cases hsend : s.send r channel payload with
    | error fault =>
      simp only [perform, hsend]
      exact ⟨rfl, Moves.refl s⟩
    | ok result =>
      simp only [perform, hsend]
      exact ⟨rfl, moves_send hsend⟩
  | disconnect => exact ⟨rfl, moves_disconnect s⟩
  | tick now => exact ⟨rfl, moves_tick now s⟩
  | flush now => exact ⟨rfl, moves_flush now s⟩
  | receive now packet =>
    have hmoves := moves_receive now packet s
    simp only [perform]
    generalize s.receive now packet = received at hmoves ⊢
    obtain ⟨fault | _, s'⟩ := received
    · exact ⟨rfl, hmoves⟩
    · exact ⟨rfl, hmoves⟩
  | takeEvents => exact absurd rfl hop

theorem rank_perform (op : Operation) (s : Session) :
    s.phase.rank ≤ (s.perform op).2.phase.rank := by
  by_cases hop : op = .takeEvents
  · rw [hop]
    exact Nat.le_refl _
  · exact (moves_perform hop s).2.rank_le

theorem Orderly.perform (h : s.Orderly before) (op : Operation) :
    (s.perform op).2.Orderly (before ++ (s.perform op).1.eventList) := by
  by_cases hop : op = .takeEvents
  · subst hop
    refine ⟨?_, h.early, h.unpromised⟩
    show s.phase.Tells (before ++ s.events.toList ++ [])
    rw [List.append_nil]
    exact h.tells
  · obtain ⟨hnone, hmoves⟩ := moves_perform hop s
    rw [hnone, List.append_nil]
    exact hmoves.orderly before h

/-- **Whatever is done with a session, what was told fits the phase.** -/
theorem Orderly.conduct (h : s.Orderly before) (ops : List Operation) :
    (s.conduct ops).2.Orderly (before ++ (s.conduct ops).1.flatMap Answer.eventList) := by
  unfold Session.conduct
  induction ops generalizing s before with
  | nil => simpa using h
  | cons op ops ih =>
    rw [Stepwise.collect_cons, List.flatMap_cons, ← List.append_assoc]
    exact ih (h.perform op)

/-- **An application is told nothing, or the end alone, or the login, then messages and receipts,
and maybe the end behind them.** It was told the end exactly if the session is disconnected; the
phase never goes back, and when it is the last one nothing can be done any more. -/
theorem told_in_order (settings : Settings) (role : Role) (address : Address) (guid : UInt64)
    (mtu : UInt16) (start : Nanoseconds) (ops : List Operation) :
    let s₀ := fresh settings role address guid mtu start
    let s := (s₀.conduct ops).2
    (s₀.told ops = [] ∨ (∃ reason, s₀.told ops = [.disconnected reason]) ∨
        ∃ news ending, s₀.told ops = .connected :: (news ++ ending) ∧
          (∀ e ∈ news, e.isNews = true) ∧
          (ending = [] ∨ ∃ reason, ending = [.disconnected reason])) ∧
      (s.phase = .disconnected ↔ ∃ reason, .disconnected reason ∈ s₀.told ops) ∧
      ∀ op, s.phase.rank ≤ (s.perform op).2.phase.rank ∧
        (s.phase = .disconnected →
          (s.perform op).1.isAccepted = false ∧ (s.perform op).1.packetList = [] ∧
            (s.perform op).2 = (if op = .takeEvents then { s with events := .empty } else s) ∧
            s₀.told (ops ++ [op]) = s₀.told ops) := by
  intro s₀ s
  have htells : s.phase.Tells (s₀.told ops) :=
    ((orderly_fresh settings role address guid mtu start).conduct ops).tells
  refine ⟨htells.shape, htells.disconnected_iff, fun op => ⟨rank_perform op s, fun hover => ?_⟩⟩
  obtain ⟨haccepted, hpackets, hsame⟩ := perform_of_disconnected hover op
  refine ⟨haccepted, hpackets, hsame, ?_⟩
  -- events are told by being taken, or they go on waiting
  have hevents : (s.perform op).1.eventList ++ (s.perform op).2.events.toList
      = s.events.toList := by
    by_cases hop : op = .takeEvents
    · subst hop
      show s.events.toList ++ [] = s.events.toList
      rw [List.append_nil]
    · rw [hsame, if_neg hop, (moves_perform hop s).1, List.nil_append]
  rw [told_snoc, hevents]
  rfl

example : (fresh {} .server ⟨.v4 0, 0⟩ 0 1464 0).told
    [.completeLogin, .takeEvents, .disconnect, .completeLogin, .flush 0, .tick 1, .flush 1]
      = [.connected, .disconnected .disconnectedLocally] := by decide +kernel

end Session

end DatagramTransport

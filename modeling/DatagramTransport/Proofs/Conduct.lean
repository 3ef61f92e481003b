import DatagramTransport.Proofs.Settling
import DatagramTransport.Session.Receive
import DatagramTransport.Session.Timers

/-!
# Conduct — what can be done with a session

A session does nothing by itself. Its owner hands it what arrived, tells it the time, gives it
payloads and fetches packets and events. **A list of such operations determines all that becomes of
it**, in whatever order they come and whatever octets a peer has sent.

Most of what a session does only prepares control messages. No receipt is promised for these, so
they change nothing that an application is told; all of them are alike in that, and the few
functions that do move a session on are left for elsewhere.
-/

set_option autoImplicit false

namespace DatagramTransport

namespace Session

/-! ## Operations -/

/-- What is done with a session from outside. -/
inductive Operation where
  | beginLogin (now : Nanoseconds)
  | completeLogin
  | send (r : Reliability) (channel : UInt8) (payload : Octets)
  | disconnect
  | tick (now : Nanoseconds)
  | flush (now : Nanoseconds)
  | receive (now : Nanoseconds) (packet : Octets)
  | takeEvents
  deriving DecidableEq, Repr

/-- What the owner gets for it. -/
inductive Answer where
  | done
  /-- The payload was accepted, maybe with a receipt. -/
  | sent (receipt : Option UInt32)
  | refused (fault : SendFault)
  | malformed (fault : Fault)
  | packets (packets : List Octets)
  | events (events : List Event)
  deriving DecidableEq, Repr

namespace Answer

def isAccepted : Answer → Bool
  | sent _ => true
  | _ => false

def packetList : Answer → List Octets
  | packets ps => ps
  | _ => []

def eventList : Answer → List Event
  | events es => es
  | _ => []

end Answer

def perform (op : Operation) (s : Session) : Answer × Session :=
  match op with
  | .beginLogin now => (.done, s.beginLogin now)
  | .completeLogin => (.done, s.completeLogin)
  | .send r channel payload =>
    match s.send r channel payload with
    | .error fault => (.refused fault, s)
    | .ok (receipt, s) => (.sent receipt, s)
  | .disconnect => (.done, s.disconnect)
  | .tick now => (.done, s.tick now)
  | .flush now =>
    let (packets, s) := s.flush now
    (.packets packets, s)
  | .receive now packet =>
    match s.receive now packet with
    | (.ok (), s) => (.done, s)
    | (.error fault, s) => (.malformed fault, s)
  | .takeEvents =>
    let (events, s) := s.takeEvents
    (.events events, s)

/-- Performs operations, one after the other. -/
def conduct (ops : List Operation) (s : Session) : List Answer × Session :=
  Stepwise.collect perform ops s

/-- All events of a run, those that were taken and those that wait. -/
def told (ops : List Operation) (s : Session) : List Event :=
  (s.conduct ops).1.flatMap Answer.eventList ++ (s.conduct ops).2.events.toList

theorem conduct_snoc (ops : List Operation) (op : Operation) (s : Session) :
    s.conduct (ops ++ [op]) = ((s.conduct ops).1 ++ [((s.conduct ops).2.perform op).1],
      ((s.conduct ops).2.perform op).2) := by
  unfold conduct
  induction ops generalizing s with
  | nil => rfl
  | cons first ops ih =>
    rw [List.cons_append, Stepwise.collect_cons, Stepwise.collect_cons, ih]
    rfl

theorem told_snoc (ops : List Operation) (op : Operation) (s : Session) :
    s.told (ops ++ [op]) = (s.conduct ops).1.flatMap Answer.eventList
      ++ (((s.conduct ops).2.perform op).1.eventList
        ++ ((s.conduct ops).2.perform op).2.events.toList) := by
  rw [told, conduct_snoc, List.flatMap_append, List.append_assoc]
  simp only [List.flatMap_cons, List.flatMap_nil, List.append_nil]

/-- **Once a session is disconnected nothing can be done with it**, except taking the events that
wait. -/
theorem perform_of_disconnected {s : Session} (h : s.phase = .disconnected) (op : Operation) :
    (s.perform op).1.isAccepted = false ∧ (s.perform op).1.packetList = [] ∧
      (s.perform op).2 = if op = .takeEvents then { s with events := .empty } else s := by
  cases op with
  | beginLogin now =>
    refine ⟨rfl, rfl, ?_⟩
    show s.beginLogin now = s
    simp only [beginLogin, h, reduceCtorEq, and_false, if_false]
  | completeLogin =>
    refine ⟨rfl, rfl, ?_⟩
    show s.completeLogin = s
    simp only [completeLogin, h, reduceCtorEq, if_false]
  | send r channel payload =>
    have hrefused : s.send r channel payload = .error .notConnected := by
      simp only [send, h, reduceCtorEq, if_false]
    simp only [perform, hrefused]
    exact ⟨rfl, rfl, rfl⟩
  | disconnect =>
    refine ⟨rfl, rfl, ?_⟩
    show s.disconnect = s
    simp only [disconnect, h, or_true, if_true]
  | tick now =>
    refine ⟨rfl, rfl, ?_⟩
    show s.tick now = s
    simp only [tick, h, if_true]
  | flush now =>
    have hnothing : s.flush now = ([], s) := by
      simp only [flush, flushPackets, h, if_true, List.map_nil]
    simp only [perform, hnothing]
    exact ⟨rfl, rfl, rfl⟩
  | receive now packet =>
    have hignored : s.receive now packet = (.ok (), s) := by
      simp only [receive, h, if_true]
    simp only [perform, hignored]
    exact ⟨rfl, rfl, rfl⟩
  | takeEvents => exact ⟨rfl, rfl, rfl⟩

/-! ## What leaves a session where it is -/

/-- The session has not moved on, and there is nothing new to tell. -/
structure Rests (s s' : Session) : Prop where
  phase_eq : s'.phase = s.phase
  events_eq : s'.events = s.events
  early_eq : s'.early = s.early
  pending_eq : s'.link.sender.pendingReceipts = s.link.sender.pendingReceipts

variable {s s' s'' : Session}

theorem Rests.refl (s : Session) : s.Rests s := ⟨rfl, rfl, rfl, rfl⟩

theorem Rests.trans (h : s.Rests s') (h' : s'.Rests s'') : s.Rests s'' where
  phase_eq := h'.phase_eq.trans h.phase_eq
  events_eq := h'.events_eq.trans h.events_eq
  early_eq := h'.early_eq.trans h.early_eq
  pending_eq := h'.pending_eq.trans h.pending_eq

theorem pendingReceipts_send {r : Reliability} {channel : UInt8} {payload : Octets}
    {receipt : Option UInt32} {l l' : Link} (hr : r.wantsReceipt = false)
    (h : l.send r channel payload = .ok (receipt, l')) :
    l'.sender.pendingReceipts = l.sender.pendingReceipts := by
  unfold Link.send at h
  split at h
  · cases h
  next hsend =>
    cases h
    rcases Sender.receipt_of_send hsend with ⟨-, hpending, -⟩ | ⟨-, hwants, -⟩
    · exact hpending
    · rw [hr] at hwants
      cases hwants

/-- **Control messages are sent without anything being promised.** -/
theorem rests_sendControl {r : Reliability} (hr : r.wantsReceipt = false) (m : ControlMessage)
    (s : Session) : s.Rests (s.sendControl r m) := by
  unfold sendControl
  split
  · exact Rests.refl s
  · split
    · exact Rests.refl s
    next hsend => exact ⟨rfl, rfl, rfl, pendingReceipts_send hr hsend⟩

theorem rests_sendPing (now : Nanoseconds) (s : Session) : s.Rests (s.sendPing now) := by
  unfold sendPing
  refine Rests.trans ?_ (rests_sendControl rfl _ _)
  exact ⟨rfl, rfl, rfl, rfl⟩

theorem rests_takePong (now : Nanoseconds) (timestamp : Int64) (s : Session) :
    s.Rests (s.takePong now timestamp) := by
  unfold takePong
  split
  · exact ⟨rfl, rfl, rfl, rfl⟩
  · exact Rests.refl s

theorem rests_beginLogin (now : Nanoseconds) (s : Session) : s.Rests (s.beginLogin now) := by
  unfold beginLogin
  split
  · exact rests_sendControl rfl _ s
  · exact Rests.refl s

theorem rests_pingIfDue (now : Nanoseconds) (s : Session) : s.Rests (s.pingIfDue now) := by
  unfold pingIfDue
  split
  · exact rests_sendPing now s
  · exact Rests.refl s

theorem rests_probeIfDue (now : Nanoseconds) (s : Session) : s.Rests (s.probeIfDue now) := by
  unfold probeIfDue
  split
  · refine Rests.trans ?_ (rests_sendControl rfl _ _)
    exact ⟨rfl, rfl, rfl, rfl⟩
  · exact Rests.refl s

end Session

end DatagramTransport

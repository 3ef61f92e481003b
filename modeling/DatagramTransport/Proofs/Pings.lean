import DatagramTransport.Proofs.Averages
import DatagramTransport.Proofs.Reply
import Mathlib.Data.List.Perm.Subperm

/-!
# Pings — what is measured with them

A session sends a ping when its timer says so and when its peer asks for one, and takes an answer
when it remembers the ping. Pings may share a timestamp, they are forgotten when there are too many,
and the answers are whatever the peer sends. Still **each sample belongs to a ping of its own**:
those that were answered and those that are remembered are among those that were sent, each counted
as often as it was sent.

The account is a list of what is noted along a run, read off the operations and the messages that
arrive. Most of what a session does leaves pings and statistics alone (`Quiet`), and what does not
is said once (`Sounds`) for a message, a datagram, an operation and a run.
-/

set_option autoImplicit false

namespace DatagramTransport

/-- The control message that a payload is read as. -/
def Delivery.control? (d : Delivery) : Option ControlMessage :=
  match d.payload with
  | [] => none
  | id :: _ =>
    if ControlId.isConnected id then
      match ControlMessage.reader d.payload with
      | .ok (m, _) => some m
      | .error _ => none
    else none

/-- What a session has to do with a ping. -/
inductive Sounding where
  | pinged (timestamp : Int64)
  /-- The ping with this timestamp was remembered, and its answer took so long. -/
  | answered (timestamp : Int64) (measured : Nanoseconds)
  deriving DecidableEq, Repr

namespace Sounding

def pinged? : Sounding → Option Int64
  | pinged timestamp => some timestamp
  | answered .. => none

def answered? : Sounding → Option Int64
  | pinged _ => none
  | answered timestamp _ => some timestamp

def measured? : Sounding → Option Nanoseconds
  | pinged _ => none
  | answered _ measured => some measured

/-- The timestamps of the pings that were sent. -/
def pings (log : List Sounding) : List Int64 := log.filterMap pinged?

/-- The timestamps of the pings that were answered. -/
def answers (log : List Sounding) : List Int64 := log.filterMap answered?

/-- What was measured. -/
def samples (log : List Sounding) : List Nanoseconds := log.filterMap measured?

variable (log more : List Sounding)

theorem pings_append : pings (log ++ more) = pings log ++ pings more := List.filterMap_append

theorem answers_append : answers (log ++ more) = answers log ++ answers more :=
  List.filterMap_append

theorem samples_append : samples (log ++ more) = samples log ++ samples more :=
  List.filterMap_append

/-- An answer is a sample. -/
theorem length_answers : (answers log).length = (samples log).length := by
  induction log with
  | nil => rfl
  | cons sounding log ih =>
    cases sounding with
    | pinged timestamp => exact ih
    | answered timestamp measured => exact congrArg (· + 1) ih

end Sounding

namespace Session

open Sounding

variable {s s' s'' : Session} {log log' : List Sounding}

/-! ## What is noted

A log is made along a run, from the operations and the deliveries alone: it is not kept by the
session, and the session is asked only which pings it remembers when an answer comes. What is noted
is a ping that is sent, by its timestamp, or an answer with what was measured. -/

def soundControl (now : Nanoseconds) (m : ControlMessage) (s : Session) : List Sounding :=
  match m with
  | .detectLostConnections => [.pinged (s.timestamp now)]
  | .connectedPong timestamp _ =>
    if timestamp ∈ s.outstandingPings then
      [.answered timestamp (elapsed timestamp (s.timestamp now) * Nanoseconds.perMillisecond)]
    else []
  | _ => []

def soundDelivery (now : Nanoseconds) (d : Delivery) (s : Session) : List Sounding :=
  match d.control? with
  | some m => s.soundControl now m
  | none => []

/-- Each delivery meets the session as the one before has left it. -/
def soundDeliveries (now : Nanoseconds) : List Delivery → Session → List Sounding
  | [], _ => []
  | d :: ds, s => s.soundDelivery now d ++ soundDeliveries now ds (s.takeDelivery now d)

/-- Whether time makes the session send a ping: it is connected, the peer has not been silent for
too long, and a ping is due. -/
def soundTick (now : Nanoseconds) (s : Session) : List Sounding :=
  if s.phase = .connected ∧ now - s.lastReceived < s.settings.sessionTimeout ∧
      (s.settings.latencyEnabled && isDue now s.settings.pingInterval s.lastPing) = true then
    [.pinged (s.timestamp now)]
  else []

def soundings (op : Operation) (s : Session) : List Sounding :=
  match op with
  | .tick now => s.soundTick now
  | .receive now packet =>
    match s.opened? now packet with
    | some (ds, s) => s.soundDeliveries now ds
    | none => []
  | _ => []

/-- All that is noted in a run. -/
def sounded : List Operation → Session → List Sounding
  | [], _ => []
  | op :: ops, s => s.soundings op ++ sounded ops (s.perform op).2

/-! ## What leaves pings and statistics alone -/

/-- The session remembers the same pings, and nothing was measured. -/
structure Quiet (s s' : Session) : Prop where
  pings_eq : s'.outstandingPings = s.outstandingPings
  latency_eq : s'.latency = s.latency

theorem Quiet.refl (s : Session) : s.Quiet s := ⟨rfl, rfl⟩

theorem Quiet.trans (h : s.Quiet s') (h' : s'.Quiet s'') : s.Quiet s'' :=
  ⟨h'.pings_eq.trans h.pings_eq, h'.latency_eq.trans h.latency_eq⟩

theorem quiet_sendControl (r : Reliability) (m : ControlMessage) (s : Session) :
    s.Quiet (s.sendControl r m) := by
  obtain ⟨sender, heq, -⟩ := sendControl_cases r m s
  rw [heq]
  exact ⟨rfl, rfl⟩

theorem quiet_beginLogin (now : Nanoseconds) (s : Session) : s.Quiet (s.beginLogin now) := by
  unfold beginLogin
  split
  · exact quiet_sendControl _ _ s
  · exact Quiet.refl s

theorem quiet_completeLogin (s : Session) : s.Quiet s.completeLogin := by
  unfold completeLogin
  split
  · exact ⟨rfl, rfl⟩
  · exact Quiet.refl s

theorem quiet_close (reason : CloseReason) (s : Session) : s.Quiet (s.close reason) := by
  unfold close
  split
  · exact Quiet.refl s
  · exact ⟨rfl, rfl⟩

theorem quiet_disconnect (s : Session) : s.Quiet s.disconnect := by
  unfold disconnect
  split
  · exact Quiet.refl s
  · have hsaid := quiet_sendControl .unreliable .disconnectionNotification
      { s with link := s.link.clear }
    exact ⟨hsaid.pings_eq, hsaid.latency_eq⟩

theorem quiet_send {r : Reliability} {channel : UInt8} {payload : Octets}
    {receipt : Option UInt32} (h : s.send r channel payload = .ok (receipt, s')) :
    s.Quiet s' := by
  unfold send at h
  split at h
  · split at h
    · cases h
    · cases h
      exact ⟨rfl, rfl⟩
  · cases h

theorem quiet_takeRequest (now : Nanoseconds) (timestamp : Int64) (useSecurity : Bool)
    (s : Session) : s.Quiet (s.takeRequest now timestamp useSecurity) := by
  unfold takeRequest
  split
  · split
    · have hsaid := quiet_sendControl .reliableOrdered .connectionAttemptFailed s
      exact ⟨hsaid.pings_eq, hsaid.latency_eq⟩
    · exact quiet_sendControl _ _ s
  · exact Quiet.refl s

theorem quiet_takeAcceptance (now : Nanoseconds) (timestamp : Int64) (s : Session) :
    s.Quiet (s.takeAcceptance now timestamp) := by
  unfold takeAcceptance
  split
  · exact (quiet_sendControl _ _ s).trans (quiet_completeLogin _)
  · exact Quiet.refl s

theorem quiet_takeMessage (channel : UInt8) (payload : Octets) (s : Session) :
    s.Quiet (s.takeMessage channel payload) := by
  unfold takeMessage
  split
  · exact ⟨rfl, rfl⟩
  · exact ⟨rfl, rfl⟩
  · exact Quiet.refl s
  · exact Quiet.refl s

theorem quiet_probeIfDue (now : Nanoseconds) (s : Session) : s.Quiet (s.probeIfDue now) := by
  unfold probeIfDue
  split
  · refine Quiet.trans ?_ (quiet_sendControl _ _ _)
    exact ⟨rfl, rfl⟩
  · exact Quiet.refl s

theorem quiet_flush (now : Nanoseconds) (s : Session) : s.Quiet (s.flush now).2 := by
  show s.Quiet (s.flushPackets now).2
  unfold flushPackets
  split
  · exact Quiet.refl s
  · simp only
    split
    · refine Quiet.trans ?_ (quiet_close _ _)
      exact ⟨rfl, rfl⟩
    · exact ⟨rfl, rfl⟩

theorem quiet_opened {now : Nanoseconds} {packet : Octets} {ds : List Delivery}
    (h : s.opened? now packet = some (ds, s')) : s.Quiet s' := by
  unfold opened? at h
  split at h
  · cases h
  · split at h
    · cases h
      exact ⟨rfl, rfl⟩
    · cases h

/-- A packet that brings no deliveries brings no answers to pings. -/
theorem quiet_receive {now : Nanoseconds} {packet : Octets}
    (h : s.opened? now packet = none) : s.Quiet (s.receive now packet).2 := by
  unfold opened? at h
  unfold receive
  split
  · exact Quiet.refl s
  next hopen =>
    rw [if_neg hopen] at h
    split
    next p rest hread =>
      cases p with
      | datagram d =>
        rw [hread] at h
        cases h
      | acknowledgement a => exact ⟨rfl, rfl⟩
    · exact ⟨rfl, rfl⟩

/-! ## What does not

`Sounds` is the same statement for a message, a datagram and an operation, and it composes, so that
each level is put together from the one below. The pings that were answered and those that are
remembered are compared as multisets: two pings may carry one timestamp, and an answer takes one of
them only. A ping that is forgotten because there are too many is why they are fewer and not the
same. -/

/-- What was noted accounts for what has become of pings and statistics: the samples are added to
those before, and those that were answered and those that are remembered now are among those that
were remembered before and those that were sent. -/
structure Sounds (s : Session) (log : List Sounding) (s' : Session) : Prop where
  samples : ∀ past, s.latency.Summarizes past → s'.latency.Summarizes (past ++ samples log)
  owned : (answers log ++ s'.outstandingPings).Subperm (s.outstandingPings ++ pings log)
  few : s.outstandingPings.length ≤ mostOutstandingPings →
    s'.outstandingPings.length ≤ mostOutstandingPings

theorem Quiet.sounds (h : s.Quiet s') : s.Sounds [] s' where
  samples := fun past hpast => by
    rw [h.latency_eq]
    exact (List.append_nil past).symm ▸ hpast
  owned := by
    rw [h.pings_eq]
    exact (List.append_nil s.outstandingPings).symm ▸ List.Subperm.refl _
  few := by
    rw [h.pings_eq]
    exact id

theorem Sounds.trans (h : s.Sounds log s') (h' : s'.Sounds log' s'') :
    s.Sounds (log ++ log') s'' where
  samples := fun past hpast => by
    rw [samples_append, ← List.append_assoc]
    exact h'.samples _ (h.samples past hpast)
  owned := by
    rw [answers_append, pings_append, List.append_assoc, ← List.append_assoc s.outstandingPings]
    have hlater := (List.subperm_append_left (Sounding.answers log)).2 h'.owned
    rw [← List.append_assoc (Sounding.answers log) s'.outstandingPings] at hlater
    exact hlater.trans ((List.subperm_append_right (pings log')).2 h.owned)
  few := fun hfew => h'.few (h.few hfew)

/-- The session remembers a ping that it has not sent yet. -/
def remembering (now : Nanoseconds) (s : Session) : Session :=
  let pings := s.outstandingPings ++ [s.timestamp now]
  { s with
    lastPing := some now
    outstandingPings := if mostOutstandingPings < pings.length then pings.drop 1 else pings }

theorem sendPing_eq (now : Nanoseconds) (s : Session) : s.sendPing now
    = (s.remembering now).sendControl .unreliable (.connectedPing (s.timestamp now)) := rfl

/-- A ping that is remembered takes the place of another, if there are too many. -/
theorem sounds_sendPing (now : Nanoseconds) (s : Session) :
    s.Sounds [.pinged (s.timestamp now)] (s.sendPing now) := by
  have hremembers : s.Sounds [.pinged (s.timestamp now)] (s.remembering now) := by
    refine ⟨fun past hpast => (List.append_nil past).symm ▸ hpast, ?_, fun hfew => ?_⟩
    · show (s.remembering now).outstandingPings.Subperm (s.outstandingPings ++ [s.timestamp now])
      unfold remembering
      simp only
      split
      · exact (List.drop_sublist 1 _).subperm
      · exact List.Subperm.refl _
    · unfold remembering
      simp only
      split
      · rw [List.length_drop, List.length_append, List.length_singleton]
        omega
      next hroom => exact Nat.not_lt.1 hroom
  rw [sendPing_eq]
  exact hremembers.trans (quiet_sendControl _ _ _).sounds

theorem sounds_takePong (now : Nanoseconds) (timestamp reply : Int64) (s : Session) :
    s.Sounds (s.soundControl now (.connectedPong timestamp reply)) (s.takePong now timestamp) := by
  simp only [soundControl, takePong, List.contains_iff_mem]
  split
  next hmem =>
    refine ⟨fun past hpast => hpast.record _, ?_, fun hfew => ?_⟩
    · show (timestamp :: s.outstandingPings.erase timestamp).Subperm (s.outstandingPings ++ [])
      rw [List.append_nil]
      exact (List.perm_cons_erase hmem).symm.subperm
    · exact (List.length_erase_le).trans hfew
  next => exact (Quiet.refl s).sounds

theorem sounds_takeControl (now : Nanoseconds) (m : ControlMessage) (s : Session) :
    s.Sounds (s.soundControl now m) (s.takeControl now m) := by
  cases m with
  | connectedPong timestamp reply => exact sounds_takePong now timestamp reply s
  | detectLostConnections => exact sounds_sendPing now s
  | connectedPing timestamp =>
    exact (quiet_sendControl .unreliable (.connectedPong timestamp (s.timestamp now)) s).sounds
  | connectionRequest _ timestamp useSecurity =>
    exact (quiet_takeRequest now timestamp useSecurity s).sounds
  | connectionRequestAccepted _ _ _ timestamp =>
    exact (quiet_takeAcceptance now timestamp s).sounds
  | newIncomingConnection _ _ _ =>
    refine Quiet.sounds ?_
    unfold takeControl
    simp only
    split
    · exact quiet_completeLogin s
    · exact Quiet.refl s
  | connectionAttemptFailed =>
    refine Quiet.sounds ?_
    unfold takeControl
    simp only
    split
    · exact quiet_close _ s
    · exact Quiet.refl s
  | disconnectionNotification | connectionLost => exact (quiet_close _ s).sounds
  | _ => exact (Quiet.refl s).sounds

theorem takeDelivery_of_control {now : Nanoseconds} {d : Delivery} {m : ControlMessage}
    (h : d.control? = some m) (s : Session) : s.takeDelivery now d = s.takeControl now m := by
  unfold Delivery.control? at h
  unfold takeDelivery
  generalize d.payload = payload at h ⊢
  cases payload with
  | nil => cases h
  | cons id rest =>
    cases hid : ControlId.isConnected id with
    | false =>
      simp only [hid, Bool.false_eq_true, if_false, reduceCtorEq] at h
    | true =>
      simp only [hid, if_true] at h ⊢
      generalize ControlMessage.reader (id :: rest) = read at h ⊢
      cases read with
      | ok result =>
        cases h
        rfl
      | error fault => cases h

/-- What is not a control message has nothing to do with pings. -/
theorem quiet_takeDelivery {now : Nanoseconds} {d : Delivery} (h : d.control? = none)
    (s : Session) : s.Quiet (s.takeDelivery now d) := by
  unfold Delivery.control? at h
  unfold takeDelivery
  generalize d.payload = payload at h ⊢
  cases payload with
  | nil => exact Quiet.refl s
  | cons id rest =>
    cases hid : ControlId.isConnected id with
    | false =>
      simp only [hid, Bool.false_eq_true, if_false]
      exact quiet_takeMessage _ _ s
    | true =>
      simp only [hid, if_true] at h ⊢
      generalize ControlMessage.reader (id :: rest) = read at h ⊢
      cases read with
      | ok result => cases h
      | error fault => exact ⟨rfl, rfl⟩

theorem sounds_takeDelivery (now : Nanoseconds) (d : Delivery) (s : Session) :
    s.Sounds (s.soundDelivery now d) (s.takeDelivery now d) := by
  unfold soundDelivery
  split
  next hcontrol =>
    rw [takeDelivery_of_control hcontrol]
    exact sounds_takeControl now _ s
  next hnone => exact (quiet_takeDelivery hnone s).sounds

theorem sounds_takeDeliveries (now : Nanoseconds) (ds : List Delivery) (s : Session) :
    s.Sounds (s.soundDeliveries now ds) (s.takeDeliveries now ds) := by
  unfold takeDeliveries
  induction ds generalizing s with
  | nil => exact (Quiet.refl s).sounds
  | cons d ds ih => exact (sounds_takeDelivery now d s).trans (ih _)

/-- A ping is sent when it is due, and a probe does not count. -/
theorem sounds_whenDue (now : Nanoseconds) (s : Session) :
    s.Sounds (if s.settings.latencyEnabled && isDue now s.settings.pingInterval s.lastPing then
      [.pinged (s.timestamp now)] else []) ((s.pingIfDue now).probeIfDue now) := by
  have hprobe := (quiet_probeIfDue now (s.pingIfDue now)).sounds
  unfold pingIfDue at hprobe ⊢
  split
  next hdue =>
    rw [if_pos hdue] at hprobe
    exact (sounds_sendPing now s).trans hprobe
  next hdue =>
    rw [if_neg hdue] at hprobe
    exact hprobe

theorem soundTick_of_not {now : Nanoseconds} (h : ¬(s.phase = .connected ∧
    now - s.lastReceived < s.settings.sessionTimeout)) : s.soundTick now = [] :=
  if_neg fun hall => h ⟨hall.1, hall.2.1⟩

/-- With each tick one ping is sent at most. -/
theorem sounds_tick (now : Nanoseconds) (s : Session) :
    s.Sounds (s.soundTick now) (s.tick now) := by
  unfold tick
  split
  next hover =>
    rw [soundTick_of_not fun h => by rw [hover] at h; cases h.1]
    exact (Quiet.refl s).sounds
  next =>
    split
    next hsilent =>
      rw [soundTick_of_not fun h => absurd hsilent (Nat.not_le.2 h.2)]
      exact (quiet_close _ s).sounds
    next hheard =>
      have hticked : s.Quiet
          ({ s with link := (s.link.tick now).2 }.emitReceipts (s.link.tick now).1) := ⟨rfl, rfl⟩
      simp only
      split
      next hconnected =>
        have hconnected : s.phase = .connected := hconnected
        have hnoted : s.soundTick now = if s.settings.latencyEnabled
            && isDue now s.settings.pingInterval s.lastPing then [.pinged (s.timestamp now)]
            else [] := by
          simp only [soundTick, hconnected, Nat.not_le.1 hheard, true_and]
        rw [hnoted]
        exact hticked.sounds.trans (sounds_whenDue now _)
      next hnot =>
        have hnot : s.phase ≠ .connected := hnot
        rw [soundTick_of_not fun h => hnot h.1]
        exact hticked.sounds

/-! ## Any run -/

theorem sounds_perform (op : Operation) (s : Session) :
    s.Sounds (s.soundings op) (s.perform op).2 := by
  cases op with
  | beginLogin now => exact (quiet_beginLogin now s).sounds
  | completeLogin => exact (quiet_completeLogin s).sounds
  | send r channel payload =>
    simp only [perform]
    split
    · exact (Quiet.refl s).sounds
    next hsend => exact (quiet_send hsend).sounds
  | disconnect => exact (quiet_disconnect s).sounds
  | tick now => exact sounds_tick now s
  | flush now => exact (quiet_flush now s).sounds
  | receive now packet =>
    have hreceived : s.Sounds (s.soundings (.receive now packet)) (s.receive now packet).2 := by
      simp only [soundings]
      cases hopened : s.opened? now packet with
      | none => exact (quiet_receive hopened).sounds
      | some result =>
        obtain ⟨ds, s'⟩ := result
        rw [receive_of_opened hopened]
        exact (quiet_opened hopened).sounds.trans (sounds_takeDeliveries now ds s')
    simp only [perform]
    generalize s.receive now packet = received at hreceived ⊢
    obtain ⟨_ | _, s'⟩ := received
    · exact hreceived
    · exact hreceived
  | takeEvents => exact Quiet.sounds ⟨rfl, rfl⟩

/-- **Whatever is done with a session, what was noted accounts for its pings and its samples.** -/
theorem sounds_conduct (ops : List Operation) (s : Session) :
    s.Sounds (s.sounded ops) (s.conduct ops).2 := by
  unfold conduct
  induction ops generalizing s with
  | nil => exact (Quiet.refl s).sounds
  | cons op ops ih =>
    rw [Stepwise.collect_cons]
    exact (sounds_perform op s).trans (ih _)

/-- The delivery at a place is dealt with by the session that has dealt with those before it. -/
theorem partway_succ_of_handles {now : Nanoseconds} {packet : Octets} {n : Nat} {phase : Phase}
    {d : Delivery} (h : (s.handles (.receive now packet))[n]? = some (phase, d)) :
    s.partway now packet (n + 1) = (s.partway now packet n).takeDelivery now d := by
  simp only [handles] at h
  unfold partway
  cases hopened : s.opened? now packet with
  | none =>
    rw [hopened] at h
    cases h
  | some result =>
    obtain ⟨ds, s'⟩ := result
    rw [hopened] at h
    have hd : ds[n]? = some d := by
      rw [← map_snd_meets now ds s', List.getElem?_map, h]
      rfl
    obtain ⟨hn, rfl⟩ := List.getElem?_eq_some_iff.1 hd
    exact takeDeliveries_take_succ now hn s'

/-- An answer to a ping that is not remembered changes nothing. -/
theorem takeDelivery_of_unmatched {now : Nanoseconds} {d : Delivery} {timestamp reply : Int64}
    (h : d.control? = some (.connectedPong timestamp reply))
    (hunmatched : timestamp ∉ s.outstandingPings) : s.takeDelivery now d = s := by
  rw [takeDelivery_of_control h]
  exact if_neg fun hmem => hunmatched (List.contains_iff_mem.1 hmem)

/-- A ping that is sent goes into the queue, with any settings that are valid. -/
theorem Made.queued_sendPing {settings : Settings} {role : Role} {address : Address}
    {mtu : UInt16} (h : s.Made settings role address mtu) (hvalid : settings.Valid)
    (hmtu : settings.minMtu ≤ mtu) (now : Nanoseconds) :
    Queued (.connectedPing (s.timestamp now)) s (s.sendPing now) := by
  have hmin := hvalid.bounds.1
  have hpos := hvalid.maxFragmentsPerSend_pos
  rw [UInt16.le_iff_toNat_le] at hmtu
  have hheader : Message.headerLength Reliability.unreliable.ofFragments true = 16 := by decide
  have hroom : 9 ≤ (mtu.toNat - (32 + Message.headerLength Reliability.unreliable.ofFragments true))
      * settings.maxFragmentsPerSend := by
    rw [hheader]
    exact Nat.le_trans (by omega) (Nat.le_mul_of_pos_right _ hpos)
  have hremembers : (s.remembering now).Made settings role address mtu :=
    ⟨h.settings_eq, h.role_eq, h.address_eq, h.suits⟩
  have haccepted := (hremembers.refusal?_eq_none_iff hvalid .unreliable
    (Octets.u8 ControlId.connectedPing ++ Octets.i64 (s.timestamp now))).2 hroom
  rw [sendPing_eq]
  exact queued_sendControl rfl rfl haccepted

/-- In the middle of a datagram a session is still what it was made. -/
theorem made_partway {settings : Settings} {role : Role} {address : Address} {mtu : UInt16}
    (h : s.phase ≠ .disconnected → s.Made settings role address mtu) (now : Nanoseconds)
    (packet : Octets) (n : Nat) : (s.partway now packet n).phase ≠ .disconnected →
      (s.partway now packet n).Made settings role address mtu :=
  keeps_row (P := fun s => s.phase ≠ .disconnected → s.Made settings role address mtu)
    (fun _ _ hgoes hmade hphase => (hmade (hgoes.phase_ne hphase)).goes hgoes hphase)
    (goes_partway now packet n s) h

/-- **What becomes of pings and samples.** After any run, at most thirty-two pings are remembered,
and the statistics are those of the samples. Those that were answered and those that are remembered
are among those that were sent, so there are not more of them; and with valid settings a ping that a
session sends goes into the queue, as long as the session has not ended. An answer that no ping is
remembered for changes nothing at all about the session that it meets. As long as sum and count are
not at their ends, the mean and the last sample lie between the least and the greatest. -/
theorem pings_accounted (settings : Settings) (role : Role) (address : Address) (guid : UInt64)
    (mtu : UInt16) (start : Nanoseconds) (ops : List Operation) :
    let s₀ := fresh settings role address guid mtu start
    let s := (s₀.conduct ops).2
    let log := s₀.sounded ops
    s.outstandingPings.length ≤ 32 ∧
      s.latency.Summarizes (samples log) ∧
      (answers log ++ s.outstandingPings).Subperm (pings log) ∧
      (samples log).length + s.outstandingPings.length ≤ (pings log).length ∧
      (settings.Valid → settings.minMtu ≤ mtu → ∀ (now : Nanoseconds) (packet : Octets) (n : Nat),
        let s' := s.partway now packet n
        s'.phase ≠ .disconnected →
          Queued (.connectedPing (s'.timestamp now)) s' (s'.sendPing now)) ∧
      (∀ (now : Nanoseconds) (packet : Octets) (n : Nat) (phase : Phase) (d : Delivery)
          (timestamp reply : Int64),
        (s.handles (.receive now packet))[n]? = some (phase, d) →
        d.control? = some (.connectedPong timestamp reply) →
        timestamp ∉ (s.partway now packet n).outstandingPings →
        s.partway now packet (n + 1) = s.partway now packet n) ∧
      (samples log ≠ [] → (samples log).sum < Nanoseconds.longest →
        (samples log).length < 4294967296 →
        ∃ lowest mean highest last, s.latency.lowest = some lowest ∧
          s.latency.average? = some mean ∧ s.latency.highest = some highest ∧
          s.latency.last = some last ∧
          lowest ≤ mean ∧ mean ≤ highest ∧ lowest ≤ last ∧ last ≤ highest) := by
  intro s₀ s log
  have hsounds : s₀.Sounds log s := sounds_conduct ops s₀
  have hsamples : s.latency.Summarizes (samples log) :=
    hsounds.samples [] Latency.summarizes_nothing
  have howned : (answers log ++ s.outstandingPings).Subperm (pings log) := hsounds.owned
  have hcount := howned.length_le
  rw [List.length_append, length_answers] at hcount
  refine ⟨hsounds.few (Nat.zero_le _), hsamples, howned, hcount, ?_, ?_, ?_⟩
  · intro hvalid hmtu now packet n s' hphase
    have hmade := made_conduct settings role address guid mtu start ops
    exact (made_partway hmade now packet n hphase).queued_sendPing hvalid hmtu now
  · intro now packet n phase d timestamp reply hhandled hcontrol hunmatched
    rw [partway_succ_of_handles hhandled]
    exact takeDelivery_of_unmatched hcontrol hunmatched
  · intro hsome hsum hfew
    exact hsamples.between hsome (Nat.le_of_lt hsum) (Nat.le_of_lt_succ hfew)

/-- A ping is sent after two milliseconds, and its answer arrives twice, after seven and after
eight. -/
def answeredTwice : List Operation :=
  let pong (sequence : UInt8) : Octets := [0x84, sequence, 0, 0, 0, 0, 0x88, 0x03,
    0, 0, 0, 0, 0, 0, 0, 2, 0, 0, 0, 0, 0, 0, 0, 9]
  [.completeLogin, .tick 2000000, .receive 7000000 (pong 0), .receive 8000000 (pong 1)]

theorem pings_accounted_answeredTwice :
    (fresh {} .server ⟨.v4 0, 0⟩ 0 1464 0).sounded answeredTwice
        = [.pinged 2, .answered 2 5000000] ∧
      ∃ lowest mean,
        ((fresh {} .server ⟨.v4 0, 0⟩ 0 1464 0).conduct answeredTwice).2.latency.lowest
          = some lowest ∧
        ((fresh {} .server ⟨.v4 0, 0⟩ 0 1464 0).conduct answeredTwice).2.latency.average?
          = some mean ∧
        lowest ≤ mean := by
  have hlog : (fresh {} .server ⟨.v4 0, 0⟩ 0 1464 0).sounded answeredTwice
      = [.pinged 2, .answered 2 5000000] := by decide +kernel
  obtain ⟨-, -, -, -, -, -, hbetween⟩ :=
    pings_accounted {} .server ⟨.v4 0, 0⟩ 0 1464 0 answeredTwice
  rw [hlog] at hbetween
  obtain ⟨lowest, mean, -, -, hlowest, hmean, -, -, hle, -⟩ :=
    hbetween (List.cons_ne_nil _ _) (by decide) (by decide)
  exact ⟨hlog, lowest, mean, hlowest, hmean, hle⟩

end Session

end DatagramTransport

import DatagramTransport.Proofs.Lifetime
import DatagramTransport.Proofs.Routine

/-!
# Parting — what a session that was told to end still sends

To end a session is to clear its queue, to put a notification into it and to wait for the next
flush. Until then packets arrive and time passes: pings are answered, losses are reported, the peer
may say goodbye itself, and the application may still try to send. **What the last flush sends
begins with the notification, and the rest is pings and answers to pings.** Nothing comes back, as
nothing is in flight, and nothing is taken from the application.

The one assumption is on the size of packet, which has to leave room for the longest header of a
message. Every size that a configuration admits is far above that.
-/

set_option autoImplicit false

namespace DatagramTransport

namespace Outgoing

/-- A message without a guarantee that waits to be sent for the first time, for nobody. -/
def brief (payload : Octets) : Outgoing := ⟨⟨.unreliable, none, none, none, payload⟩, none, false⟩

/-- The notification that the session ends. -/
def farewell : Outgoing := brief [ControlId.disconnectionNotification]

/-- A ping, or the answer to one. -/
def IsCourtesy (e : Outgoing) : Prop :=
  ∃ payload, e = brief payload ∧
    ((∃ timestamp, (ControlMessage.connectedPing timestamp).encode = .ok payload) ∨
      ∃ ping pong, (ControlMessage.connectedPong ping pong).encode = .ok payload)

end Outgoing

namespace Sender

variable {s s' : Sender} {settings : Settings} {mtu : UInt16} {payload : Octets}

/-- A short payload without a guarantee waits as it is. -/
theorem entries_of_send_brief (hsuits : s.queue.Suits settings mtu) (hmtu : 52 ≤ mtu.toNat)
    (hbrief : payload.length ≤ 17) {receipt : Option UInt32}
    (hsend : s.send .unreliable 0 payload = .ok (receipt, s')) :
    s'.queue.entries.toList = s.queue.entries.toList ++ [.brief payload] := by
  have hwhole : s.queue.fitsWhole .unreliable payload = true := by
    rw [Queue.fitsWhole, decide_eq_true_eq, hsuits.capacity_eq]
    show 3 + payload.length ≤ mtu.toNat - 28 - 4
    omega
  have hmessage : s.queue.wholeMessage .unreliable 0 payload
      = ⟨.unreliable, none, none, none, payload⟩ := by
    have horder : s.queue.orderMark .unreliable 0 = none := by
      unfold Queue.orderMark
      cases s.queue.channels[(0 : UInt8).toNat]? <;> rfl
    simp only [Queue.wholeMessage, horder]
    rfl
  rw [entries_of_send rfl hsend, Queue.messagesFor, if_pos hwhole, hmessage]
  rfl

/-- The notification waits in front of everything else, the rest are courtesies, and nothing is in
flight. -/
structure Parts (settings : Settings) (mtu : UInt16) (s : Sender) : Prop where
  suits : s.queue.Suits settings mtu
  entries_eq : ∃ rest, s.queue.entries.toList = .farewell :: rest ∧ ∀ e ∈ rest, e.IsCourtesy
  not_flies : ∀ sequence m, ¬ s.Flies sequence m

theorem Parts.say (h : s.Parts settings mtu) (hmtu : 52 ≤ mtu.toNat) {receipt : Option UInt32}
    (hbrief : payload.length ≤ 17) (hcourtesy : (Outgoing.brief payload).IsCourtesy)
    (hsend : s.send .unreliable 0 payload = .ok (receipt, s')) : s'.Parts settings mtu := by
  obtain ⟨rest, hentries, hrest⟩ := h.entries_eq
  obtain ⟨-, hqueue, -, hflight⟩ := send_eq_ok hsend
  refine ⟨hqueue ▸ h.suits.append _ _ _ _, ⟨rest ++ [.brief payload], ?_, fun e he => ?_⟩, ?_⟩
  · rw [entries_of_send_brief h.suits hmtu hbrief hsend, hentries, List.cons_append]
  · rcases List.mem_append.1 he with hold | hnew
    · exact hrest e hold
    · rwa [List.mem_singleton.1 hnew]
  · unfold Flies
    rw [hflight]
    exact h.not_flies

/-- Where nothing is in flight, nothing comes back. -/
theorem Parts.recalls (h : s.Parts settings mtu) (hrecalls : s.Recalls s') :
    s'.Parts settings mtu := by
  obtain ⟨back, hqueue, hback⟩ := hrecalls.entries_eq
  obtain rfl : back = [] := List.eq_nil_iff_forall_not_mem.2 fun e he => by
    obtain ⟨sequence, hflies⟩ := hback e he
    exact h.not_flies sequence _ hflies
  refine ⟨hqueue ▸ h.suits.entries _, ?_, fun sequence m hflies =>
    h.not_flies sequence m (hrecalls.flies sequence m hflies)⟩
  rw [hqueue]
  simpa only [Fifo.toList_prepend, List.nil_append] using h.entries_eq

theorem Parts.deed (h : s.Parts settings mtu) (hmtu : 52 ≤ mtu.toNat)
    (deed : Deed .disconnecting s s') : s'.Parts settings mtu := by
  cases deed with
  | say hsaid hsend =>
    cases hsaid with
    | ping hencode =>
      refine h.say hmtu ?_ ⟨_, rfl, Or.inl ⟨_, hencode⟩⟩ hsend
      cases hencode
      simp
    | pong hencode =>
      refine h.say hmtu ?_ ⟨_, rfl, Or.inr ⟨_, _, hencode⟩⟩ hsend
      cases hencode
      simp
  | hear _ now a => exact h.recalls (recalls_receive now a s)
  | tick _ now => exact h.recalls (recalls_tick now s)
  | flush hopen => cases hopen

end Sender

namespace Session

variable {s s' : Session} {settings : Settings} {role : Role} {address : Address} {mtu : UInt16}

/-- The session is about to end or has ended; until it has, its sender parts. -/
structure Parting (settings : Settings) (mtu : UInt16) (s : Session) : Prop where
  phase : s.phase = .disconnecting ∨ s.phase = .disconnected
  settings_eq : s.phase = .disconnecting → s.settings = settings
  sender : s.phase = .disconnecting → s.link.sender.Parts settings mtu

/-- Ending a session puts the notification into an empty queue. -/
theorem Made.parting_disconnect (h : s.Made settings role address mtu) (hvalid : settings.Valid)
    (hmtu : 52 ≤ mtu.toNat) (hopen : s.phase = .handshaking ∨ s.phase = .connected) :
    s.disconnect.Parting settings mtu := by
  have hnot : ¬(s.phase = .disconnecting ∨ s.phase = .disconnected) := by
    rcases hopen with hopen | hopen <;> simp [hopen]
  have haccepted : { s with link := s.link.clear }.link.sender.queue.refusal? .unreliable 0
      [ControlId.disconnectionNotification] = none := by
    rw [h.clear.refusal?_eq_none_iff hvalid]
    show 1 ≤ (mtu.toNat - 48) * settings.maxFragmentsPerSend
    exact Nat.mul_pos (by omega) hvalid.maxFragmentsPerSend_pos
  obtain ⟨sender, receipt, hsent, hsend⟩ :=
    sendControl_of_accepted (m := .disconnectionNotification) rfl haccepted
  unfold Session.disconnect
  rw [if_neg hnot, hsent]
  refine ⟨Or.inl rfl, fun _ => h.settings_eq, fun _ => ⟨?_, ⟨[], ?_, nofun⟩, ?_⟩⟩
  · show sender.queue.Suits settings mtu
    rw [(Sender.send_eq_ok hsend).2.1]
    exact h.clear.suits.append _ _ _ _
  · exact Sender.entries_of_send_brief h.clear.suits hmtu (by decide) hsend
  · intro sequence m
    show ¬ sender.Flies sequence m
    unfold Sender.Flies
    rw [(Sender.send_eq_ok hsend).2.2.2]
    rintro ⟨sent, hget, -⟩
    simp [Link.clear, Sender.clear] at hget

theorem Parting.goes (h : s.Parting settings mtu) (hmtu : 52 ≤ mtu.toNat) (hgoes : s.Goes s') :
    s'.Parting settings mtu := by
  rcases hgoes.of_late h.phase with hstays | hended
  · refine ⟨hstays.phase_eq ▸ h.phase, fun hphase => ?_, fun hphase => ?_⟩
    · rw [hstays.settings_eq]
      exact h.settings_eq (hstays.phase_eq ▸ hphase)
    · have hphase := hstays.phase_eq.symm.trans hphase
      exact keeps_row (P := fun sender : Sender => sender.Parts settings mtu)
        (fun _ _ deed hparts => hparts.deed hmtu (hphase ▸ deed)) hstays.deeds (h.sender hphase)
  · exact ⟨Or.inr hended, by simp [hended], by simp [hended]⟩

/-- What a payload that is sent needs. -/
theorem phase_of_isAccepted {op : Operation} (h : (s.perform op).1.isAccepted = true) :
    s.phase = .connected := by
  cases op with
  | send r channel payload =>
    by_contra hphase
    have hrefused : s.send r channel payload = .error .notConnected := if_neg hphase
    simp only [perform, hrefused] at h
    cases h
  | receive now packet =>
    simp only [perform] at h
    split at h <;> cases h
  | beginLogin | completeLogin | disconnect | tick | flush | takeEvents => cases h

/-- A session that is about to end takes nothing from the application any more. -/
theorem Parting.isAccepted (h : s.Parting settings mtu) (hmtu : 52 ≤ mtu.toNat)
    (ops : List Operation) : ∀ a ∈ (s.conduct ops).1, a.isAccepted = false := by
  unfold Session.conduct
  induction ops generalizing s with
  | nil => exact nofun
  | cons op ops ih =>
    have hnext : (s.perform op).2.Parting settings mtu :=
      keeps_row (fun _ _ hgoes h => h.goes hmtu hgoes) (goes_perform op s) h
    rw [Stepwise.collect_cons]
    refine List.forall_mem_cons.2 ⟨Bool.eq_false_iff.2 fun hyes => ?_, ih hnext⟩
    have hphase := phase_of_isAccepted hyes
    rcases h.phase with hover | hover
    · rw [hphase] at hover
      cases hover
    · rw [hphase] at hover
      cases hover

/-- What the last flush takes out of the queue begins with the notification. -/
theorem Parting.pack (h : s.Parting settings mtu) (hvalid : settings.Valid)
    (hphase : s.phase = .disconnecting) :
    ∃ taken sent others,
      (s.link.sender.queue.pack s.settings.maxDatagramsPerTick).1
        = (.farewell :: taken) :: others ∧
      ((.farewell :: taken) :: others).flatten = .farewell :: sent ∧
      .farewell :: sent <+: s.link.sender.queue.entries.toList ∧ ∀ e ∈ sent, e.IsCourtesy := by
  obtain ⟨rest, hentries, hrest⟩ := (h.sender hphase).entries_eq
  obtain ⟨limit, hlimit⟩ :=
    Nat.exists_eq_succ_of_ne_zero (Nat.ne_of_gt hvalid.maxDatagramsPerTick_pos)
  have hpack := s.link.sender.queue.pack_entries s.settings.maxDatagramsPerTick
  have hfirst : ∃ taken others, (s.link.sender.queue.pack s.settings.maxDatagramsPerTick).1
      = (.farewell :: taken) :: others := by
    unfold Sender.Queue.pack
    rw [h.settings_eq hphase, hlimit, hentries]
    simp only [Packing.batches_cons]
    exact ⟨_, _, rfl⟩
  obtain ⟨taken, others, hfirst⟩ := hfirst
  rw [hfirst, List.flatten_cons, List.cons_append, List.cons_append] at hpack
  refine ⟨taken, taken ++ others.flatten, others, hfirst, rfl, ⟨_, hpack⟩, fun e he => hrest e ?_⟩
  rw [hentries] at hpack
  rw [← (List.cons.inj hpack).2]
  exact List.mem_append_left _ he

/-- **What is sent last begins with the notification, and nothing but pings and answers to pings is
sent with it.** A session that is in the login or connected is told to end, and then anything is
done with it; if it has not ended by the next flush, this flush begins with the notification, brings
nothing that was sent before and nothing of the application, and ends the session. -/
theorem farewell_first (hvalid : settings.Valid) (role : Role) (address : Address) (guid : UInt64)
    (mtu : UInt16) (hmtu : 52 ≤ mtu.toNat) (start : Nanoseconds) (before between : List Operation)
    (now : Nanoseconds) :
    let s := ((fresh settings role address guid mtu start).conduct before).2
    let s' := (s.disconnect.conduct between).2
    s.phase = .handshaking ∨ s.phase = .connected → s'.phase = .disconnecting →
      (∃ (acknowledgements : List Acknowledgement) (first : Datagram) (rest : List Datagram)
          (sent : List Outgoing),
        (s'.flush now).1 = (acknowledgements.map Packet.acknowledgement
          ++ (first :: rest).map Packet.datagram).map Packet.encode ∧
        (∃ more, first.messages = Outgoing.farewell.message :: more) ∧
        (first :: rest).flatMap (·.messages) = (Outgoing.farewell :: sent).map (·.message) ∧
        Outgoing.farewell :: sent <+: s'.link.sender.queue.entries.toList ∧
        ∀ e ∈ sent, e.IsCourtesy) ∧
      (∀ sequence m, ¬ s'.link.sender.Flies sequence m) ∧
      (∀ a ∈ (s.disconnect.conduct between).1, a.isAccepted = false) ∧
      (s'.flush now).2.phase = .disconnected := by
  intro s s' hopen hphase
  have hmade : s.Made settings role address mtu := by
    refine made_conduct settings role address guid mtu start before ?_
    rcases hopen with hopen | hopen
    · exact hopen ▸ nofun
    · exact hopen ▸ nofun
  have hparting := hmade.parting_disconnect hvalid hmtu hopen
  have hlast : s'.Parting settings mtu :=
    keeps_conduct (fun _ _ hgoes h => h.goes hmtu hgoes) hparting between
  obtain ⟨taken, sent, others, hpack, hflatten, hprefix, hcourtesies⟩ := hlast.pack hvalid hphase
  obtain ⟨acknowledgements, datagrams, hflush, hmessages⟩ :=
    s'.flush_packets (hphase ▸ nofun) now
  rw [hpack, List.map_cons] at hmessages
  obtain ⟨first, rest, rfl, hfirst, hrest⟩ := List.map_eq_cons_iff.1 hmessages
  refine ⟨⟨acknowledgements, first, rest, sent, hflush, ⟨_, hfirst⟩, ?_, hprefix, hcourtesies⟩,
    (hlast.sender hphase).not_flies, hparting.isAccepted hmtu between,
    phase_flush_of_disconnecting hphase now⟩
  rw [← hflatten, List.flatMap_def, List.map_cons, hfirst, hrest, ← List.map_cons,
    List.map_flatten]

/-- A session is connected, has sent a payload, and another one waits. -/
def occupied : Session :=
  ((fresh {} .server ⟨.v4 0, 0⟩ 0 1464 0).conduct [.completeLogin, .send .reliable 0 [0x86],
    .flush 0, .send .reliable 0 [0x87]]).2

/-- The payload that was sent is reported as missing, a ping arrives, and the application wants to
send once more. -/
def interruptions : List Operation :=
  [.receive 1 [0xa0, 0, 1, 1, 0, 0, 0],
    .receive 1 [0x84, 0, 0, 0, 0x00, 0, 72, 0x00, 0, 0, 0, 0, 0, 0, 0, 7],
    .send .reliable 0 [0x88], .tick 2]

/-- The notification and the answer to the ping are all that is sent. -/
theorem farewell_first_occupied :
    let s' := (occupied.disconnect.conduct interruptions).2
    occupied.phase = .connected ∧ s'.phase = .disconnecting ∧
      (∃ (acknowledgements : List Acknowledgement) (first : Datagram) (rest : List Datagram),
        (s'.flush 3).1 = (acknowledgements.map Packet.acknowledgement
          ++ (first :: rest).map Packet.datagram).map Packet.encode ∧
        ∃ more, first.messages = Outgoing.farewell.message :: more) ∧
      (s'.flush 3).1 = [[0xc0, 0, 1, 1, 0, 0, 0],
        [0x84, 1, 0, 0, 0x00, 0, 8, 0x15,
          0x00, 0, 136, 0x03, 0, 0, 0, 0, 0, 0, 0, 7, 0, 0, 0, 0, 0, 0, 0, 0]] ∧
      (s'.flush 3).2.phase = .disconnected := by
  intro s'
  have hvalid : Settings.Valid {} := by decide +kernel
  have hopen : occupied.phase = .connected := by decide +kernel
  have hphase : s'.phase = .disconnecting := by decide +kernel
  obtain ⟨⟨acknowledgements, first, rest, sent, hflush, hfirst, -⟩, -, -, hended⟩ :=
    farewell_first hvalid .server ⟨.v4 0, 0⟩ 0 1464 (by decide) 0 [.completeLogin,
      .send .reliable 0 [0x86], .flush 0, .send .reliable 0 [0x87]] interruptions 3
      (Or.inr hopen) hphase
  exact ⟨hopen, hphase, ⟨acknowledgements, first, rest, hflush, hfirst⟩, by decide +kernel, hended⟩

end Session

end DatagramTransport

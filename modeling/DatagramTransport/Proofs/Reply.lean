import DatagramTransport.Proofs.ControlEncoding
import DatagramTransport.Proofs.Lifetime
import DatagramTransport.Proofs.Provenance
import DatagramTransport.Proofs.Routine

/-!
# Reply — whether a client that is connected has said so

A client ends its login by answering the acceptance of the server, and then it is connected. Nobody
asks whether the answer was sent. It repeats the address of the server, and a control message that
has no encoding is not sent. **The answer is put into the queue exactly if that address has a record
and the answer is not too long**, and the client is connected in any case.

The answer has ninety-four octets. It is too long only for packets that are smaller than any that a
configuration admits, so there the address decides alone: a client whose server has an address of
the long family, without a short form, believes that it is connected, and the server never hears of
it.
-/

set_option autoImplicit false

namespace DatagramTransport

namespace ControlMessage

variable {address : Address} {payload : Octets}

/-- The answer of a client has an encoding if the address of its server has one. -/
theorem encode_newIncomingConnection_iff {accepted sent : Int64} :
    (∃ payload, (newIncomingConnection address accepted sent).encode = .ok payload)
      ↔ address.host.toV4? ≠ none := by
  obtain ⟨system, hsystem, -⟩ := length_systemAddresses
  simp only [encode, fields, hsystem, Address.encode]
  cases address.host.toV4? with
  | none =>
    refine ⟨?_, fun hsome => absurd rfl hsome⟩
    rintro ⟨payload, hok⟩
    cases hok
  | some bits => exact ⟨fun _ => Option.some_ne_none bits, fun _ => ⟨_, rfl⟩⟩

theorem length_newIncomingConnection {accepted sent : Int64}
    (h : (newIncomingConnection address accepted sent).encode = .ok payload) :
    payload.length = 94 := by
  obtain ⟨fields, hfields, rfl⟩ := encode_eq_ok h
  obtain ⟨system, hsystem, hlength⟩ := length_systemAddresses
  simp only [ControlMessage.fields, hsystem] at hfields
  cases hrecord : address.encode with
  | error fault =>
    rw [hrecord] at hfields
    cases hfields
  | ok record =>
    rw [hrecord] at hfields
    cases hfields
    simp [Address.length_of_encode hrecord, hlength, Address.recordLength]

end ControlMessage

/-- What a payload is sent as, put together again, is the payload. -/
theorem Sender.Queue.payload_messagesFor {q : Queue} {r : Reliability} {channel : UInt8}
    {payload : Octets} (haccepted : q.refusal? r channel payload = none) (hsome : payload ≠ []) :
    (q.messagesFor r channel payload).flatMap (·.payload) = payload := by
  unfold messagesFor
  split
  · exact List.append_nil payload
  · have hpieces : (q.fragmentMessages r channel payload).map (·.payload)
        = payload.chunks (q.fragmentLength r) := by
      refine List.ext_getElem (by simp [fragmentMessages]) fun i _ _ => ?_
      simp [fragmentMessages]
    rw [List.flatMap_def, hpieces,
      Octets.flatten_chunks (fragmentLength_ne_zero_of_accepted haccepted hsome)]

namespace Session

variable {s s' : Session} {m : ControlMessage} {payload : Octets} {now : Nanoseconds}

/-! ## Whether a control message is sent -/

/-- A control message was put at the end of the queue, whole or in fragments. -/
def Queued (m : ControlMessage) (s s' : Session) : Prop :=
  ∃ payload new, m.encode = .ok payload ∧ new ≠ [] ∧
    s'.link.sender.queue.entries.toList = s.link.sender.queue.entries.toList ++ new ∧
    new.flatMap (fun e => e.message.payload) = payload

theorem queued_sendControl {r : Reliability} (hr : r.wantsReceipt = false)
    (hencode : m.encode = .ok payload)
    (haccepted : s.link.sender.queue.refusal? r 0 payload = none) :
    Queued m s (s.sendControl r m) := by
  obtain ⟨sender, receipt, hsent, hsend⟩ := sendControl_of_accepted hencode haccepted
  obtain ⟨fields, -, rfl⟩ := ControlMessage.encode_eq_ok hencode
  have hpayload := Sender.Queue.payload_messagesFor haccepted (List.cons_ne_nil _ fields)
  rw [hsent]
  refine ⟨_, _, hencode, ?_, Sender.entries_of_send hr hsend, ?_⟩
  · intro hnone
    rw [List.map_eq_nil_iff] at hnone
    rw [hnone] at hpayload
    cases hpayload
  · rw [List.flatMap_map]
    exact hpayload

/-! ## The step that ends the login of a client -/

@[simp] theorem completeLogin_link (s : Session) : s.completeLogin.link = s.link := by
  unfold completeLogin
  split <;> rfl

/-- A client that was in the login and is connected has taken an acceptance. -/
theorem takeDelivery_eq_joined {d : Delivery} (hrole : s.role = .client)
    (hphase : s.phase = .handshaking) (hnext : (s.takeDelivery now d).phase = .connected) :
    ∃ accepted, s.takeDelivery now d = s.joined now accepted := by
  have hdeals := deals_takeDelivery now d s
  generalize s.takeDelivery now d = s' at hdeals hnext
  cases hdeals with
  | stays hstays =>
    rw [hstays.phase_eq, hphase] at hnext
    cases hnext
  | admits hserver | rebuffs hserver =>
    rw [hrole] at hserver
    cases hserver
  | joins _ _ accepted => exact ⟨accepted, rfl⟩
  | ends hended =>
    rw [hnext] at hended
    cases hended

variable {settings : Settings} {address : Address} {mtu : UInt16}

/-- The answer of a client can be sent: it has an encoding, and it is not too long. -/
def Answerable (settings : Settings) (address : Address) (mtu : UInt16) : Prop :=
  address.host.toV4? ≠ none ∧ 94 ≤ (mtu.toNat - 52) * settings.maxFragmentsPerSend

instance : Decidable (Answerable settings address mtu) := inferInstanceAs (Decidable (_ ∧ _))

/-- With any size of packet that the settings admit, the address alone decides. -/
theorem answerable_iff (hvalid : settings.Valid) (hmtu : settings.minMtu ≤ mtu) :
    Answerable settings address mtu ↔ address.host.toV4? ≠ none := by
  have hmin := hvalid.bounds.1
  rw [UInt16.le_iff_toNat_le] at hmtu
  refine and_iff_left ?_
  calc 94 ≤ mtu.toNat - 52 := by omega
    _ ≤ (mtu.toNat - 52) * settings.maxFragmentsPerSend :=
      Nat.le_mul_of_pos_right _ hvalid.maxFragmentsPerSend_pos

/-- Nothing was put into a queue that is as it was. -/
theorem not_queued_of_queue_eq (h : s'.link.sender.queue = s.link.sender.queue) :
    ¬Queued m s s' := by
  rintro ⟨payload, new, -, hsome, hentries, -⟩
  rw [h] at hentries
  exact hsome (List.self_eq_append_right.1 hentries)

/-- **What the answer depends on.** Where it cannot be sent, the queue stays as it is. -/
theorem Made.queued_joined_iff (h : s.Made settings .client address mtu)
    (hvalid : settings.Valid) (now : Nanoseconds) (accepted : Int64) :
    (Queued (.newIncomingConnection address accepted (s.timestamp now)) s (s.joined now accepted)
        ↔ Answerable settings address mtu) ∧
      (¬Answerable settings address mtu →
        (s.joined now accepted).link.sender.queue = s.link.sender.queue) := by
  have hrefusal := h.refusal?_eq_none_iff hvalid .reliableOrdered
  have hencode := @ControlMessage.encode_newIncomingConnection_iff address accepted
    (s.timestamp now)
  have hlength := @ControlMessage.length_newIncomingConnection address
  have hlink : (s.joined now accepted).link = (s.sendControl .reliableOrdered
      (.newIncomingConnection address accepted (s.timestamp now))).link := by
    rw [joined, completeLogin_link, h.address_eq]
  -- the message is not sent, and nothing else happens to the queue
  have hunsent (hno : ¬Answerable settings address mtu) (hsame : s.sendControl .reliableOrdered
      (.newIncomingConnection address accepted (s.timestamp now)) = s) :
      (Queued (.newIncomingConnection address accepted (s.timestamp now)) s
          (s.joined now accepted) ↔ Answerable settings address mtu) ∧
        (¬Answerable settings address mtu →
          (s.joined now accepted).link.sender.queue = s.link.sender.queue) := by
    have hqueue : (s.joined now accepted).link.sender.queue = s.link.sender.queue := by
      rw [hlink, hsame]
    exact ⟨iff_of_false (not_queued_of_queue_eq hqueue) hno, fun _ => hqueue⟩
  cases hpayload : (ControlMessage.newIncomingConnection address accepted (s.timestamp now)).encode
    with
  | error fault =>
    refine hunsent (fun hyes => ?_) (sendControl_of_fault _ hpayload s)
    obtain ⟨payload, hok⟩ := hencode.2 hyes.1
    rw [hpayload] at hok
    cases hok
  | ok payload =>
    specialize hrefusal payload
    rw [hlength hpayload] at hrefusal
    cases hrefused : s.link.sender.queue.refusal? .reliableOrdered 0 payload with
    | some fault =>
      refine hunsent (fun hyes => ?_) (sendControl_of_refused hpayload hrefused)
      rw [hrefusal.2 hyes.2] at hrefused
      cases hrefused
    | none =>
      have hyes : Answerable settings address mtu :=
        ⟨hencode.1 ⟨payload, hpayload⟩, hrefusal.1 hrefused⟩
      refine ⟨iff_of_true ?_ hyes, fun hno => absurd hyes hno⟩
      unfold Queued
      rw [hlink]
      exact queued_sendControl rfl hpayload hrefused

/-! ## Any packet, in any run -/

theorem takeDeliveries_take_succ (now : Nanoseconds) {ds : List Delivery} {n : Nat}
    (h : n < ds.length) (s : Session) : s.takeDeliveries now (ds.take (n + 1))
      = (s.takeDeliveries now (ds.take n)).takeDelivery now ds[n] := by
  rw [List.take_succ_eq_append_getElem h, takeDeliveries, List.foldl_append]
  rfl

/-- One delivery more is dealt with. -/
theorem partway_succ (now : Nanoseconds) (packet : Octets) (n : Nat) (s : Session) :
    s.partway now packet (n + 1) = s.partway now packet n ∨
      ∃ d, s.partway now packet (n + 1) = (s.partway now packet n).takeDelivery now d := by
  unfold partway
  split
  next ds s' _ =>
    rcases Nat.lt_or_ge n ds.length with hlt | hge
    · exact Or.inr ⟨ds[n], takeDeliveries_take_succ now hlt s'⟩
    · rw [List.take_of_length_le hge, List.take_of_length_le (Nat.le_succ_of_le hge)]
      exact Or.inl rfl
  next => exact Or.inl rfl

theorem goes_partway (now : Nanoseconds) (packet : Octets) (n : Nat) (s : Session) :
    Relation.ReflTransGen Goes s (s.partway now packet n) := by
  unfold partway
  split
  next hopened => exact .head (stays_opened hopened).goes (goes_takeDeliveries now _ _)
  next => exact .refl

/-- A client that goes into a datagram in the login and comes out connected has become so with one
of the deliveries. -/
theorem exists_joining (ds : List Delivery) (hphase : s.phase = .handshaking)
    (hlast : (s.takeDeliveries now ds).phase = .connected) :
    ∃ n, (s.takeDeliveries now (ds.take n)).phase = .handshaking ∧
      (s.takeDeliveries now (ds.take (n + 1))).phase = .connected := by
  induction ds generalizing s with
  | nil =>
    rw [show s.takeDeliveries now [] = s from rfl, hphase] at hlast
    cases hlast
  | cons d ds ih =>
    have hrank := (moves_takeDeliveries now ds (s.takeDelivery now d)).rank_le
    rw [show (s.takeDelivery now d).takeDeliveries now ds = s.takeDeliveries now (d :: ds) from rfl,
      hlast] at hrank
    cases hnext : (s.takeDelivery now d).phase with
    | handshaking =>
      obtain ⟨n, hbefore, hafter⟩ := ih hnext hlast
      exact ⟨n + 1, hbefore, hafter⟩
    | connected => exact ⟨0, hphase, hnext⟩
    | disconnecting | disconnected =>
      rw [hnext] at hrank
      exact absurd hrank (by decide)

/-- **A client is connected, and its answer is in the queue exactly if it can be sent.** Whatever
was done with a client before, a packet that completes its login does so with one delivery; that
delivery puts the answer into the queue, or, if the answer has no encoding or is too long, nothing
at all. -/
theorem answered_iff (hvalid : settings.Valid) (address : Address) (guid : UInt64) (mtu : UInt16)
    (start : Nanoseconds) (ops : List Operation) (now : Nanoseconds) (packet : Octets) :
    let s := ((fresh settings .client address guid mtu start).conduct ops).2
    (∀ n, let before := s.partway now packet n
      let after := s.partway now packet (n + 1)
      before.phase = .handshaking → after.phase = .connected →
        ((∃ accepted sent, Queued (.newIncomingConnection address accepted sent) before after)
            ↔ Answerable settings address mtu) ∧
          (¬Answerable settings address mtu →
            after.link.sender.queue = before.link.sender.queue)) ∧
      (s.phase = .handshaking → (s.receive now packet).2.phase = .connected →
        ∃ n, (s.partway now packet n).phase = .handshaking ∧
          (s.partway now packet (n + 1)).phase = .connected) := by
  intro s
  constructor
  · intro n before after hbefore hafter
    have hmade : before.Made settings .client address mtu := by
      refine keeps_row (P := fun s => s.phase ≠ .disconnected → s.Made settings .client address mtu)
        (fun _ _ hgoes hmade hphase => (hmade (hgoes.phase_ne hphase)).goes hgoes hphase)
        (goes_partway now packet n s) (made_conduct settings .client address guid mtu start ops) ?_
      rw [hbefore]
      exact nofun
    obtain ⟨accepted, hjoined⟩ : ∃ accepted, after = before.joined now accepted := by
      rcases partway_succ now packet n s with hsame | ⟨d, hnext⟩
      · rw [show after = before from hsame, hbefore] at hafter
        cases hafter
      · have htaken : after = before.takeDelivery now d := hnext
        rw [htaken] at hafter ⊢
        exact takeDelivery_eq_joined hmade.role_eq hbefore hafter
    obtain ⟨hiff, hunsent⟩ := hmade.queued_joined_iff hvalid now accepted
    rw [hjoined]
    refine ⟨⟨?_, fun hyes => ⟨accepted, _, hiff.2 hyes⟩⟩, hunsent⟩
    rintro ⟨_, _, hqueued⟩
    by_contra hno
    exact not_queued_of_queue_eq (hunsent hno) hqueued
  · intro hphase hlast
    cases hopened : s.opened? now packet with
    | none =>
      rw [(stays_receive hopened).phase_eq, hphase] at hlast
      cases hlast
    | some result =>
      obtain ⟨ds, s'⟩ := result
      rw [receive_of_opened hopened] at hlast
      simp only [partway, hopened]
      exact exists_joining ds ((stays_opened hopened).phase_eq.trans hphase) hlast

/-- An acceptance, in a datagram of its own. -/
def acceptance : Octets :=
  [0x84, 0, 0, 0, 0x00, 0x00, 0xd0, 0x10, 0x04, 0, 0, 0, 0, 0, 0, 0, 0] ++ List.replicate 16 0

/-- The same acceptance, from a server whose address has a record and from one whose address has
none: both clients are connected, and one of them has answered. -/
theorem answered_iff_loopback :
    let client (host : Host) : Session := fresh {} .client ⟨host, 5⟩ 0 1464 0
    let heard := client (.ofQuad 127 0 0 1)
    let unheard := client (.v6 1 0)
    (heard.receive 0 acceptance).2.phase = .connected ∧
      (unheard.receive 0 acceptance).2.phase = .connected ∧
      (∃ accepted sent, Queued (.newIncomingConnection ⟨.ofQuad 127 0 0 1, 5⟩ accepted sent)
        (heard.partway 0 acceptance 0) (heard.partway 0 acceptance 1)) ∧
      (¬∃ accepted sent, Queued (.newIncomingConnection ⟨.v6 1 0, 5⟩ accepted sent)
        (unheard.partway 0 acceptance 0) (unheard.partway 0 acceptance 1)) ∧
      (unheard.partway 0 acceptance 1).link.sender.queue
        = (unheard.partway 0 acceptance 0).link.sender.queue := by
  intro client heard unheard
  have hvalid : Settings.Valid {} := by decide +kernel
  obtain ⟨hheard, -⟩ := answered_iff hvalid ⟨.ofQuad 127 0 0 1, 5⟩ 0 1464 0 [] 0 acceptance
  obtain ⟨hunheard, -⟩ := answered_iff hvalid ⟨.v6 1 0, 5⟩ 0 1464 0 [] 0 acceptance
  obtain ⟨hanswered, -⟩ := hheard 0 (by decide +kernel) (by decide +kernel)
  obtain ⟨hunanswered, hqueue⟩ := hunheard 0 (by decide +kernel) (by decide +kernel)
  have hyes : Answerable {} ⟨.ofQuad 127 0 0 1, 5⟩ 1464 :=
    (answerable_iff hvalid (by decide)).2 (by decide)
  have hno : ¬Answerable {} ⟨.v6 1 0, 5⟩ 1464 :=
    fun hsome => (answerable_iff hvalid (by decide)).1 hsome (by decide)
  exact ⟨by decide +kernel, by decide +kernel, hanswered.2 hyes, fun h => hno (hunanswered.1 h),
    hqueue hno⟩

end Session

end DatagramTransport

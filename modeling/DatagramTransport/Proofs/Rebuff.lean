import DatagramTransport.Proofs.Lifetime
import DatagramTransport.Proofs.Provenance
import DatagramTransport.Proofs.Routine

/-!
# Rebuff — whether a client that is turned away hears of it

A server that is asked for security in the login puts a rejection into its queue and is about to
end: the next flush is its last. To end a session from outside clears the queue first, but here the
rejection waits behind whatever waits already, acceptances and answers to pings, and behind what is
reported as missing until then. What the flush leaves in the queue is thrown away.

A flush fills so many datagrams and no more. **The rejection is sent exactly if the queue, cut into
datagrams up to and including the rejection, needs no more than that.** What waits behind it does
not matter, as datagrams are filled in order.

Any size of packet will do that lets one octet through with a guarantee. Every size that a
configuration admits is far above that.
-/

set_option autoImplicit false

namespace DatagramTransport

namespace Packing

variable {α : Type} {size : α → Nat} {room capacity limit : Nat} {items : List α}

/-! ## What stands behind does not matter -/

/-- A front that ends before the list does is the same with more behind the list. -/
theorem front_append_of_ne_nil (h : (front size room items).2 ≠ []) (more : List α) :
    front size room (items ++ more)
      = ((front size room items).1, (front size room items).2 ++ more) := by
  induction items generalizing room with
  | nil => exact absurd rfl h
  | cons a rest ih =>
    simp only [List.cons_append, front] at h ⊢
    split at h
    next hfits =>
      rw [if_pos hfits, if_pos hfits, ih h]
    next hlong =>
      rw [if_neg hlong, if_neg hlong]
      rfl

/-- The groups come past the border between two lists exactly if they come to the end of the first
one alone. -/
theorem snd_batches_append_suffix_iff (more : List α) :
    (batches size capacity limit (items ++ more)).2 <:+ more
      ↔ (batches size capacity limit items).2 = [] := by
  induction limit generalizing items with
  | zero =>
    show items ++ more <:+ more ↔ items = []
    constructor
    · intro hsuffix
      have hlength := hsuffix.length_le
      rw [List.length_append] at hlength
      exact List.eq_nil_of_length_eq_zero (by omega)
    · rintro rfl
      exact List.suffix_refl more
  | succ limit ih =>
    cases items with
    | nil => exact iff_of_true (snd_batches_suffix _ _ _ _) (by rw [batches_nil])
    | cons a rest =>
      rw [List.cons_append, batches_cons, batches_cons]
      by_cases hwhole : (front size (capacity - size a) rest).2 = []
      · -- the first group takes the first list as a whole
        have hfits := load_front_le size (capacity - size a) rest
        have htaken := front_append size (capacity - size a) rest
        rw [hwhole, List.append_nil] at htaken
        rw [htaken] at hfits
        refine iff_of_true ?_ (by rw [hwhole, batches_nil])
        exact (snd_batches_suffix _ _ _ _).trans (snd_front_suffix hfits)
      · rw [front_append_of_ne_nil hwhole]
        exact ih

/-- To come to the end of a list takes as many groups as the whole list makes. -/
theorem snd_batches_eq_nil_iff :
    (batches size capacity limit items).2 = [] ↔ (groups size capacity items).length ≤ limit := by
  have hmore {enough : Nat} (hall : (batches size capacity enough items).2 = []) :
      (batches size capacity enough items).1.length ≤ limit →
        (batches size capacity limit items).2 = [] := by
    induction limit generalizing enough items with
    | zero =>
      intro hnone
      have hitems := batches_flatten_append size capacity enough items
      rwa [List.eq_nil_of_length_eq_zero (Nat.le_zero.1 hnone), hall, eq_comm] at hitems
    | succ limit ih =>
      intro hfew
      cases items with
      | nil => rw [batches_nil]
      | cons a rest =>
        cases enough with
        | zero => cases hall
        | succ enough =>
          rw [batches_cons] at hall hfew ⊢
          exact ih hall (Nat.le_of_succ_le_succ hfew)
  exact ⟨fun h => length_batches_le_of_snd_eq_nil h _, hmore (batches_snd_eq_nil (Nat.le_refl _))⟩

/-- **An item is taken exactly if the list up to and including the item makes no more groups than
there may be.** -/
theorem flatten_batches_prefix_iff {ahead behind : List α} {a : α} :
    ahead ++ [a] <+: (batches size capacity limit (ahead ++ a :: behind)).1.flatten
      ↔ (groups size capacity (ahead ++ [a])).length ≤ limit := by
  have hsplit : ahead ++ a :: behind = (ahead ++ [a]) ++ behind := by
    rw [List.append_assoc, List.singleton_append]
  rw [← snd_batches_eq_nil_iff, ← snd_batches_append_suffix_iff behind, hsplit]
  have hcut := batches_flatten_append size capacity limit (ahead ++ [a] ++ behind)
  constructor
  · rintro ⟨taken, htaken⟩
    rw [← htaken, List.append_assoc] at hcut
    exact ⟨taken, List.append_cancel_left hcut⟩
  · rintro ⟨taken, htaken⟩
    refine ⟨taken, ?_⟩
    rw [← List.append_cancel_right_eq _ (batches size capacity limit (ahead ++ [a] ++ behind)).2,
      List.append_assoc, htaken, hcut]

end Packing

/-- A rejection, whole. -/
def Message.IsRejection (m : Message) : Prop :=
  m.fragment = none ∧ m.payload = [ControlId.connectionAttemptFailed]

instance (m : Message) : Decidable m.IsRejection := inferInstanceAs (Decidable (_ ∧ _))

/-- A client asks for the login, and for security. -/
def Delivery.isSecureRequest (d : Delivery) : Bool :=
  match ControlMessage.reader d.payload with
  | .ok (.connectionRequest _ _ useSecurity, _) => useSecurity
  | _ => false

/-- Apart from the application, nobody says what a rejection says. -/
theorem Phase.Says.ne_rejection {p : Phase} {r : Reliability} {channel : UInt8} {payload : Octets}
    (h : p.Says r channel payload) (hphase : p ≠ .connected) :
    payload ≠ [ControlId.connectionAttemptFailed] := by
  rintro rfl
  cases h with
  | ping hencode | pong hencode | request hencode | acceptance hencode =>
    obtain ⟨fields, -, heq⟩ := ControlMessage.encode_eq_ok hencode
    cases heq
  | anything => exact hphase rfl

namespace Sender

variable {s s' : Sender} {settings : Settings} {mtu : UInt16} {r : Reliability} {channel : UInt8}
  {payload : Octets} {receipt : Option UInt32}

theorem Queue.not_isRejection_of_mem_messagesFor {q : Queue} {m : Message}
    (hpayload : payload ≠ [ControlId.connectionAttemptFailed])
    (hm : m ∈ q.messagesFor r channel payload) : ¬m.IsRejection := by
  rintro ⟨hwhole, hrejection⟩
  unfold messagesFor at hm
  split at hm
  · rw [List.mem_singleton.1 hm] at hrejection
    exact hpayload hrejection
  · simp only [fragmentMessages, List.mem_mapIdx] at hm
    obtain ⟨i, hi, rfl⟩ := hm
    cases hwhole

/-- A rejection waits in the queue, none waits in front of it, and none is in flight. -/
structure Rebuffs (s : Sender) : Prop where
  entries_eq : ∃ ahead rejection behind,
    s.queue.entries.toList = ahead ++ rejection :: behind ∧ rejection.message.IsRejection ∧
      ∀ e ∈ ahead, ¬e.message.IsRejection
  flies : ∀ sequence m, s.Flies sequence m → ¬m.IsRejection

/-- A rejection is short enough for a datagram. -/
theorem rebuffs_of_send (h : s.KeepsOnly fun m => ¬m.IsRejection)
    (hsuits : s.queue.Suits settings mtu) (hmtu : 52 < mtu.toNat)
    (hsend : s.send .reliableOrdered 0 [ControlId.connectionAttemptFailed] = .ok (receipt, s')) :
    s'.Rebuffs := by
  have hwhole : s.queue.fitsWhole .reliableOrdered [ControlId.connectionAttemptFailed] = true := by
    rw [Queue.fitsWhole, decide_eq_true_eq, hsuits.capacity_eq]
    show 10 + 1 ≤ mtu.toNat - 28 - 4
    omega
  have hentries := entries_of_send rfl hsend
  rw [Queue.messagesFor, if_pos hwhole] at hentries
  refine ⟨⟨_, _, [], hentries, ⟨rfl, rfl⟩, fun e he => ?_⟩, fun sequence m hflies => ?_⟩
  · exact h.keeps e.message (Or.inl ⟨e, he, rfl⟩)
  · unfold Flies at hflies
    rw [(send_eq_ok hsend).2.2.2] at hflies
    exact h.keeps m (Or.inr ⟨sequence, hflies⟩)

/-- What is said afterwards waits behind the rejection. -/
theorem Rebuffs.say (h : s.Rebuffs) (hr : r.wantsReceipt = false)
    (hsend : s.send r channel payload = .ok (receipt, s')) : s'.Rebuffs := by
  obtain ⟨ahead, rejection, behind, hentries, hrejection, hahead⟩ := h.entries_eq
  have hentries' := entries_of_send hr hsend
  rw [hentries, List.append_assoc, List.cons_append] at hentries'
  refine ⟨⟨ahead, rejection, _, hentries', hrejection, hahead⟩, ?_⟩
  · unfold Flies
    rw [(send_eq_ok hsend).2.2.2]
    exact h.flies

/-- What comes back waits in front of it. -/
theorem Rebuffs.recalls (h : s.Rebuffs) (hrecalls : s.Recalls s') : s'.Rebuffs := by
  obtain ⟨ahead, rejection, behind, hentries, hrejection, hahead⟩ := h.entries_eq
  obtain ⟨back, hqueue, hback⟩ := hrecalls.entries_eq
  refine ⟨⟨back ++ ahead, rejection, behind, ?_, hrejection, fun e he => ?_⟩,
    fun sequence m hflies => h.flies sequence m (hrecalls.flies sequence m hflies)⟩
  · rw [hqueue]
    show (s.queue.entries.prepend back).toList = _
    rw [Fifo.toList_prepend, hentries, List.append_assoc]
  · rcases List.mem_append.1 he with hreturned | hold
    · obtain ⟨sequence, hflies⟩ := hback e hreturned
      exact h.flies sequence _ hflies
    · exact hahead e hold

theorem Rebuffs.deed (h : s.Rebuffs) (deed : Deed .disconnecting s s') : s'.Rebuffs := by
  cases deed with
  | say hsaid hsend =>
    cases hsaid with
    | ping | pong => exact h.say rfl hsend
  | hear _ now a => exact h.recalls (recalls_receive now a s)
  | tick _ now => exact h.recalls (recalls_tick now s)
  | flush hopen => cases hopen

/-- What a sender keeps is of a kind as long as what is said is. -/
theorem KeepsOnly.deed {p : Phase} {Q : Message → Prop} (h : s.KeepsOnly Q) (deed : Deed p s s')
    (hnew : ∀ r channel payload, p.Says r channel payload →
      ∀ m ∈ s.queue.messagesFor r channel payload, Q m) : s'.KeepsOnly Q := by
  cases deed with
  | say hsaid hsend => exact h.send hsend (hnew _ _ _ hsaid)
  | hear _ now a => exact h.receive now a
  | tick _ now => exact h.tick now
  | flush _ _ now limit => exact (h.flush now limit).1

/-- **The first rejection of a queue is taken out exactly if the queue up to and including it makes
no more batches than are taken out.** -/
theorem rejection_mem_pack_iff {q : Queue} {ahead behind : List Outgoing} {rejection : Outgoing}
    (hentries : q.entries.toList = ahead ++ rejection :: behind)
    (hrejection : rejection.message.IsRejection) (hahead : ∀ e ∈ ahead, ¬e.message.IsRejection)
    (limit : Nat) :
    (∃ e ∈ (q.pack limit).1.flatten, e.message.IsRejection)
      ↔ (Packing.groups (fun e => e.message.encodedLength) q.capacity
          (ahead ++ [rejection])).length ≤ limit := by
  rw [← Packing.flatten_batches_prefix_iff, ← hentries]
  constructor
  · rintro ⟨e, he, hyes⟩
    have hpacked : (q.pack limit).1.flatten <+: ahead ++ rejection :: behind :=
      ⟨_, (q.pack_entries limit).trans hentries⟩
    have hfirst : ahead ++ [rejection] <+: ahead ++ rejection :: behind :=
      ⟨behind, by rw [List.append_assoc, List.singleton_append]⟩
    rcases List.prefix_or_prefix_of_prefix hfirst hpacked with htaken | hfew
    · exact htaken
    · rcases List.prefix_concat_iff.1 hfew with heq | hless
      · exact heq ▸ List.prefix_refl _
      · exact absurd hyes (hahead e (hless.subset he))
  · intro htaken
    exact ⟨rejection, htaken.subset (List.mem_append_right _ (List.mem_singleton_self _)),
      hrejection⟩

end Sender

namespace Session

variable {s s' : Session} {settings : Settings} {address : Address} {mtu : UInt16}

/-- The session has turned a client away. -/
def TurnedAway (s : Session) : Prop :=
  s.phase = .disconnected ∨ s.phase = .disconnecting ∧ s.closing = some .securityRequested

theorem TurnedAway.goes (h : s.TurnedAway) (hgoes : s.Goes s') : s'.TurnedAway := by
  rcases hgoes.of_late (h.symm.imp_left And.left) with hstays | hended
  · rwa [TurnedAway, hstays.phase_eq, hstays.closing_eq]
  · exact Or.inl hended

/-- What a server keeps: no rejection in the login, and one that waits when it has turned a client
away. -/
structure Guards (settings : Settings) (address : Address) (mtu : UInt16) (s : Session) : Prop where
  made : s.phase ≠ .disconnected → s.Made settings .server address mtu
  keeps : s.phase = .handshaking → s.link.sender.KeepsOnly fun m => ¬m.IsRejection
  rebuffs : s.phase = .disconnecting → s.closing = some .securityRequested →
    s.link.sender.Rebuffs

theorem guards_fresh (settings : Settings) (address : Address) (guid : UInt64) (mtu : UInt16)
    (now : Nanoseconds) :
    (fresh settings .server address guid mtu now).Guards settings address mtu where
  made := fun _ => made_fresh settings .server address guid mtu now
  keeps := fun _ => Sender.keepsOnly_fresh settings mtu
  rebuffs := nofun

theorem Guards.stays (h : s.Guards settings address mtu) (hstays : s.Stays s') :
    s'.Guards settings address mtu where
  made := fun hphase => (h.made (hstays.phase_eq ▸ hphase)).stays hstays
  keeps := fun hphase => by
    have hlogin := hstays.phase_eq.symm.trans hphase
    refine keeps_row (P := fun sender : Sender => sender.KeepsOnly fun m => ¬m.IsRejection)
      (fun _ _ deed hkeeps => hkeeps.deed deed fun _ _ _ hsaid _ => ?_)
      hstays.deeds (h.keeps hlogin)
    exact Sender.Queue.not_isRejection_of_mem_messagesFor (hsaid.ne_rejection (hlogin ▸ nofun))
  rebuffs := fun hphase hclosing => by
    have hlast := hstays.phase_eq.symm.trans hphase
    exact keeps_row (P := Sender.Rebuffs) (fun _ _ deed hrebuffs => hrebuffs.deed (hlast ▸ deed))
      hstays.deeds (h.rebuffs hlast (hstays.closing_eq.symm.trans hclosing))

theorem Guards.completeLogin (h : s.Guards settings address mtu) :
    s.completeLogin.Guards settings address mtu := by
  by_cases hlogin : s.phase = .handshaking
  · have hphase : s.completeLogin.phase = .connected := by
      rw [Session.completeLogin, if_pos hlogin]
      rfl
    have hmade : s.phase ≠ .disconnected := by simp [hlogin]
    exact ⟨fun _ => (h.made hmade).completeLogin, by simp [hphase], by simp [hphase]⟩
  · rwa [Session.completeLogin, if_neg hlogin]

/-- The rejection is not refused, so it waits behind what waited before. -/
theorem Guards.rebuffed (h : s.Guards settings address mtu) (hvalid : settings.Valid)
    (hmtu : 52 < mtu.toNat) (hlogin : s.phase = .handshaking) :
    s.rebuffed.Guards settings address mtu := by
  have hmade := h.made (hlogin ▸ nofun)
  have haccepted : s.link.sender.queue.refusal? .reliableOrdered 0
      [ControlId.connectionAttemptFailed] = none := by
    rw [hmade.refusal?_eq_none_iff hvalid]
    show 1 ≤ (mtu.toNat - 52) * settings.maxFragmentsPerSend
    exact Nat.mul_pos (by omega) hvalid.maxFragmentsPerSend_pos
  obtain ⟨sender, receipt, hsent, hsend⟩ :=
    sendControl_of_accepted (m := .connectionAttemptFailed) rfl haccepted
  have hnext := hmade.goes (.deals 0 (.rebuffs hmade.role_eq hlogin)) nofun
  refine ⟨fun _ => hnext, nofun, fun _ _ => ?_⟩
  show (s.sendControl .reliableOrdered .connectionAttemptFailed).link.sender.Rebuffs
  rw [hsent]
  exact Sender.rebuffs_of_send (h.keeps hlogin) hmade.suits hmtu hsend

theorem Guards.goes (h : s.Guards settings address mtu) (hvalid : settings.Valid)
    (hmtu : 52 < mtu.toNat) (hgoes : s.Goes s') : s'.Guards settings address mtu := by
  have hmade (hphase : s'.phase ≠ .disconnected) : s'.Made settings .server address mtu :=
    (h.made (hgoes.phase_ne hphase)).goes hgoes hphase
  cases hgoes with
  | deals now hdeals =>
    cases hdeals with
    | stays hstays => exact h.stays hstays
    | admits => exact h.completeLogin
    | joins hclient hlogin =>
      have hserver := (h.made (by simp [hlogin])).role_eq
      rw [hclient] at hserver
      cases hserver
    | rebuffs _ hlogin => exact h.rebuffed hvalid hmtu hlogin
    | ends hended =>
      exact ⟨hmade, by simp [hended], by simp [hended]⟩
  | opens => exact h.completeLogin
  | leaves =>
    by_cases hover : s.phase = .disconnecting ∨ s.phase = .disconnected
    · rwa [Session.disconnect, if_pos hover]
    · refine ⟨hmade, ?_, ?_⟩ <;> simp [Session.disconnect, hover]

/-! ## The request for security -/

theorem takeDelivery_of_isSecureRequest {now : Nanoseconds} {d : Delivery}
    (hrole : s.role = .server) (hlogin : s.phase = .handshaking) (hd : d.isSecureRequest = true) :
    s.takeDelivery now d = s.rebuffed := by
  unfold Delivery.isSecureRequest at hd
  split at hd
  next guid timestamp useSecurity rest hread =>
    obtain rfl : useSecurity = true := hd
    cases hpayload : d.payload with
    | nil =>
      rw [hpayload] at hread
      cases hread
    | cons id fields =>
      rw [hpayload] at hread
      have hid := ControlMessage.id_of_reader hread
      have hconnected : ControlId.isConnected id = true := by
        rw [← hid]
        rfl
      unfold takeDelivery
      rw [hpayload]
      simp only [hconnected, if_true, hread]
      show s.takeRequest now timestamp true = s.rebuffed
      unfold takeRequest
      rw [if_pos ⟨hrole, hlogin⟩, if_pos rfl]
      rfl
  next => cases hd

/-- A server that meets a request for security in the login turns the client away. -/
theorem Guards.turnedAway_takeDeliveries (h : s.Guards settings address mtu)
    (hvalid : settings.Valid) (hmtu : 52 < mtu.toNat) (now : Nanoseconds) (ds : List Delivery)
    {entry : Phase × Delivery} (hentry : entry ∈ s.meets now ds) (hlogin : entry.1 = .handshaking)
    (hsecure : entry.2.isSecureRequest = true) : (s.takeDeliveries now ds).TurnedAway := by
  induction ds generalizing s with
  | nil => cases hentry
  | cons d ds ih =>
    rcases List.mem_cons.1 hentry with rfl | hlater
    · have hphase : s.phase = .handshaking := hlogin
      have hserver := (h.made (hphase ▸ nofun)).role_eq
      have hnow : (s.takeDelivery now d).TurnedAway := by
        rw [takeDelivery_of_isSecureRequest hserver hlogin hsecure]
        exact Or.inr ⟨rfl, rfl⟩
      exact keeps_row (fun _ _ hgoes h => h.goes hgoes)
        (goes_takeDeliveries now ds (s.takeDelivery now d)) hnow
    · exact ih (h.goes hvalid hmtu (.deals now (deals_takeDelivery now d s))) hlater

theorem Guards.turnedAway_perform (h : s.Guards settings address mtu)
    (hvalid : settings.Valid) (hmtu : 52 < mtu.toNat) (op : Operation)
    {entry : Phase × Delivery} (hentry : entry ∈ s.handles op) (hlogin : entry.1 = .handshaking)
    (hsecure : entry.2.isSecureRequest = true) : (s.perform op).2.TurnedAway := by
  cases op with
  | receive now packet =>
    simp only [handles] at hentry
    split at hentry
    next ds s' hopened =>
      have hnext := (h.stays (stays_opened hopened)).turnedAway_takeDeliveries hvalid hmtu now ds
        hentry hlogin hsecure
      simpa only [perform, receive_of_opened hopened] using hnext
    next => cases hentry
  | _ => cases hentry

/-- **Once turned away, a client is not let in any more.** -/
theorem Guards.turnedAway_conduct (h : s.Guards settings address mtu)
    (hvalid : settings.Valid) (hmtu : 52 < mtu.toNat) (ops : List Operation)
    {entry : Phase × Delivery} (hentry : entry ∈ s.handled ops) (hlogin : entry.1 = .handshaking)
    (hsecure : entry.2.isSecureRequest = true) : (s.conduct ops).2.TurnedAway := by
  induction ops generalizing s with
  | nil => cases hentry
  | cons op ops ih =>
    have hconduct : (s.conduct (op :: ops)).2 = ((s.perform op).2.conduct ops).2 := by
      rw [conduct, Stepwise.collect_cons]
      rfl
    rw [hconduct]
    rcases List.mem_append.1 hentry with hnow | hlater
    · exact keeps_conduct (fun _ _ hgoes h => h.goes hgoes)
        (h.turnedAway_perform hvalid hmtu op hnow hlogin hsecure) ops
    · have hnext : (s.perform op).2.Guards settings address mtu :=
        keeps_row (fun _ _ hgoes h => h.goes hvalid hmtu hgoes) (goes_perform op s) h
      exact ih hnext hlater

/-- **Whether the rejection is sent is a matter of what waits in front of it.** A server has turned
a client away that asked for security; if it has not ended by the next flush, a rejection waits,
this flush ends the session, and it brings the rejection exactly if the queue up to and including
the rejection makes no more datagrams than a flush may send. -/
theorem rejection_sent_iff (hvalid : settings.Valid) (address : Address) (guid : UInt64)
    (mtu : UInt16) (hmtu : 52 < mtu.toNat) (start : Nanoseconds) (ops : List Operation)
    (now : Nanoseconds) :
    let s₀ := fresh settings .server address guid mtu start
    let s := (s₀.conduct ops).2
    (∃ entry ∈ s₀.handled ops, entry.1 = .handshaking ∧ entry.2.isSecureRequest = true) →
      s.phase = .disconnecting →
      (∃ (ahead : List Outgoing) (rejection : Outgoing) (behind : List Outgoing)
          (acknowledgements : List Acknowledgement) (datagrams : List Datagram),
        s.link.sender.queue.entries.toList = ahead ++ rejection :: behind ∧
        rejection.message.IsRejection ∧ (∀ e ∈ ahead, ¬e.message.IsRejection) ∧
        (s.flush now).1 = (acknowledgements.map Packet.acknowledgement
          ++ datagrams.map Packet.datagram).map Packet.encode ∧
        ((∃ d ∈ datagrams, ∃ m ∈ d.messages, m.IsRejection)
          ↔ (Packing.groups (fun e => e.message.encodedLength) s.link.sender.queue.capacity
              (ahead ++ [rejection])).length ≤ settings.maxDatagramsPerTick)) ∧
      (s.flush now).2.phase = .disconnected := by
  rintro s₀ s ⟨entry, hentry, hlogin, hsecure⟩ hphase
  have hfresh := guards_fresh settings address guid mtu start
  have hguards : s.Guards settings address mtu :=
    keeps_conduct (fun _ _ hgoes h => h.goes hvalid hmtu hgoes) hfresh ops
  have hclosing : s.closing = some .securityRequested := by
    have hturned := hfresh.turnedAway_conduct hvalid hmtu ops hentry hlogin hsecure
    rcases hturned with hover | ⟨-, hclosing⟩
    · rw [hphase] at hover
      cases hover
    · exact hclosing
  obtain ⟨ahead, rejection, behind, hentries, hrejection, hahead⟩ :=
    (hguards.rebuffs hphase hclosing).entries_eq
  obtain ⟨acknowledgements, datagrams, hflush, hmessages⟩ := s.flush_packets (hphase ▸ nofun) now
  refine ⟨⟨ahead, rejection, behind, acknowledgements, datagrams, hentries, hrejection, hahead,
    hflush, ?_⟩, phase_flush_of_disconnecting hphase now⟩
  have hall : datagrams.flatMap (·.messages)
      = (s.link.sender.queue.pack s.settings.maxDatagramsPerTick).1.flatten.map (·.message) := by
    rw [List.flatMap_def, hmessages, List.map_flatten]
  rw [← (hguards.made (hphase ▸ nofun)).settings_eq,
    ← Sender.rejection_mem_pack_iff hentries hrejection hahead]
  constructor
  · rintro ⟨d, hd, m, hm, hyes⟩
    obtain ⟨e, he, rfl⟩ := List.mem_map.1 (hall ▸ List.mem_flatMap.2 ⟨d, hd, hm⟩)
    exact ⟨e, he, hyes⟩
  · rintro ⟨e, he, hyes⟩
    obtain ⟨d, hd, hm⟩ := List.mem_flatMap.1 (hall ▸ List.mem_map_of_mem he)
    exact ⟨d, hd, _, hm, hyes⟩

/-- Eighteen pings, and behind them a request for security, in one datagram. -/
def pesteringRequest : Octets :=
  [0x84, 0, 0, 0]
    ++ (List.replicate 18 [0x00, 0, 72, 0x00, 0, 0, 0, 0, 0, 0, 0, 7]).flatten
    ++ [0x00, 0, 144, 0x09] ++ List.replicate 16 0 ++ [1]

/-- The answers to the pings fill the one datagram that a flush may send. The client is turned away
and does not hear of it. -/
theorem rejection_sent_iff_pestered :
    let settings : Settings := { maxDatagramsPerTick := 1 }
    let s₀ := fresh settings .server ⟨.v4 0, 0⟩ 0 400 0
    let s := (s₀.conduct [.receive 1 pesteringRequest]).2
    settings.Valid ∧ s.phase = .disconnecting ∧ s.closing = some .securityRequested ∧
      (∃ e ∈ s.link.sender.queue.entries.toList, e.message.IsRejection) ∧
      (∃ (acknowledgements : List Acknowledgement) (datagrams : List Datagram),
        (s.flush 2).1 = (acknowledgements.map Packet.acknowledgement
          ++ datagrams.map Packet.datagram).map Packet.encode ∧
        ¬∃ d ∈ datagrams, ∃ m ∈ d.messages, m.IsRejection) ∧
      (s.flush 2).2.phase = .disconnected := by
  intro settings s₀ s
  have hvalid : settings.Valid := by decide +kernel
  have hphase : s.phase = .disconnecting := by decide +kernel
  have hrequest : ∃ entry ∈ s₀.handled [.receive 1 pesteringRequest],
      entry.1 = .handshaking ∧ entry.2.isSecureRequest = true := by decide +kernel
  obtain ⟨⟨ahead, rejection, behind, acknowledgements, datagrams, hentries, hrejection, hahead,
    hflush, hsent⟩, hended⟩ := rejection_sent_iff hvalid ⟨.v4 0, 0⟩ 0 400 (by decide) 0
      [.receive 1 pesteringRequest] 2 hrequest hphase
  have hwaits : rejection ∈ s.link.sender.queue.entries.toList := by
    rw [hentries]
    exact List.mem_append_right _ List.mem_cons_self
  -- nothing waits behind the rejection
  have hbehind : behind = [] := by
    have hearlier : ∀ e ∈ s.link.sender.queue.entries.toList.dropLast, ¬e.message.IsRejection := by
      decide +kernel
    rw [hentries] at hearlier
    by_contra hsome
    refine hearlier rejection ?_ hrejection
    rw [List.dropLast_append_of_ne_nil (List.cons_ne_nil _ _), List.dropLast_cons_of_ne_nil hsome]
    exact List.mem_append_right _ List.mem_cons_self
  have htwo : (Packing.groups (fun e => e.message.encodedLength) s.link.sender.queue.capacity
      s.link.sender.queue.entries.toList).length = 2 := by decide +kernel
  rw [hbehind] at hentries
  rw [hentries] at htwo
  refine ⟨hvalid, hphase, by decide +kernel, ⟨rejection, hwaits, hrejection⟩,
    ⟨acknowledgements, datagrams, hflush, fun hyes => ?_⟩, hended⟩
  have hone := hsent.1 hyes
  rw [htwo] at hone
  exact absurd hone (by decide)

end Session

end DatagramTransport

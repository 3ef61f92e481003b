import DatagramTransport.Proofs.Delivery
import DatagramTransport.Proofs.Fleeting
import DatagramTransport.Proofs.Holdings
import Mathlib.Data.List.Flatten

/-!
# Repetition — when an unreliable message comes out twice

A fleeting message is put on the wire once, and comes out as often as its datagram is looked at. For
most copies of a datagram its number is enough to tell that it came before, and they are not looked
at. **A copy of a deferred datagram is**, since something reliable in it was turned away; the
fleeting messages that came with it were not, and they come out again.

So this is the one way in which such a message is delivered twice, and in a run in which no datagram
with a fleeting message comes again while it is deferred none is.
-/

set_option autoImplicit false

namespace DatagramTransport

/-! ## Sent once -/

theorem Sender.flatMap_fleeting (ms : List Message) :
    (Sender.unreliable ms).flatMap Message.fleeting = ms.flatMap Message.fleeting := by
  induction ms with
  | nil => rfl
  | cons m ms ih =>
    rw [List.flatMap_cons, ← ih]
    cases hr : m.reliability.isReliable with
    | true =>
      have hnone : m.fleeting = [] := by
        rw [Message.fleeting, Receiver.isFleeting_eq_false hr]
        rfl
      rw [Sender.unreliable, List.filter_cons_of_neg (by simp [hr]), hnone]
      rfl
    | false =>
      rw [Sender.unreliable, List.filter_cons_of_pos (by simp [hr])]
      rfl

theorem Parcel.flatMap_fleeting (p : Parcel) : p.messages.flatMap Message.fleeting
    = if p.sentAs.isFleeting then [p.submission.delivery] else [] := by
  by_cases hp : p.sentAs.isFleeting = true
  · have hs : p.isSplit = false := by
      rw [Bool.eq_false_iff]
      intro hs
      have hr : p.sentAs.isReliable = true := Parcel.isReliable_of_isSplit hs
      rw [Receiver.isFleeting_eq_false hr] at hp
      cases hp
    have hreliability : (p.message 0 p.payload).reliability = p.sentAs := rfl
    have hpayload : (p.message 0 p.payload).payload = p.payload := rfl
    rw [Parcel.messages, Parcel.pieces_of_not_isSplit hs, List.mapIdx_singleton,
      List.flatMap_singleton, Message.fleeting, hreliability, hpayload, if_pos hp, if_pos hp,
      Submission.delivery, Parcel.sentAs_submission]
    rfl
  · rw [if_neg hp, List.flatMap_eq_nil_iff]
    intro m hm
    obtain ⟨i, hi, rfl⟩ := Parcel.mem_messages.1 hm
    exact if_neg hp

namespace Exchange

variable {settings : Settings} {mtu mtu' : UInt16} {allowed : Exchange → Event → Prop}
  {w : Exchange} {e : Event} {d : Datagram} {ps : List Parcel} {t : Tally}
  {looked : List Datagram}

def fleetingIn (w : Exchange) : List Delivery :=
  (w.accepted.filter fun s => s.sentAs.isFleeting).map Submission.delivery

def fleetingOut (w : Exchange) : List Delivery := w.delivered.filter Delivery.isFleeting

/-- The unreliable messages on the wire and in the queue are among those that were created. -/
structure Spends (w : Exchange) : Prop where
  remembers : w.source.sender.RemembersReliable
  line : (Sender.unreliable (w.datagrams.flatMap Datagram.messages
    ++ w.source.sender.waiting)).Sublist (Sender.unreliable w.created)

theorem spends_fresh (settings : Settings) (mtu mtu' : UInt16) :
    Spends (fresh settings mtu mtu') where
  remembers := Sender.remembersReliable_fresh settings mtu
  line := List.Sublist.refl []

theorem Spends.step (h : Spends w) (e : Event) : Spends (w.step e) := by
  cases e with
  | submit r channel payload =>
    simp only [Exchange.step, Link.send]
    cases hsend : w.source.sender.send r channel payload with
    | error fault => exact h
    | ok result =>
      obtain ⟨receipt, sender⟩ := result
      obtain ⟨-, hwaiting, hflight⟩ := Sender.queued_send hsend
      refine ⟨fun sequence sent hget => h.remembers sequence sent (hflight ▸ hget), ?_⟩
      simp only [hwaiting, created, List.flatMap_append, List.flatMap_singleton,
        ← List.append_assoc, Sender.unreliable_append]
      rw [← Sender.unreliable_append]
      exact h.line.append (List.Sublist.refl _)
  | transmit now limit =>
    obtain ⟨hremembers, hline, -⟩ := Sender.held_flush h.remembers now limit
    refine ⟨hremembers, ?_⟩
    simp only [Exchange.step, Link.flushDatagrams, List.flatMap_append, List.append_assoc, hline]
    exact h.line
  | expire now =>
    obtain ⟨hremembers, hwaiting, -⟩ := Sender.held_tick h.remembers now
    refine ⟨hremembers, ?_⟩
    simp only [Exchange.step, Link.tick]
    rw [Sender.unreliable_append, hwaiting, ← Sender.unreliable_append]
    exact h.line
  | hear now a =>
    obtain ⟨hremembers, hwaiting, -⟩ := Sender.held_receive h.remembers now a
    refine ⟨hremembers, ?_⟩
    simp only [Exchange.step, Link.receiveAcknowledgement]
    rw [Sender.unreliable_append, hwaiting, ← Sender.unreliable_append]
    exact h.line
  | arrive d => exact ⟨h.remembers, h.line⟩
  | report now limit => exact ⟨h.remembers, h.line⟩

theorem Spends.clear (h : Spends w) : Spends w.clear where
  remembers := by
    intro sequence sent hget
    simp [Exchange.clear, Link.clear, Sender.clear] at hget
  line := by
    have hempty : w.clear.source.sender.waiting = [] := rfl
    rw [hempty, List.append_nil]
    refine List.Sublist.trans ?_ h.line
    rw [Sender.unreliable_append]
    exact List.sublist_append_left _ _

theorem Course.spends (course : Course settings mtu mtu' allowed w) : Spends w := by
  induction course with
  | start => exact spends_fresh settings mtu mtu'
  | next _ _ ih => exact ih.step _
  | clear _ ih => exact ih.clear

theorem Ledger.fleetingIn_eq (h : Ledger settings ps t w) :
    w.fleetingIn = w.created.flatMap Message.fleeting := by
  rw [fleetingIn, h.created_eq, h.accepted_eq, Laid.created, List.flatMap_assoc]
  generalize ps = qs
  induction qs with
  | nil => rfl
  | cons p qs ih =>
    rw [List.map_cons, List.flatMap_cons, ← ih, Parcel.flatMap_fleeting]
    cases hp : p.sentAs.isFleeting with
    | true => rw [List.filter_cons_of_pos (by simp [hp])]; rfl
    | false => rw [List.filter_cons_of_neg (by simp [hp])]; rfl

/-- Each fleeting message is in one datagram at most. -/
theorem Spends.fleeting_sublist (h : Spends w) (hledger : Ledger settings ps t w) :
    (w.datagrams.flatMap Datagram.fleeting).Sublist w.fleetingIn := by
  have hwire : (Sender.unreliable (w.datagrams.flatMap Datagram.messages)).Sublist
      (Sender.unreliable w.created) := by
    refine List.Sublist.trans ?_ h.line
    rw [Sender.unreliable_append]
    exact List.sublist_append_left _ _
  have hfleeting := hwire.flatMap Message.fleeting
  rw [Sender.flatMap_fleeting, Sender.flatMap_fleeting, List.flatMap_assoc] at hfleeting
  rw [hledger.fleetingIn_eq]
  exact hfleeting

/-! ## Looked at -/

/-- These datagrams were looked at, and what is fleeting in them came out. -/
structure Traces (looked : List Datagram) (w : Exchange) : Prop where
  out_eq : w.fleetingOut = looked.flatMap Datagram.fleeting
  sent : ∀ d ∈ looked, d ∈ w.datagrams
  came : ∀ d ∈ looked, d.sequence ∈ w.arrived
  deferred : ∀ s ∈ w.target.receiver.deferred, ∃ d ∈ looked, d.sequence = s
  known : ∀ s ∈ w.arrived, w.target.receiver.datagrams.Has s.val
  heads : w.target.receiver.assembler.HeadsReliable

theorem traces_fresh (settings : Settings) (mtu mtu' : UInt16) :
    Traces [] (fresh settings mtu mtu') where
  out_eq := rfl
  sent := fun _ hd => nomatch hd
  came := fun _ hd => nomatch hd
  deferred := fun _ hs => nomatch hs
  known := fun _ hs => nomatch hs
  heads := Receiver.Assembler.headsReliable_fresh _ _

/-- **A datagram is looked at unless its number is known, and then again while it is deferred.** -/
theorem Traces.arrive (h : Traces looked w) (hattends : Attends settings w)
    (hledger : Ledger settings ps t w) (hpos : 0 < settings.receiveWindow)
    (few : w.datagrams.length < Serial.half) (hd : d ∈ w.datagrams) :
    (Traces (looked ++ [d]) (w.step (.arrive d)) ∧
        (d.sequence ∈ w.arrived → d.sequence ∈ w.target.receiver.deferred)) ∨
      (Traces looked (w.step (.arrive d)) ∧ d.sequence ∉ w.target.receiver.deferred) := by
  have few' : w.datagrams.length < 8388608 := few
  have hlt := hledger.sends.val_lt (by omega) hd
  obtain ⟨-, hnew, hhas⟩ := (hattends.hears.window.mono hattends.hears.next_le).slide
    (by omega) hlt (by rwa [hattends.hears.capacity_eq])
  rw [d.sequence.ofNat_val] at hnew hhas
  obtain ⟨hheads, hdatagrams, hcases⟩ := Receiver.fleeting_receive h.heads (hledger.sent d hd)
  have hknown : ∀ s ∈ d.sequence :: w.arrived,
      (w.target.receiver.receive d).2.datagrams.Has s.val := by
    intro s hs
    rw [hdatagrams, hhas]
    rcases List.mem_cons.1 hs with rfl | hs
    · exact Or.inr (Or.inl rfl)
    · exact Or.inl (h.known s hs)
  have hfleeting : (w.step (.arrive d)).fleetingOut
      = w.fleetingOut ++ (w.target.receiver.receive d).1.filter Delivery.isFleeting := by
    rw [step_arrive]
    exact List.filter_append _ _
  rw [step_arrive] at hfleeting ⊢
  rcases hcases with ⟨hlooked, hout, hdeferred⟩ | ⟨⟨-, hnot⟩, hout, hdeferred⟩
  · refine Or.inl ⟨⟨?_, ?_, ?_, ?_, hknown, hheads⟩, fun harrived => ?_⟩
    · rw [hfleeting, hout, List.flatMap_append, List.flatMap_singleton, h.out_eq]
    · intro d' hd'
      rcases List.mem_append.1 hd' with hd' | hd'
      · exact h.sent d' hd'
      · rwa [List.mem_singleton.1 hd']
    · intro d' hd'
      rcases List.mem_append.1 hd' with hd' | hd'
      · exact List.mem_cons_of_mem _ (h.came d' hd')
      · rw [List.mem_singleton.1 hd']
        exact List.mem_cons_self
    · intro s hs
      rcases hdeferred s hs with rfl | hs
      · exact ⟨d, List.mem_append_right _ List.mem_cons_self, rfl⟩
      · obtain ⟨d', hd', heq⟩ := h.deferred s hs
        exact ⟨d', List.mem_append_left _ hd', heq⟩
    · -- it came before, so its number is not new
      exact hlooked.resolve_left fun hslide => hnew.1 hslide (h.known _ harrived)
  · refine Or.inr ⟨⟨?_, h.sent, fun d' hd' => List.mem_cons_of_mem _ (h.came d' hd'), ?_, hknown,
      hheads⟩, hnot⟩
    · rw [hfleeting, hout, List.filter_nil, List.append_nil, h.out_eq]
    · intro s hs
      exact h.deferred s (hdeferred ▸ hs)

/-- What happens elsewhere leaves no trace. -/
theorem Traces.other (h : Traces looked w) (hother : ∀ d, e ≠ .arrive d) :
    Traces looked (w.step e) := by
  cases e with
  | arrive d => exact absurd rfl (hother d)
  | submit r channel payload =>
    simp only [step]
    split <;> exact ⟨h.out_eq, h.sent, h.came, h.deferred, h.known, h.heads⟩
  | transmit now limit =>
    exact ⟨h.out_eq, fun d hd => List.mem_append_left _ (h.sent d hd), h.came, h.deferred, h.known,
      h.heads⟩
  | expire now => exact ⟨h.out_eq, h.sent, h.came, h.deferred, h.known, h.heads⟩
  | hear now a => exact ⟨h.out_eq, h.sent, h.came, h.deferred, h.known, h.heads⟩
  | report now limit => exact ⟨h.out_eq, h.sent, h.came, h.deferred, h.known, h.heads⟩

theorem Traces.clear (h : Traces looked w) : Traces looked w.clear :=
  ⟨h.out_eq, h.sent, h.came, h.deferred, h.known, h.heads⟩

/-- A datagram that brings out nothing fleeting need not be mentioned again. -/
theorem Traces.drop (h : Traces (looked ++ [d]) w) (hnone : d.fleeting = [])
    (hbefore : ∃ d' ∈ looked, d'.sequence = d.sequence) : Traces looked w where
  out_eq := by rw [h.out_eq, List.flatMap_append, List.flatMap_singleton, hnone, List.append_nil]
  sent := fun d' hd' => h.sent d' (List.mem_append_left _ hd')
  came := fun d' hd' => h.came d' (List.mem_append_left _ hd')
  deferred := by
    intro s hs
    obtain ⟨d', hd', heq⟩ := h.deferred s hs
    rcases List.mem_append.1 hd' with hd' | hd'
    · exact ⟨d', hd', heq⟩
    · rw [List.mem_singleton.1 hd'] at heq
      rwa [← heq]
  known := h.known
  heads := h.heads

/-- There is something fleeting in a datagram that is deferred. -/
def Repeats (w : Exchange) (d : Datagram) : Prop :=
  d.sequence ∈ w.target.receiver.deferred ∧ d.fleeting ≠ []

/-- No copy of a deferred datagram brings out anything fleeting. -/
def Unrepeated (w : Exchange) : Event → Prop
  | .arrive d => d ∈ w.datagrams ∧ ¬ w.Repeats d
  | _ => True

theorem Unrepeated.carried (h : w.Unrepeated e) : w.Carried e := by
  cases e with
  | arrive d => exact h.1
  | _ => trivial

/-- **Each event leaves a trace of what is looked at, and no datagram is there twice unless it is
repeated.** -/
theorem Traces.step (h : Traces looked w) (hattends : Attends settings w)
    (hledger : Ledger settings ps t w) (hpos : 0 < settings.receiveWindow)
    (few : w.datagrams.length < Serial.half) (here : w.Carried e) :
    ∃ looked', Traces looked' (w.step e) ∧ (w.Unrepeated e → looked.Nodup → looked'.Nodup) := by
  cases e with
  | arrive d =>
    rcases h.arrive hattends hledger hpos few here with ⟨h', hwhy⟩ | ⟨h', -⟩
    · by_cases hdeferred : d.sequence ∈ w.target.receiver.deferred
      · by_cases hnone : d.fleeting = []
        · exact ⟨looked, h'.drop hnone (h.deferred _ hdeferred), fun _ => id⟩
        · exact ⟨_, h', fun hnot => absurd ⟨hdeferred, hnone⟩ hnot.2⟩
      · refine ⟨_, h', fun _ hnodup => ?_⟩
        refine List.nodup_append.2 ⟨hnodup, List.nodup_singleton d, fun d' hd' d'' hd'' heq => ?_⟩
        rw [List.mem_singleton.1 hd''] at heq
        exact hdeferred (hwhy (heq ▸ h.came d' hd'))
    · exact ⟨looked, h', fun _ => id⟩
  | _ => exact ⟨looked, h.other fun _ => nofun, fun _ => id⟩

theorem Course.traces (hvalid : settings.Valid) (hmtu : settings.minMtu ≤ mtu)
    (course : Course settings mtu mtu' Carried w) (few : w.created.length < Serial.half)
    (few' : w.datagrams.length < Serial.half) : ∃ looked, Traces looked w := by
  obtain ⟨-, -, -, hpos, -⟩ := hvalid.bounds
  induction course with
  | start => exact ⟨[], traces_fresh settings mtu mtu'⟩
  | next before here ih =>
    have hcreated := created_lt_of_step few
    have hdatagrams := datagrams_lt_of_step few'
    obtain ⟨ps, t, hledger⟩ := before.ledger hvalid hmtu hcreated
    obtain ⟨looked, h⟩ := ih hcreated hdatagrams
    obtain ⟨looked', h', -⟩ := h.step (before.attends hvalid hmtu hcreated hdatagrams) hledger hpos
      hdatagrams here
    exact ⟨looked', h'⟩
  | clear _ ih =>
    obtain ⟨looked, h⟩ := ih few few'
    exact ⟨looked, h.clear⟩

theorem Course.traces_nodup (hvalid : settings.Valid) (hmtu : settings.minMtu ≤ mtu)
    (course : Course settings mtu mtu' Unrepeated w) (few : w.created.length < Serial.half)
    (few' : w.datagrams.length < Serial.half) :
    ∃ looked, Traces looked w ∧ looked.Nodup := by
  obtain ⟨-, -, -, hpos, -⟩ := hvalid.bounds
  induction course with
  | start => exact ⟨[], traces_fresh settings mtu mtu', List.nodup_nil⟩
  | next before here ih =>
    have hcreated := created_lt_of_step few
    have hdatagrams := datagrams_lt_of_step few'
    have hcourse := before.mono fun _ _ h => Unrepeated.carried h
    obtain ⟨ps, t, hledger⟩ := hcourse.ledger hvalid hmtu hcreated
    obtain ⟨looked, h, hnodup⟩ := ih hcreated hdatagrams
    obtain ⟨looked', h', hstep⟩ := h.step (hcourse.attends hvalid hmtu hcreated hdatagrams) hledger
      hpos hdatagrams (Unrepeated.carried here)
    exact ⟨looked', h', hstep here hnodup⟩
  | clear _ ih =>
    obtain ⟨looked, h, hnodup⟩ := ih few few'
    exact ⟨looked, h.clear, hnodup⟩

/-! ## Brought out once -/

theorem Traces.subperm (h : Traces looked w) (hnodup : looked.Nodup) (hspends : Spends w)
    (hledger : Ledger settings ps t w) : w.fleetingOut.Subperm w.fleetingIn := by
  obtain ⟨among, hperm, hsublist⟩ := List.subperm_of_subset hnodup h.sent
  rw [h.out_eq]
  refine (hperm.symm.flatMap_right _).subperm.trans ?_
  exact ((hsublist.flatMap _).trans (hspends.fleeting_sublist hledger)).subperm

/-- **A copy of a datagram that came before brings out what is fleeting in it a second time if the
datagram is deferred, and nothing otherwise.** Where no such copy comes, every fleeting message
comes out once at most. -/
theorem fleeting_once_unless_deferred (hvalid : settings.Valid) (hmtu : settings.minMtu ≤ mtu)
    (course : Course settings mtu mtu' Carried w) (few : w.created.length < Serial.half)
    (few' : w.datagrams.length < Serial.half) :
    (∀ d ∈ w.datagrams, d.sequence ∈ w.arrived →
        if d.sequence ∈ w.target.receiver.deferred then
          (d.fleeting ++ d.fleeting).Subperm (w.step (.arrive d)).fleetingOut
        else (w.step (.arrive d)).fleetingOut = w.fleetingOut) ∧
      (Course settings mtu mtu' Unrepeated w → w.fleetingOut.Subperm w.fleetingIn) := by
  obtain ⟨-, -, -, hpos, -⟩ := hvalid.bounds
  obtain ⟨ps, t, hledger⟩ := course.ledger hvalid hmtu few
  refine ⟨fun d hd harrived => ?_, fun hunrepeated => ?_⟩
  · have hattends := course.attends hvalid hmtu few few'
    obtain ⟨looked, h⟩ := course.traces hvalid hmtu few few'
    rcases h.arrive hattends hledger hpos few' hd with ⟨h', hwhy⟩ | ⟨h', hnot⟩
    · have hdeferred := hwhy harrived
      rw [if_pos hdeferred, h'.out_eq, List.flatMap_append, List.flatMap_singleton]
      -- the datagram that was deferred is the one of which this is a copy
      obtain ⟨d', hd', heq⟩ := h.deferred _ hdeferred
      have hsame : d' = d := hledger.eq_of_sequence few' (h.sent d' hd') hd heq
      rw [hsame] at hd'
      refine List.Sublist.subperm (List.Sublist.append ?_ (List.Sublist.refl _))
      exact List.sublist_flatten_of_mem (List.mem_map_of_mem hd')
    · rw [if_neg hnot, h'.out_eq, h.out_eq]
  · obtain ⟨looked, h, hnodup⟩ := hunrepeated.traces_nodup hvalid hmtu few few'
    exact h.subperm hnodup course.spends hledger

/-- A receiver with room for one message has missed the first. The second datagram is deferred for
the reliable message in it, and there is an unreliable one in it too. -/
def halfTaken : Exchange :=
  let sent := (fresh { receiveWindow := 1 } 400 400).after [.submit .reliable 0 [0], .transmit 0 1,
    .submit .reliable 0 [1], .submit .unreliable 0 [2], .transmit 0 1]
  sent.after ((sent.datagrams.drop 1).map .arrive)

theorem course_halfTaken : Course { receiveWindow := 1 } 400 400 Carried halfTaken :=
  (Course.start.follow (by decide +kernel)).follow (by decide +kernel)

theorem fleeting_twice_halfTaken :
    halfTaken.fleetingIn = [⟨.unreliable, 0, [2]⟩] ∧
      ∃ d ∈ halfTaken.datagrams, d.fleeting = [⟨.unreliable, 0, [2]⟩] ∧
        (d.fleeting ++ d.fleeting).Subperm (halfTaken.step (.arrive d)).fleetingOut := by
  obtain ⟨hcopy, -⟩ := fleeting_once_unless_deferred (by decide) (by decide) course_halfTaken
    (by decide +kernel) (by decide +kernel)
  have hd : ∃ d ∈ halfTaken.datagrams, d.sequence ∈ halfTaken.arrived ∧
      d.sequence ∈ halfTaken.target.receiver.deferred ∧
      d.fleeting = [⟨.unreliable, 0, [2]⟩] := by decide +kernel
  obtain ⟨d, hd, harrived, hdeferred, hfleeting⟩ := hd
  have hcopy' := hcopy d hd harrived
  rw [if_pos hdeferred] at hcopy'
  exact ⟨by decide +kernel, d, hd, hfleeting, hcopy'⟩

end Exchange

end DatagramTransport

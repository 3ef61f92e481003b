import DatagramTransport.Proofs.Directory
import DatagramTransport.Proofs.Lifetime

/-!
# Attendance — peers that come and go

A session can close while a packet is dealt with, by a tick, or because the application ends it, and
when it was closed by a packet it stays in the table until the next tick. **Whichever way it goes,
the application is told of the end once**, by the time the session has left the table, and nothing
about that peer afterwards, until the peer is back.

What an application is told of one address is written into a diary here, together with the coming
and going of sessions. It turns out to be one visit after the other. A session that is found by an
operation goes on from where it was, so that it takes with it the invariant of its events; one that
leaves is disconnected, which is the phase in which the end was told.
-/

set_option autoImplicit false

namespace DatagramTransport

namespace Session

variable {s : Session}

theorem phase_flush (h : s.phase = .disconnecting ∨ s.phase = .disconnected)
    (now : Nanoseconds) : (s.flush now).2.phase = .disconnected := by
  show (s.flushPackets now).2.phase = .disconnected
  unfold flushPackets
  rcases h with h | h
  · rw [if_neg (by rw [h]; exact nofun)]
    simp only [h, if_true]
    rfl
  · rw [if_pos h]
    exact h

/-- Ending a session closes it with the flush that follows. -/
theorem phase_disconnect (s : Session) :
    s.disconnect.phase = .disconnecting ∨ s.disconnect.phase = .disconnected := by
  unfold disconnect
  split
  next h => exact h
  next => exact Or.inl rfl

theorem events_send (r : Reliability) (channel : UInt8) (payload : Octets) (s : Session) :
    (s.perform (.send r channel payload)).2.events = s.events := by
  simp only [perform]
  split
  · rfl
  next hsend =>
    unfold send at hsend
    split at hsend
    · split at hsend
      · cases hsend
      · cases hsend
        rfl
    · cases hsend

end Session

namespace EndPoint

variable {e : EndPoint} {op : Operation} {address : Address} {s : Session} {calls : List Event}

/-! ## What an operation leaves of a session -/

/-- The application was told this, and knows all there is to tell: of a session in the table, or of
one that has left it. -/
def Knows (calls : List Event) : Option Session → Prop
  | some s => s.Orderly calls ∧ s.events.toList = []
  | none => Phase.disconnected.Tells calls

theorem events_deeds (h : s.events.toList = []) (op : Operation) :
    (s.conduct op.deeds).2.events.toList = [] := by
  cases op with
  | receive now source packet =>
    cases packet with
    | nil => exact h
    | cons id rest =>
      by_cases hid : ControlId.isOffline id = true
      · rw [Operation.deeds, if_pos hid]
        exact h
      · rw [Operation.deeds, if_neg hid]
        rfl
  | register now source guid mtu role => exact h
  | send source r channel payload =>
    exact (congrArg Fifo.toList (s.events_send r channel payload)).trans h
  | disconnect now source => rfl
  | tick now => rfl

/-- What leaves the table is disconnected. -/
theorem phase_of_removes (h : op.removes (s.conduct op.deeds).2 = true) :
    (s.conduct op.deeds).2.phase = .disconnected := by
  cases op with
  | disconnect now source => exact Session.phase_flush s.phase_disconnect now
  | tick now => exact of_decide_eq_true h
  | _ => cases h

theorem Knows.apply (h : s.Orderly calls) (hnothing : s.events.toList = []) (op : Operation) :
    Knows (calls ++ (op.apply s).events) (op.apply s).session := by
  have horderly := h.conduct op.deeds
  have hempty := events_deeds hnothing op
  have hphase : op.removes (s.conduct op.deeds).2 = true →
      (s.conduct op.deeds).2.phase = .disconnected := phase_of_removes
  unfold Operation.apply
  generalize s.conduct op.deeds = done at horderly hempty hphase
  obtain ⟨answers, s'⟩ := done
  simp only at horderly hempty hphase ⊢
  by_cases hremoves : op.removes s' = true
  · rw [if_pos hremoves]
    have htells := horderly.tells
    rwa [hphase hremoves, hempty, List.append_nil] at htells
  · rw [if_neg hremoves]
    exact ⟨horderly, hempty⟩

/-- A session that is put into the table has nothing to tell. -/
theorem Knows.of_isNew {settings : Settings} (h : IsNew settings address s) :
    Knows [] (some s) := by
  obtain ⟨role, guid, mtu, start, rfl⟩ := h
  have hrests := Session.rests_beginLogin start
    (Session.fresh settings role address guid mtu start)
  refine ⟨hrests.moves.orderly [] (Session.orderly_fresh ..), ?_⟩
  rw [hrests.events_eq]
  rfl

theorem Knows.outcome (hnodup : e.peers.Nodup) (hs : e.sessions.get? address = some s)
    (h : Knows calls (some s)) (op : Operation) :
    Knows (calls ++ (outcome address op e).events) (outcome address op e).session := by
  cases hop : op.concerns address with
  | true =>
    rw [outcome_of_some hnodup hop hs]
    exact Knows.apply h.1 h.2 op
  | false =>
    rw [outcome_of_not_concerns hop, List.append_nil, hs]
    exact h

/-! ## The diary of an address -/

inductive Entry where
  | entered
  | called (event : Event)
  | left
  deriving DecidableEq, Repr

/-- What an operation adds to the diary of an address. -/
def note (address : Address) (op : Operation) (e : EndPoint) : List Entry :=
  let (effects, e') := e.perform op
  let calls := (effects.eventsFor address).map Entry.called
  match e.sessions.has address, e'.sessions.has address with
  | false, true => .entered :: calls
  | true, false => calls ++ [.left]
  | _, _ => calls

/-- All that the application was told of an address, with the coming and going of sessions. -/
def diary (address : Address) : List Operation → EndPoint → List Entry
  | [], _ => []
  | op :: ops, e => note address op e ++ diary address ops (e.perform op).2

/-- A session came, the application was told of its end, behind nothing or behind the login and
news, and it went. -/
def IsVisit (entries : List Entry) : Prop :=
  ∃ calls, entries = .entered :: (calls.map .called ++ [.left]) ∧ Phase.disconnected.Tells calls

/-- A session came and is there, and the application was told what fits its phase. -/
def IsStay (entries : List Entry) (s : Session) : Prop :=
  ∃ calls, entries = .entered :: calls.map .called ∧ s.phase.Tells calls

/-- The diary is one visit after the other, and then what there is of a visit that is not over. -/
def Kept (address : Address) (entries : List Entry) (e : EndPoint) : Prop :=
  ∃ (visits : List (List Entry)) (stay : List Entry), entries = visits.flatten ++ stay ∧
    (∀ visit ∈ visits, IsVisit visit) ∧
      match e.sessions.get? address with
      | none => stay = []
      | some s => ∃ calls, stay = .entered :: calls.map .called ∧ Knows calls (some s)

theorem note_eq (address : Address) (op : Operation) (e : EndPoint) :
    note address op e =
      match (e.sessions.get? address).isSome, (outcome address op e).session.isSome with
      | false, true => .entered :: (outcome address op e).events.map Entry.called
      | true, false => (outcome address op e).events.map Entry.called ++ [.left]
      | _, _ => (outcome address op e).events.map Entry.called := rfl

theorem Kept.perform {entries : List Entry} (hnodup : e.peers.Nodup)
    (h : Kept address entries e) (op : Operation) :
    Kept address (entries ++ note address op e) (e.perform op).2 := by
  obtain ⟨visits, stay, rfl, hvisits, hstay⟩ := h
  have hsession : (outcome address op e).session = (e.perform op).2.sessions.get? address := rfl
  unfold Kept
  rw [note_eq, ← hsession]
  cases hs : e.sessions.get? address with
  | none =>
    rw [hs] at hstay
    subst hstay
    obtain ⟨hevents, hnew⟩ := outcome_of_none hnodup hs op
    cases hafter : (outcome address op e).session with
    | none => exact ⟨visits, [], by simp [hevents], hvisits, rfl⟩
    | some s =>
      have hknows := Knows.of_isNew (hnew s hafter)
      exact ⟨visits, [.entered], by simp [hevents], hvisits, [], rfl, hknows⟩
  | some s =>
    rw [hs] at hstay
    obtain ⟨calls, rfl, hknows⟩ := hstay
    have hknows' := hknows.outcome hnodup hs op
    generalize outcome address op e = done at hknows' ⊢
    obtain ⟨events, flushed, _ | s'⟩ := done
    · -- the visit is over, and the diary goes on without one
      refine ⟨visits ++ [.entered :: ((calls ++ events).map .called ++ [.left])], [], by simp, ?_,
        rfl⟩
      intro visit hvisit
      rcases List.mem_append.1 hvisit with hvisit | hvisit
      · exact hvisits visit hvisit
      · rw [List.mem_singleton.1 hvisit]
        exact ⟨calls ++ events, rfl, hknows'⟩
    · exact ⟨visits, .entered :: (calls ++ events).map .called, by simp, hvisits, _, rfl, hknows'⟩

/-- **Whatever is done with an end point, the diary of an address is kept.** -/
theorem Kept.conduct {entries : List Entry} (hnodup : e.peers.Nodup)
    (h : Kept address entries e) (ops : List Operation) :
    Kept address (entries ++ diary address ops e) (e.conduct ops).2 := by
  unfold EndPoint.conduct
  induction ops generalizing e entries with
  | nil => rwa [diary, List.append_nil]
  | cons op ops ih =>
    rw [Stepwise.collect_cons, diary, ← List.append_assoc]
    exact ih (nodup_perform hnodup op) (h.perform hnodup op)

/-- What was told of a session that is there fits its phase. -/
theorem Kept.visits {entries : List Entry} (h : Kept address entries e) :
    ∃ (visits : List (List Entry)) (stay : List Entry), entries = visits.flatten ++ stay ∧
      (∀ visit ∈ visits, IsVisit visit) ∧
        match e.sessions.get? address with
        | none => stay = []
        | some s => IsStay stay s := by
  obtain ⟨visits, stay, hentries, hvisits, hstay⟩ := h
  refine ⟨visits, stay, hentries, hvisits, ?_⟩
  cases hs : e.sessions.get? address with
  | none => rwa [hs] at hstay
  | some s =>
    rw [hs] at hstay
    obtain ⟨calls, hcalls, horderly, hnothing⟩ := hstay
    have htells := horderly.tells
    rw [hnothing, List.append_nil] at htells
    exact ⟨calls, hcalls, htells⟩

/-! ## The table -/

theorem not_disconnected_of_mem_tick {now : Nanoseconds} {entry : Address × Session}
    (h : entry ∈ (e.tick now).2.sessions) : entry.2.phase ≠ .disconnected := by
  rw [sessions_tick] at h
  have hopen := (List.mem_filter.1 h).2
  simpa [Session.isClosed] using hopen

/-- A packet lets its sender in, if there is a place for it, and changes nothing else about who is
there. -/
theorem peers_receive (now : Nanoseconds) (source : Address) (packet : Octets) (e : EndPoint) :
    (e.receive now source packet).2.peers = e.peers ∨
      (e.receive now source packet).2.peers = e.peers ++ [source] ∧
        e.settings.acceptIncoming = true ∧ e.sessions.length < e.settings.maxConnections ∧
        source ∉ e.peers := by
  unfold receive
  split
  · exact Or.inl rfl
  next id rest =>
    by_cases hid : ControlId.isOffline id = true
    · rw [if_pos hid]
      rcases (receiveOffline_cases now source (id :: rest) e).2 with
        hsame | ⟨hplace, guid, mtu, hadmitted⟩
      · exact Or.inl (by rw [hsame])
      · obtain ⟨hhas, hroom⟩ := rejection?_eq_none_iff.1 hplace
        rw [hasPlace, Bool.and_eq_true, decide_eq_true_iff] at hroom
        rw [← Bool.not_eq_true] at hhas
        refine Or.inr ⟨?_, hroom.1, hroom.2, fun hmem => hhas (Table.has_iff.2 hmem)⟩
        rw [hadmitted]
        exact Table.keys_insert.trans (if_neg hhas)
    · rw [if_neg hid]
      split
      · exact Or.inl rfl
      next s hs =>
        refine Or.inl (Table.keys_insert.trans (if_pos ?_))
        rw [Table.has, hs]
        rfl

/-- A session is not put in the place of another one. -/
theorem continues (hnodup : e.peers.Nodup) {s' : Session}
    (hs : e.sessions.get? address = some s)
    (hs' : (e.perform op).2.sessions.get? address = some s') :
    ∃ deeds, s' = (s.conduct deeds).2 := by
  have hsession : (outcome address op e).session = some s' := hs'
  cases hop : op.concerns address with
  | false =>
    rw [outcome_of_not_concerns hop, hs] at hsession
    cases hsession
    exact ⟨[], rfl⟩
  | true =>
    rw [outcome_of_some hnodup hop hs] at hsession
    simp only [Operation.apply] at hsession
    split at hsession
    · cases hsession
    · exact ⟨op.deeds, (Option.some.inj hsession).symm⟩

/-- **Of every session that is put into the table the application is told in order**: the login at
most once and before all messages and receipts, and the end exactly once and last, by the time the
session is gone. Nothing is told of an address without a session.

No two sessions have the same address, none is disconnected after a tick, and a packet puts a
session into the table only if peers are let in, there is room, and its sender has none yet. -/
theorem diary_in_order (settings : Settings) (ops : List Operation) :
    let e₀ : EndPoint := ⟨settings, []⟩
    let e := (e₀.conduct ops).2
    (∀ address, ∃ (visits : List (List Entry)) (stay : List Entry),
        diary address ops e₀ = visits.flatten ++ stay ∧ (∀ visit ∈ visits, IsVisit visit) ∧
          match e.sessions.get? address with
          | none => stay = []
          | some s => IsStay stay s) ∧
      (∀ op address s s', e.sessions.get? address = some s →
        (e.perform op).2.sessions.get? address = some s' → ∃ deeds, s' = (s.conduct deeds).2) ∧
      e.peers.Nodup ∧
      (∀ now, ∀ entry ∈ (e.tick now).2.sessions, entry.2.phase ≠ .disconnected) ∧
      ∀ now source packet, (e.receive now source packet).2.peers = e.peers ∨
        (e.receive now source packet).2.peers = e.peers ++ [source] ∧
          settings.acceptIncoming = true ∧ e.sessions.length < settings.maxConnections ∧
          source ∉ e.peers := by
  intro e₀ e
  have hnobody : e₀.peers.Nodup := List.nodup_nil
  have hnodup : e.peers.Nodup := nodup_conduct hnobody ops
  have hsettings : e.settings = settings := settings_conduct ops e₀
  refine ⟨fun address => ?_, fun op address s s' => continues hnodup, hnodup,
    fun now entry => not_disconnected_of_mem_tick, fun now source packet => ?_⟩
  · have hempty : Kept address [] e₀ := ⟨[], [], rfl, fun _ h => absurd h List.not_mem_nil, rfl⟩
    exact (hempty.conduct hnobody ops).visits
  · rw [← hsettings]
    exact peers_receive now source packet e

example :
    let a : Address := ⟨.v4 1, 1⟩
    diary a [.register 0 a 0 1464 .server, .disconnect 1 a, .register 2 a 0 1464 .client] ⟨{}, []⟩
      = [.entered, .called (.disconnected .disconnectedLocally), .left, .entered] := by
  decide +kernel

end EndPoint

end DatagramTransport

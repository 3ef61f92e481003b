import DatagramTransport.EndPoint
import DatagramTransport.Proofs.Conduct

/-!
# Directory — what an operation on an end point does for one peer

An end point is a table of sessions and not much more. Except for the ticks, which concern everyone,
**an operation writes under one address**: its effects go out under it, and it changes the table
there or nowhere. What it does to a session that it finds can be said by operations on that session
alone, after which the session goes back into the table or is gone from it.

So the life of a peer at an end point is that of a session by itself, and what holds of sessions
holds of all of them together.
-/

set_option autoImplicit false

namespace DatagramTransport

/-! ## Tables without repetitions

A table is a list of entries, and it is looked up by the first that has the key. Where everyone in
it does something, or some are thrown out, the first entry has to be the only one. What goes out is
labelled with addresses, and what goes out under one of them is picked out of it. -/

namespace Table

variable {κ ν μ : Type} [DecidableEq κ] {t : Table κ ν} {k k' : κ} {v : ν}

theorem has_iff : t.has k = true ↔ k ∈ t.keys := by
  unfold has keys
  induction t with
  | nil => simp
  | cons entry rest ih =>
    obtain ⟨key, value⟩ := entry
    by_cases hkey : key = k
    · simp [get?, hkey]
    · simp [get?, hkey, ih, Ne.symm hkey]

theorem get?_eq_none_iff : t.get? k = none ↔ k ∉ t.keys := by
  rw [← has_iff, has]
  simp

theorem keys_insert : (t.insert k v).keys = if t.has k then t.keys else t.keys ++ [k] := by
  have hreplace (t : Table κ ν) : (t.replace k v).keys = t.keys := by
    unfold keys
    induction t with
    | nil => rfl
    | cons entry rest ih =>
      obtain ⟨key, value⟩ := entry
      unfold replace
      split
      next hkey => rw [hkey]; rfl
      next => exact congrArg (key :: ·) ih
  unfold insert
  split
  · exact hreplace t
  · exact List.map_append

theorem nodup_insert (h : t.keys.Nodup) (k : κ) (v : ν) : (t.insert k v).keys.Nodup := by
  rw [keys_insert]
  split
  · exact h
  next hno =>
    rw [has_iff] at hno
    refine List.nodup_append.2 ⟨h, List.pairwise_singleton _ k, fun a ha b hb hab => hno ?_⟩
    rwa [← List.mem_singleton.1 hb, ← hab]

omit [DecidableEq κ] in
theorem nodup_filter (h : t.keys.Nodup) (p : κ × ν → Bool) : (keys (t.filter p)).Nodup :=
  (List.filter_sublist.map Prod.fst).nodup h

omit [DecidableEq κ] in
@[simp] theorem keys_map (f : κ → ν → μ) (t : Table κ ν) :
    keys (t.map fun entry => (entry.1, f entry.1 entry.2)) = t.keys := by
  unfold keys
  rw [List.map_map]
  rfl

theorem get?_map (f : κ → ν → μ) (t : Table κ ν) (k : κ) :
    get? (t.map fun entry => (entry.1, f entry.1 entry.2)) k = (t.get? k).map (f k) := by
  induction t with
  | nil => rfl
  | cons entry rest ih =>
    obtain ⟨key, value⟩ := entry
    simp only [List.map_cons, get?]
    split
    next hkey => rw [hkey]; rfl
    next => exact ih

/-- What is found among some of the entries is what is found among all, if it is one of them. -/
theorem get?_filter (h : t.keys.Nodup) (p : ν → Bool) (k : κ) :
    get? (t.filter fun entry => p entry.2) k = (t.get? k).filter p := by
  induction t with
  | nil => rfl
  | cons entry rest ih =>
    obtain ⟨key, value⟩ := entry
    obtain ⟨hnew, hrest⟩ := List.nodup_cons.1 h
    by_cases hkey : key = k
    · subst hkey
      have hnone : get? rest key = none := get?_eq_none_iff.2 hnew
      cases hp : p value with
      | true => simp [hp, get?, Option.filter]
      | false => simp [hp, get?, ih hrest, hnone, Option.filter]
    · cases hp : p value with
      | true => simp [hp, get?, hkey, ih hrest]
      | false => simp [hp, get?, hkey, ih hrest]

end Table

namespace Effects

variable {β ν : Type}

/-- What goes out under one address. -/
def under (address : Address) (out : List (Address × β)) : List β :=
  (out.filter fun entry => entry.1 = address).map Prod.snd

def eventsFor (address : Address) (effects : Effects) : List Event := under address effects.events

def packetsFor (address : Address) (effects : Effects) : List Octets :=
  under address effects.packets

theorem under_append (address : Address) (out more : List (Address × β)) :
    under address (out ++ more) = under address out ++ under address more := by
  rw [under, List.filter_append, List.map_append]
  rfl

theorem under_map (address : Address) (other : Address) (bs : List β) :
    under address (bs.map (other, ·)) = if other = address then bs else [] := by
  induction bs with
  | nil => simp [under]
  | cons b bs ih =>
    rw [List.map_cons, ← List.singleton_append, under_append, ih]
    by_cases h : other = address <;> simp [under, h]

@[simp] theorem eventsFor_ofPeer (address : Address) (packets : List Octets)
    (events : List Event) : (ofPeer address packets events).eventsFor address = events :=
  (under_map address address events).trans (if_pos rfl)

@[simp] theorem packetsFor_ofPeer (address : Address) (packets : List Octets)
    (events : List Event) : (ofPeer address packets events).packetsFor address = packets :=
  (under_map address address packets).trans (if_pos rfl)

/-- What everyone in a table puts out under an address is what the one at that address does. -/
theorem under_flatMap {t : Table Address ν} (h : t.keys.Nodup) (put : Address → ν → List β)
    (address : Address) :
    under address (t.flatMap fun entry => (put entry.1 entry.2).map (entry.1, ·))
      = ((t.get? address).map (put address)).getD [] := by
  induction t with
  | nil => rfl
  | cons entry rest ih =>
    obtain ⟨key, value⟩ := entry
    obtain ⟨hnew, hrest⟩ := List.nodup_cons.1 h
    rw [List.flatMap_cons, under_append, under_map, ih hrest, Table.get?]
    split
    next hkey =>
      subst hkey
      rw [Table.get?_eq_none_iff.2 hnew]
      exact List.append_nil _
    next => rfl

end Effects

namespace EndPoint

/-! ## Operations -/

/-- What is done with an end point. -/
inductive Operation where
  | receive (now : Nanoseconds) (source : Address) (packet : Octets)
  | register (now : Nanoseconds) (address : Address) (guid : UInt64) (mtu : UInt16) (role : Role)
  | send (address : Address) (r : Reliability) (channel : UInt8) (payload : Octets)
  | disconnect (now : Nanoseconds) (address : Address)
  | tick (now : Nanoseconds)
  deriving DecidableEq, Repr

namespace Operation

/-- The address that the operation is about; a tick is about all of them. -/
def peer? : Operation → Option Address
  | receive _ source _ => some source
  | register _ address _ _ _ => some address
  | send address _ _ _ => some address
  | disconnect _ address => some address
  | tick _ => none

def concerns (address : Address) (op : Operation) : Bool := op.peer?.all (· = address)

/-- What it does with a session that it is about. -/
def deeds : Operation → List Session.Operation
  | receive _ _ [] => []
  | receive now _ (id :: rest) =>
    if ControlId.isOffline id then [] else [.receive now (id :: rest), .takeEvents]
  | register .. => []
  | send _ r channel payload => [.send r channel payload]
  | disconnect now _ => [.disconnect, .flush now, .takeEvents]
  | tick now => [.tick now, .flush now, .takeEvents]

/-- The session, as it is by then, leaves the table. -/
def removes : Operation → Session → Bool
  | disconnect .., _ => true
  | tick _, s => s.isClosed
  | _, _ => false

/-- The packets that a session has flushed. What an end point answers to a packet by itself is not
among them. -/
def flushed (address : Address) (op : Operation) (effects : Effects) : List Octets :=
  match op with
  | receive .. => []
  | _ => effects.packetsFor address

end Operation

/-- A wish that cannot be met changes nothing. -/
def perform (op : Operation) (e : EndPoint) : Effects × EndPoint :=
  match op with
  | .receive now source packet => e.receive now source packet
  | .register now address guid mtu role =>
    match e.register now address guid mtu role with
    | .ok e => (.none, e)
    | .error _ => (.none, e)
  | .send address r channel payload =>
    match e.send address r channel payload with
    | .ok (_, e) => (.none, e)
    | .error _ => (.none, e)
  | .disconnect now address =>
    match e.disconnect now address with
    | .ok result => result
    | .error _ => (.none, e)
  | .tick now => e.tick now

/-- Performs operations, one after the other. -/
def conduct (ops : List Operation) (e : EndPoint) : List Effects × EndPoint :=
  Stepwise.collect perform ops e

variable {e : EndPoint} {op : Operation} {address : Address} {s : Session}

/-! ## For everyone else

That an operation is confined to its address is one statement about effects and table, with the
three things that it can do to the table: nothing, put a session in its place, or take it out. All
that another peer could notice is then the same as before, and the operation need not be looked
into. -/

/-- All that an operation does that is about one peer. -/
structure Confined (address : Address) (e : EndPoint) (done : Effects × EndPoint) : Prop where
  effects : ∃ packets events, done.1 = .ofPeer address packets events
  sessions : done.2.sessions = e.sessions ∨ (∃ s, done.2.sessions = e.sessions.insert address s) ∨
    done.2.sessions = e.sessions.erase address
  settings_eq : done.2.settings = e.settings

theorem confined_none (address : Address) (e : EndPoint) : Confined address e (.none, e) :=
  ⟨⟨[], [], rfl⟩, Or.inl rfl, rfl⟩

/-- With the session of a peer that was let in. -/
def admitted (now : Nanoseconds) (source : Address) (guid : UInt64) (mtu : UInt16)
    (e : EndPoint) : EndPoint :=
  { e with
    sessions := e.sessions.insert source (Session.fresh e.settings .server source guid mtu now) }

theorem rejection?_eq_none_iff :
    e.rejection? address = none ↔ e.sessions.has address = false ∧ e.hasPlace = true := by
  unfold rejection?
  cases e.sessions.has address with
  | true => simp
  | false => cases e.hasPlace <;> simp

/-- What comes from without a connection is answered under its address, or not at all, and if it
changes anything then its sender is let in. -/
theorem receiveOffline_cases (now : Nanoseconds) (source : Address) (packet : Octets)
    (e : EndPoint) :
    (∃ packets, (e.receiveOffline now source packet).1 = .ofPeer source packets []) ∧
      ((e.receiveOffline now source packet).2 = e ∨ e.rejection? source = none ∧
        ∃ guid mtu, (e.receiveOffline now source packet).2 = e.admitted now source guid mtu) := by
  have hanswer (m : ControlMessage) : (e.answer? now source m).2 = e ∨ e.rejection? source = none ∧
      ∃ guid mtu, (e.answer? now source m).2 = e.admitted now source guid mtu := by
    cases m with
    | openConnectionRequest2 _ mtu guid =>
      simp only [answer?, answerRequest2]
      split
      · exact Or.inl rfl
      next hplace => exact Or.inr ⟨hplace, guid, _, rfl⟩
    | _ => exact Or.inl rfl
  unfold receiveOffline
  split
  · exact ⟨⟨[], rfl⟩, Or.inl rfl⟩
  next m _ _ =>
    have hanswer := hanswer m
    generalize e.answer? now source m = answered at hanswer
    obtain ⟨_ | reply, e'⟩ := answered
    · exact ⟨⟨[], rfl⟩, hanswer⟩
    · simp only
      split
      · exact ⟨⟨_, rfl⟩, hanswer⟩
      · exact ⟨⟨[], rfl⟩, hanswer⟩

theorem confined_receive (now : Nanoseconds) (source : Address) (packet : Octets)
    (e : EndPoint) : Confined source e (e.receive now source packet) := by
  unfold receive
  split
  · exact confined_none source e
  · split
    · obtain ⟨⟨packets, heffects⟩, hsame | ⟨-, guid, mtu, hsame⟩⟩ :=
        receiveOffline_cases now source _ e
      · exact ⟨⟨packets, [], heffects⟩, Or.inl (congrArg sessions hsame), congrArg settings hsame⟩
      · exact ⟨⟨packets, [], heffects⟩, Or.inr (Or.inl ⟨_, congrArg sessions hsame⟩),
          (congrArg settings hsame).trans rfl⟩
    · split
      · exact confined_none source e
      · exact ⟨⟨_, _, rfl⟩, Or.inr (Or.inl ⟨_, rfl⟩), rfl⟩

/-- **An operation that is about one peer writes under its address.** -/
theorem confined_perform (hop : op.peer? = some address) (e : EndPoint) :
    Confined address e (e.perform op) := by
  cases op with
  | receive now source packet =>
    cases hop
    exact confined_receive now _ packet e
  | register now address guid mtu role =>
    cases hop
    simp only [perform, register]
    split
    next hok =>
      split at hok
      · cases hok
      · split at hok
        · cases hok
        · cases hok
          exact ⟨⟨[], [], rfl⟩, Or.inr (Or.inl ⟨_, rfl⟩), rfl⟩
    next => exact confined_none _ e
  | send address r channel payload =>
    cases hop
    simp only [perform, send]
    split
    next hok =>
      split at hok
      · cases hok
      · split at hok
        · cases hok
        · cases hok
          exact ⟨⟨[], [], rfl⟩, Or.inr (Or.inl ⟨_, rfl⟩), rfl⟩
    next => exact confined_none _ e
  | disconnect now address =>
    cases hop
    simp only [perform, disconnect]
    split
    next hok =>
      split at hok
      · cases hok
      · cases hok
        exact ⟨⟨_, _, rfl⟩, Or.inr (Or.inr rfl), rfl⟩
    next => exact confined_none _ e
  | tick now => cases hop

/-- **An operation for another address is nothing to this one.** -/
theorem perform_of_not_concerns (hop : op.concerns address = false) (e : EndPoint) :
    (e.perform op).1.eventsFor address = [] ∧ (e.perform op).1.packetsFor address = [] ∧
      (e.perform op).2.sessions.get? address = e.sessions.get? address := by
  obtain ⟨other, hother, hne⟩ : ∃ other, op.peer? = some other ∧ other ≠ address := by
    unfold Operation.concerns at hop
    cases hpeer : op.peer? with
    | none => rw [hpeer] at hop; cases hop
    | some other =>
      rw [hpeer] at hop
      exact ⟨other, rfl, of_decide_eq_false hop⟩
  obtain ⟨⟨packets, events, heffects⟩, hsessions, -⟩ := confined_perform hother e
  rw [heffects]
  refine ⟨(Effects.under_map address other events).trans (if_neg hne),
    (Effects.under_map address other packets).trans (if_neg hne), ?_⟩
  rcases hsessions with h | ⟨s, h⟩ | h
  · rw [h]
  · rw [h, Table.get?_insert_of_ne _ _ (Ne.symm hne)]
  · rw [h, Table.get?_erase_of_ne _ (Ne.symm hne)]

/-- What a peer gets to see of an operation, and the session that it has afterwards. -/
structure Outcome where
  events : List Event
  flushed : List Octets
  session : Option Session

def outcome (address : Address) (op : Operation) (e : EndPoint) : Outcome :=
  ⟨(e.perform op).1.eventsFor address, op.flushed address (e.perform op).1,
    (e.perform op).2.sessions.get? address⟩

theorem outcome_of_not_concerns (hop : op.concerns address = false) (e : EndPoint) :
    outcome address op e = ⟨[], [], e.sessions.get? address⟩ := by
  obtain ⟨hevents, hpackets, hsession⟩ := perform_of_not_concerns hop e
  have hflushed : op.flushed address (e.perform op).1 = [] := by
    cases op with
    | receive now source packet => rfl
    | _ => exact hpackets
  rw [outcome, hevents, hflushed, hsession]

/-! ## For all

A tick goes through the table, and each session is dealt with under its own address. What it means
for one peer can be picked out only because no address is there twice, which every operation keeps.
-/

theorem settings_perform (op : Operation) (e : EndPoint) :
    (e.perform op).2.settings = e.settings := by
  cases hpeer : op.peer? with
  | some address => exact (confined_perform hpeer e).settings_eq
  | none =>
    cases op with
    | tick now => rfl
    | _ => cases hpeer

/-- With a tick every session goes on by itself, and the closed ones are left out. -/
theorem sessions_tick (now : Nanoseconds) (e : EndPoint) :
    (e.tick now).2.sessions = (e.sessions.map fun entry =>
      (entry.1, (tickSession now entry.1 entry.2).2)).filter fun entry => !entry.2.isClosed := by
  simp only [tick, List.map_map]
  rfl

theorem nodup_ticked (h : e.peers.Nodup) (now : Nanoseconds) :
    (Table.keys (e.sessions.map fun entry =>
      (entry.1, (tickSession now entry.1 entry.2).2))).Nodup := by
  rwa [Table.keys_map fun address s => (tickSession now address s).2]

theorem nodup_perform (h : e.peers.Nodup) (op : Operation) : (e.perform op).2.peers.Nodup := by
  cases hpeer : op.peer? with
  | some address =>
    unfold peers at h ⊢
    rcases (confined_perform hpeer e).sessions with heq | ⟨s, heq⟩ | heq
    · rwa [heq]
    · rw [heq]
      exact Table.nodup_insert h address s
    · rw [heq]
      exact Table.nodup_filter h _
  | none =>
    cases op with
    | tick now =>
      show (Table.keys (e.tick now).2.sessions).Nodup
      rw [sessions_tick]
      exact Table.nodup_filter (nodup_ticked h now) _
    | _ => cases hpeer

theorem eventsFor_tick (hnodup : e.peers.Nodup) (address : Address) (now : Nanoseconds) :
    (e.tick now).1.eventsFor address = ((e.sessions.get? address).map fun s =>
      ((s.tick now).flush now).2.events.toList).getD [] := by
  simp only [Effects.eventsFor, tick, Effects.join, List.map_map, List.flatMap_map]
  exact Effects.under_flatMap hnodup (fun _ s => ((s.tick now).flush now).2.events.toList) address

theorem get?_tick (hnodup : e.peers.Nodup) (address : Address) (now : Nanoseconds) :
    (e.tick now).2.sessions.get? address = ((e.sessions.get? address).map fun s =>
      (tickSession now address s).2).filter fun s => !s.isClosed := by
  rw [sessions_tick, Table.get?_filter (nodup_ticked hnodup now) fun s : Session => !s.isClosed,
    Table.get?_map fun a s => (tickSession now a s).2]

/-- What every operation keeps holds after all of them. -/
theorem conduct_keeps {P : EndPoint → Prop} (hstep : ∀ op e, P e → P (e.perform op).2) (h : P e)
    (ops : List Operation) : P (e.conduct ops).2 := by
  unfold conduct
  induction ops generalizing e with
  | nil => exact h
  | cons op ops ih =>
    rw [Stepwise.collect_cons]
    exact ih (hstep op e h)

theorem nodup_conduct (h : e.peers.Nodup) (ops : List Operation) :
    (e.conduct ops).2.peers.Nodup :=
  conduct_keeps (P := fun e => e.peers.Nodup) (fun op _ h => nodup_perform h op) h ops

theorem settings_conduct (ops : List Operation) (e : EndPoint) :
    (e.conduct ops).2.settings = e.settings :=
  conduct_keeps (P := fun e' => e'.settings = e.settings)
    (fun op e' h => (settings_perform op e').trans h) rfl ops

/-! ## For the peer that it is about

An operation on the end point is translated into operations on the session (`Operation.deeds`). With
the session in hand, doing these alone gives the same events, the same packets and the same session,
and it is left in the table or taken out. -/

/-- What an operation does with a session by itself. -/
def Operation.apply (op : Operation) (s : Session) : Outcome :=
  let (answers, s) := s.conduct op.deeds
  ⟨answers.flatMap Session.Answer.eventList, answers.flatMap Session.Answer.packetList,
    if op.removes s then none else some s⟩

section Apply

variable (now : Nanoseconds) (s : Session)

theorem apply_of_deeds_eq_nil (hdeeds : op.deeds = []) (hremoves : op.removes s = false) :
    op.apply s = ⟨[], [], some s⟩ := by
  simp only [Operation.apply, hdeeds, Session.conduct, Stepwise.collect_nil, List.flatMap_nil,
    hremoves, Bool.false_eq_true, if_false]

theorem apply_receive {id : UInt8} (hid : ControlId.isOffline id = false) (rest : Octets) :
    (Operation.receive now address (id :: rest)).apply s =
      let (events, s) := (s.receive now (id :: rest)).2.takeEvents
      ⟨events, [], some s⟩ := by
  have hreceive : ∃ answer : Session.Answer, answer.eventList = [] ∧ answer.packetList = [] ∧
      s.perform (.receive now (id :: rest)) = (answer, (s.receive now (id :: rest)).2) := by
    simp only [Session.perform]
    generalize s.receive now (id :: rest) = received
    obtain ⟨fault | _, s'⟩ := received
    · exact ⟨.malformed fault, rfl, rfl, rfl⟩
    · exact ⟨.done, rfl, rfl, rfl⟩
  obtain ⟨answer, hevents, hpackets, hperform⟩ := hreceive
  simp only [Operation.apply, Operation.deeds, hid, Bool.false_eq_true, if_false, Session.conduct,
    Stepwise.collect_cons, Stepwise.collect_nil, hperform, List.flatMap_cons, hevents, hpackets]
  simp only [Session.perform, Session.Answer.eventList, Session.Answer.packetList,
    List.flatMap_nil, List.append_nil]
  rfl

/-- What is flushed is all that the session has to send by then, and what is told is all that it
has to tell. -/
theorem apply_of_flush {first : Session.Operation}
    (hdeeds : op.deeds = [first, .flush now, .takeEvents])
    (hfirst : (s.perform first).1 = .done) :
    op.apply s =
      let (packets, s) := (s.perform first).2.flush now
      let (events, s) := s.takeEvents
      ⟨events, packets, if op.removes s then none else some s⟩ := by
  simp only [Operation.apply, hdeeds, Session.conduct, Stepwise.collect_cons,
    Stepwise.collect_nil, hfirst, List.flatMap_cons, List.flatMap_nil, List.append_nil]
  simp only [Session.perform, Session.Answer.eventList, Session.Answer.packetList,
    List.append_nil, List.nil_append]
  rfl

end Apply

/-- A tick lets time pass for each session by itself. -/
theorem outcome_tick (hnodup : e.peers.Nodup) (hs : e.sessions.get? address = some s)
    (now : Nanoseconds) : outcome address (.tick now) e = (Operation.tick now).apply s := by
  have hpackets : (e.tick now).1.packetsFor address = ((s.tick now).flush now).1 := by
    simp only [Effects.packetsFor, tick, Effects.join, List.map_map, List.flatMap_map]
    exact (Effects.under_flatMap hnodup (fun _ s => ((s.tick now).flush now).1)
      address).trans (by rw [hs]; rfl)
  have hsession : (e.tick now).2.sessions.get? address
      = if (tickSession now address s).2.isClosed then none
        else some (tickSession now address s).2 := by
    rw [get?_tick hnodup, hs]
    cases hclosed : (tickSession now address s).2.isClosed <;> simp [Option.filter, hclosed]
  refine Eq.trans ?_ (apply_of_flush now s rfl rfl).symm
  show Outcome.mk ((e.tick now).1.eventsFor address) ((e.tick now).1.packetsFor address)
    ((e.tick now).2.sessions.get? address) = _
  rw [eventsFor_tick hnodup, hs, hpackets, hsession]
  rfl

/-- A packet is for the session, unless it is from without a connection; who has a session is not
let in again. -/
theorem outcome_receive (hs : e.sessions.get? address = some s) (now : Nanoseconds)
    (packet : Octets) :
    outcome address (.receive now address packet) e
      = (Operation.receive now address packet).apply s := by
  match packet with
  | [] =>
    rw [apply_of_deeds_eq_nil s rfl rfl, ← hs]
    rfl
  | id :: rest =>
    by_cases hid : ControlId.isOffline id = true
    · obtain ⟨⟨packets, heffects⟩, hsame⟩ := receiveOffline_cases now address (id :: rest) e
      have hsame : (e.receiveOffline now address (id :: rest)).2 = e := by
        refine hsame.resolve_right fun hadmitted => ?_
        have hhas := (rejection?_eq_none_iff.1 hadmitted.1).1
        rw [Table.has, hs] at hhas
        cases hhas
      rw [apply_of_deeds_eq_nil s (by simp only [Operation.deeds, hid, if_true]) rfl, outcome]
      simp only [perform, receive, hid, if_true, heffects, hsame, hs, Effects.eventsFor_ofPeer]
      rfl
    · rw [Bool.not_eq_true] at hid
      rw [apply_receive now s hid]
      simp only [outcome, perform, receive, hid, Bool.false_eq_true, if_false, hs, settle,
        Effects.eventsFor_ofPeer, Table.get?_insert_self]
      rfl

/-- **What an operation does for a peer that has a session is what it does with that session.** -/
theorem outcome_of_some (hnodup : e.peers.Nodup) (hop : op.concerns address = true)
    (hs : e.sessions.get? address = some s) : outcome address op e = op.apply s := by
  cases op with
  | receive now source packet =>
    obtain rfl : source = address := of_decide_eq_true hop
    exact outcome_receive hs now packet
  | register now source guid mtu role =>
    obtain rfl : source = address := of_decide_eq_true hop
    have hhas : e.sessions.has source = true := by rw [Table.has, hs]; rfl
    have hsame : e.perform (.register now source guid mtu role) = (.none, e) := by
      simp only [perform, register, hhas, if_true]
      by_cases hmtu : mtu < e.settings.minMtu ∨ e.settings.maxMtu < mtu
      · rw [if_pos hmtu]
      · rw [if_neg hmtu]
    rw [apply_of_deeds_eq_nil s rfl rfl, outcome, hsame, hs]
    rfl
  | send source r channel payload =>
    obtain rfl : source = address := of_decide_eq_true hop
    simp only [outcome, perform, send, hs, Operation.apply, Operation.deeds, Session.conduct,
      Stepwise.collect_cons, Stepwise.collect_nil, Session.perform]
    cases s.send r channel payload with
    | error fault =>
      simp only [hs]
      rfl
    | ok result =>
      simp only [Table.get?_insert_self]
      rfl
  | disconnect now source =>
    obtain rfl : source = address := of_decide_eq_true hop
    refine Eq.trans ?_ (apply_of_flush now s rfl rfl).symm
    simp only [outcome, perform, disconnect, hs, Operation.flushed, Effects.eventsFor_ofPeer,
      Effects.packetsFor_ofPeer, Table.get?_erase_self]
    rfl
  | tick now => exact outcome_tick hnodup hs now

/-! ## For a peer that is not there

Without a session there is nobody to tell anything to. Some operations put a session into the table,
and this is always a new one, which has told nothing yet. -/

/-- A session as it is put into the table. -/
def IsNew (settings : Settings) (address : Address) (s : Session) : Prop :=
  ∃ role guid mtu start,
    s = (Session.fresh settings role address guid mtu start).beginLogin start

theorem isNew_server (settings : Settings) (address : Address) (guid : UInt64) (mtu : UInt16)
    (now : Nanoseconds) :
    IsNew settings address (Session.fresh settings .server address guid mtu now) := by
  refine ⟨.server, guid, mtu, now, ?_⟩
  rw [Session.beginLogin, if_neg]
  exact fun h => Role.noConfusion h.1

/-- The application is told nothing, and the session that there is by then, if any, is new. -/
structure Outcome.Begins (settings : Settings) (address : Address) (seen : Outcome) : Prop where
  events_eq : seen.events = []
  isNew : ∀ s, seen.session = some s → IsNew settings address s

theorem Outcome.begins_of_none {settings : Settings} {seen : Outcome} (hevents : seen.events = [])
    (hs : seen.session = none) : seen.Begins settings address :=
  ⟨hevents, fun s h => by rw [hs] at h; cases h⟩

theorem Outcome.begins_of_some {settings : Settings} {seen : Outcome} (hevents : seen.events = [])
    (hs : seen.session = some s) (hnew : IsNew settings address s) :
    seen.Begins settings address :=
  ⟨hevents, fun s' h => by rwa [← Option.some.inj (hs.symm.trans h)]⟩

theorem begins_receive (hs : e.sessions.get? address = none) (now : Nanoseconds)
    (packet : Octets) :
    (outcome address (.receive now address packet) e).Begins e.settings address := by
  simp only [outcome, perform, receive]
  split
  · exact Outcome.begins_of_none rfl hs
  next id rest =>
    split
    · obtain ⟨⟨packets, heffects⟩, hsame | ⟨-, guid, mtu, hsame⟩⟩ :=
        receiveOffline_cases now address (id :: rest) e
      · rw [heffects, hsame]
        exact Outcome.begins_of_none (Effects.eventsFor_ofPeer _ _ _) hs
      · rw [heffects, hsame]
        exact Outcome.begins_of_some (Effects.eventsFor_ofPeer _ _ _)
          (Table.get?_insert_self _ _ _) (isNew_server _ _ guid mtu now)
    · rw [hs]
      exact Outcome.begins_of_none rfl hs

theorem begins_register (hs : e.sessions.get? address = none) (now : Nanoseconds) (guid : UInt64)
    (mtu : UInt16) (role : Role) :
    (outcome address (.register now address guid mtu role) e).Begins e.settings address := by
  have hhas : e.sessions.has address = false := by rw [Table.has, hs]; rfl
  by_cases hmtu : mtu < e.settings.minMtu ∨ e.settings.maxMtu < mtu
  · simp only [outcome, perform, register, hmtu, if_true]
    exact Outcome.begins_of_none rfl hs
  · simp only [outcome, perform, register, hmtu, hhas, Bool.false_eq_true, if_false]
    exact Outcome.begins_of_some rfl (Table.get?_insert_self _ _ _) ⟨role, guid, mtu, now, rfl⟩

theorem begins_tick (hnodup : e.peers.Nodup) (hs : e.sessions.get? address = none)
    (now : Nanoseconds) : (outcome address (.tick now) e).Begins e.settings address := by
  refine Outcome.begins_of_none ?_ ?_
  · show (e.tick now).1.eventsFor address = []
    rw [eventsFor_tick hnodup, hs]
    rfl
  · show (e.tick now).2.sessions.get? address = none
    rw [get?_tick hnodup, hs]
    rfl

/-- **For a peer without a session nothing is told**, and the session that an operation may put into
the table is a new one. -/
theorem outcome_of_none (hnodup : e.peers.Nodup) (hs : e.sessions.get? address = none)
    (op : Operation) : (outcome address op e).Begins e.settings address := by
  cases hop : op.concerns address with
  | false =>
    rw [outcome_of_not_concerns hop]
    exact Outcome.begins_of_none rfl hs
  | true =>
    cases op with
    | receive now source packet =>
      obtain rfl : source = address := of_decide_eq_true hop
      exact begins_receive hs now packet
    | register now source guid mtu role =>
      obtain rfl : source = address := of_decide_eq_true hop
      exact begins_register hs now guid mtu role
    | send source r channel payload =>
      obtain rfl : source = address := of_decide_eq_true hop
      simp only [outcome, perform, send, hs]
      exact Outcome.begins_of_none rfl rfl
    | disconnect now source =>
      obtain rfl : source = address := of_decide_eq_true hop
      simp only [outcome, perform, disconnect, hs]
      exact Outcome.begins_of_none rfl rfl
    | tick now => exact begins_tick hnodup hs now

end EndPoint

end DatagramTransport

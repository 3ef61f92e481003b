import DatagramTransport.Proofs.Release

/-!
# An order channel through any number of turns

A channel is only ever told serial numbers, and it keeps what is early under them. Whoever sends on
it means places that never wrap, and so one channel is watched here from outside: what it took in at
the place it waited for, or ahead of that, is written down with its place, and so is what came out.
**As long as every message is within half a turn of the place that the channel waits for, the
payloads of consecutive places come out**, each as it was first taken in, up to the first place that
is missing. Copies, late ones and the other channels make no difference.

What is kept from one message to the next is `Follows`: the channel waits for the place behind what
came out, and holds what was written down of the places ahead. `Channel.Awaits.take` says what one
message does; everything else is read off it.
-/

set_option autoImplicit false

namespace DatagramTransport

namespace Receiver

theorem Channel.map_some_between {got : Nat → Option Octets} {n m : Nat}
    (h : ∀ k, n ≤ k → k < m → (got k).isSome) :
    (Channel.between got n m).map some = (List.range' n (m - n)).map got := by
  have hall : ∀ k ∈ List.range' n (m - n), (got k).isSome := by
    intro k hk
    rw [List.mem_range'_1] at hk
    exact h k hk.1 (by omega)
  unfold Channel.between
  generalize List.range' n (m - n) = places at hall
  induction places with
  | nil => rfl
  | cons k places ih =>
    obtain ⟨x, hx⟩ := Option.isSome_iff_exists.1 (hall k List.mem_cons_self)
    rw [List.filterMap_cons_some hx, List.map_cons, List.map_cons, hx,
      ih fun j hj => hall j (List.mem_cons_of_mem _ hj)]

namespace Channels

/-- An ordered message, with the place that its serial number stands for. -/
structure Arrival where
  channel : UInt8
  place : Nat
  payload : Octets
  deriving DecidableEq, Repr

def Arrival.mark (a : Arrival) : OrderMark := ⟨Serial.ofNat a.place, a.channel⟩

/-- Channels, and what was seen of one of them. -/
structure Watched where
  channels : Channels
  /-- The place that the channel waited for at first. -/
  start : Nat
  /-- What was taken in, unless it was late, with its places and in the order in which it came. -/
  taken : List (Nat × Octets)
  released : List Octets
  deriving Repr

namespace Watched

variable {channel : UInt8} {s s' : Watched} {a : Arrival} {arrivals : List Arrival}

/-- The place that the channel waits for. -/
def next (s : Watched) : Nat := s.start + s.released.length

/-- What becomes of a message. It is taken in only if it is accepted. -/
def step (channel : UInt8) (s : Watched) (a : Arrival) : Watched :=
  if s.channels.accepts a.mark then
    match s.channels.takeOrdered a.mark a.payload with
    | .error _ => s
    | .ok (payloads, channels) =>
      if a.channel = channel then
        { s with
          channels := channels
          taken := if s.next ≤ a.place then s.taken ++ [(a.place, a.payload)] else s.taken
          released := s.released ++ payloads }
      else { s with channels := channels }
  else s

def steps (channel : UInt8) (s : Watched) (arrivals : List Arrival) : Watched :=
  arrivals.foldl (step channel) s

/-- Each message for the channel is within half a turn of the place that the channel waits for at
the time. -/
def Near (channel : UInt8) (s : Watched) : List Arrival → Prop
  | [] => True
  | a :: rest =>
    (a.channel = channel → s.next ≤ a.place + Serial.half ∧ a.place < s.next + Serial.half) ∧
      (s.step channel a).Near channel rest

instance decidableNear (channel : UInt8) (s : Watched) :
    (arrivals : List Arrival) → Decidable (s.Near channel arrivals)
  | [] => inferInstanceAs (Decidable True)
  | a :: rest =>
    have := decidableNear channel (s.step channel a) rest
    inferInstanceAs (Decidable ((a.channel = channel →
      s.next ≤ a.place + Serial.half ∧ a.place < s.next + Serial.half) ∧
      (s.step channel a).Near channel rest))

/-- What came out are the places from the start on, and the channel waits for the next one. -/
structure Follows (channel : UInt8) (s : Watched) : Prop where
  awaits : ∃ c, s.channels.get? channel = some c ∧ c.Awaits (s.taken.lookup ·) s.next
  filled : ∀ k, s.start ≤ k → k < s.next → (s.taken.lookup k).isSome
  released_eq : s.released = Channel.between (s.taken.lookup ·) s.start s.next

theorem follows_start {cs : Channels} {c : Channel} {start : Nat}
    (hget : cs.get? channel = some c) (hstart : c.nextOrdered = Serial.ofNat start)
    (hheld : c.held = ∅) : Follows channel ⟨cs, start, [], []⟩ where
  awaits := ⟨c, hget, hstart, rfl, fun k _ _ => by simp [hheld], fun _ hk => by cases hk⟩
  filled := fun k h₁ h₂ => absurd h₂ (Nat.not_lt.2 h₁)
  released_eq := (Channel.between_self _ start).symm

theorem lookup_snoc (taken : List (Nat × Octets)) (k : Nat) (x : Octets) :
    ((taken ++ [(k, x)]).lookup ·) = Channel.offer (taken.lookup ·) k x := by
  funext j
  rw [List.lookup_append, Channel.offer, List.lookup_cons, List.lookup_nil]
  by_cases hjk : j = k
  · rw [if_pos hjk, beq_iff_eq.2 hjk]
  · rw [if_neg hjk, beq_false_of_ne hjk]

theorem start_step : (s.step channel a).start = s.start := by
  unfold step
  split
  · split
    · rfl
    · split <;> rfl
  · rfl

theorem start_steps : (s.steps channel arrivals).start = s.start := by
  induction arrivals generalizing s with
  | nil => rfl
  | cons a rest ih => exact ih.trans start_step

theorem step_of_accepted {c : Channel} (hget : s.channels.get? a.channel = some c)
    (haccepts : s.channels.accepts a.mark = true) :
    s.step channel a =
      if a.channel = channel then
        { s with
          channels := s.channels.set a.channel (c.takeOrdered a.mark.index a.payload).2
          taken := if s.next ≤ a.place then s.taken ++ [(a.place, a.payload)] else s.taken
          released := s.released ++ (c.takeOrdered a.mark.index a.payload).1 }
      else
        { s with
          channels := s.channels.set a.channel (c.takeOrdered a.mark.index a.payload).2 } := by
  have htake : s.channels.takeOrdered a.mark a.payload
      = .ok ((c.takeOrdered a.mark.index a.payload).1,
          s.channels.set a.channel (c.takeOrdered a.mark.index a.payload).2) := by
    unfold Channels.takeOrdered
    rw [show a.mark.channel = a.channel from rfl, hget]
  rw [step, if_pos haccepts, htake]

theorem step_of_not_accepted (haccepts : ¬ s.channels.accepts a.mark = true) :
    s.step channel a = s := if_neg haccepts

/-- There is nothing to say of a channel that does not exist. -/
theorem step_of_get?_none (hget : s.channels.get? a.channel = none) : s.step channel a = s := by
  unfold step Channels.takeOrdered
  rw [show a.mark.channel = a.channel from rfl, hget]
  exact ite_self s

/-- The same was seen of the channel, and it is in the same state. -/
structure Alike (channel : UInt8) (s s' : Watched) : Prop where
  start_eq : s.start = s'.start
  taken_eq : s.taken = s'.taken
  released_eq : s.released = s'.released
  get?_eq : s.channels.get? channel = s'.channels.get? channel
  window_eq : s.channels.window = s'.channels.window

theorem Alike.step_other (h : Alike channel s s') (hne : a.channel ≠ channel) :
    Alike channel (s.step channel a) s' := by
  cases hget : s.channels.get? a.channel with
  | none => rwa [step_of_get?_none hget]
  | some c =>
    by_cases haccepts : s.channels.accepts a.mark = true
    · rw [step_of_accepted hget haccepts, if_neg hne]
      refine ⟨h.start_eq, h.taken_eq, h.released_eq, ?_, h.window_eq⟩
      rw [get?_set (lt_length_of_get? hget), if_neg hne, h.get?_eq]
    · rwa [step_of_not_accepted haccepts]

theorem Alike.step_own (h : Alike channel s s') (hown : a.channel = channel) :
    Alike channel (s.step channel a) (s'.step channel a) := by
  subst hown
  have haccepts_iff : s.channels.accepts a.mark = s'.channels.accepts a.mark := by
    unfold Channels.accepts
    rw [show a.mark.channel = a.channel from rfl, h.get?_eq, h.window_eq]
  cases hget : s.channels.get? a.channel with
  | none => rwa [step_of_get?_none hget, step_of_get?_none (h.get?_eq ▸ hget)]
  | some c =>
    have hget' : s'.channels.get? a.channel = some c := h.get?_eq ▸ hget
    by_cases haccepts : s.channels.accepts a.mark = true
    · have hnext : s.next = s'.next := by
        rw [next, h.start_eq, h.released_eq, next]
      rw [step_of_accepted hget haccepts, step_of_accepted hget' (haccepts_iff ▸ haccepts),
        if_pos rfl, if_pos rfl]
      refine ⟨h.start_eq, ?_, ?_, ?_, h.window_eq⟩
      · simp only [hnext, h.taken_eq]
      · simp only [h.released_eq]
      · rw [get?_set (lt_length_of_get? hget), get?_set (lt_length_of_get? hget'), if_pos rfl,
          if_pos rfl]
    · rwa [step_of_not_accepted haccepts, step_of_not_accepted (haccepts_iff ▸ haccepts)]

/-- The messages for other channels could as well be left out. -/
theorem Alike.steps (h : Alike channel s s') :
    Alike channel (s.steps channel arrivals)
      (s'.steps channel (arrivals.filter (·.channel = channel))) := by
  induction arrivals generalizing s s' with
  | nil => exact h
  | cons a rest ih =>
    by_cases hown : a.channel = channel
    · rw [List.filter_cons_of_pos (by simpa using hown)]
      exact ih (h.step_own hown)
    · rw [List.filter_cons_of_neg (by simpa using hown)]
      exact ih (h.step_other hown)

theorem Follows.congr (h : Follows channel s') (halike : Alike channel s s') :
    Follows channel s := by
  have hnext : s.next = s'.next := by
    rw [next, halike.start_eq, halike.released_eq, next]
  obtain ⟨c, hget, hawaits⟩ := h.awaits
  refine ⟨⟨c, halike.get?_eq.trans hget, ?_⟩, ?_, ?_⟩
  · rwa [halike.taken_eq, hnext]
  · rw [halike.start_eq, halike.taken_eq, hnext]
    exact h.filled
  · rw [halike.released_eq, halike.start_eq, halike.taken_eq, hnext]
    exact h.released_eq

/-- **A message that is near enough**: what it brings out is what now follows. -/
theorem Follows.step (h : Follows channel s)
    (hnear : a.channel = channel → s.next ≤ a.place + Serial.half ∧ a.place < s.next + Serial.half) :
    Follows channel (s.step channel a) := by
  by_cases hown : a.channel = channel
  swap
  · exact h.congr (Alike.step_other ⟨rfl, rfl, rfl, rfl, rfl⟩ hown)
  by_cases haccepts : s.channels.accepts a.mark = true
  swap
  · rwa [step_of_not_accepted haccepts]
  subst hown
  obtain ⟨behind, ahead⟩ := hnear rfl
  simp only [Serial.half] at behind ahead
  obtain ⟨c, hget, hawaits⟩ := h.awaits
  rw [step_of_accepted hget haccepts, if_pos rfl]
  have hlength := lt_length_of_get? hget
  rcases Nat.lt_or_ge a.place s.next with hlate | hle
  · -- late: nothing comes out and nothing has changed
    have htake : c.takeOrdered a.mark.index a.payload = ([], c) :=
      Channel.takeOrdered_behind hawaits.standing hlate behind
    rw [htake, if_neg (Nat.not_le.2 hlate), List.append_nil]
    exact ⟨⟨c, by rw [get?_set hlength, if_pos rfl], hawaits⟩, h.filled, h.released_eq⟩
  · obtain ⟨next', hnext, hawaits', hfilled, hout⟩ := hawaits.take (x := a.payload) hle ahead
    have hout' : (c.takeOrdered a.mark.index a.payload).1
        = Channel.between (Channel.offer (s.taken.lookup ·) a.place a.payload) s.next next' := hout
    have hstart : s.start ≤ s.next := Nat.le_add_right _ _
    have hplace : s.start + (s.released ++ (c.takeOrdered a.mark.index a.payload).1).length
        = next' := by
      rw [hout', List.length_append, Channel.length_between hfilled, ← Nat.add_assoc]
      show s.next + _ = _
      omega
    rw [if_pos hle]
    refine ⟨⟨_, by rw [get?_set hlength, if_pos rfl], ?_⟩, ?_, ?_⟩
    · simp only [next, hplace, lookup_snoc]
      exact hawaits'
    · intro k h₁ h₂
      simp only [next, hplace] at h₁ h₂
      show ((s.taken ++ [(a.place, a.payload)]).lookup k).isSome
      rw [congrFun (lookup_snoc s.taken a.place a.payload) k]
      rcases Nat.lt_or_ge k s.next with hlt | hge
      · rw [Channel.offer_of_ne _ (by omega)]
        exact h.filled k h₁ hlt
      · exact hfilled k hge h₂
    · simp only [next, hplace, lookup_snoc]
      rw [hout', h.released_eq, ← Channel.between_append _ hstart hnext]
      refine congrArg (· ++ _) (Channel.between_congr fun k _ hk => ?_)
      rw [Channel.offer_of_ne _ (by omega)]

theorem Follows.steps (h : Follows channel s) (hnear : s.Near channel arrivals) :
    Follows channel (s.steps channel arrivals) := by
  induction arrivals generalizing s with
  | nil => exact h
  | cons a rest ih => exact ih (h.step hnear.1) hnear.2

/-- **What a channel brings out.** Whatever messages come, as long as those for the channel are
near to the place that it waits for at the time: what comes out has consecutive places from the
start on, each payload is the first that was taken in for its place, and of the place behind them
none was. The channel waits for that place, and all of this is the same without the messages for
other channels. -/
theorem consecutive_from_start {cs : Channels} {c : Channel} {start : Nat}
    (hget : cs.get? channel = some c) (hstart : c.nextOrdered = Serial.ofNat start)
    (hheld : c.held = ∅) (arrivals : List Arrival)
    (hnear : (⟨cs, start, [], []⟩ : Watched).Near channel arrivals) :
    let s := (⟨cs, start, [], []⟩ : Watched).steps channel arrivals
    let own := (⟨cs, start, [], []⟩ : Watched).steps channel
      (arrivals.filter (·.channel = channel))
    s.released.map some = (List.range' start s.released.length).map (s.taken.lookup ·) ∧
      s.taken.lookup (start + s.released.length) = none ∧
      (∃ c', s.channels.get? channel = some c' ∧
        c'.nextOrdered = Serial.ofNat (start + s.released.length)) ∧
      own.released = s.released ∧ own.taken = s.taken ∧
      own.channels.get? channel = s.channels.get? channel := by
  intro s own
  have h : Follows channel s := (follows_start hget hstart hheld).steps hnear
  have halike : Alike channel s own := Alike.steps ⟨rfl, rfl, rfl, rfl, rfl⟩
  have hs : s.start = start := start_steps
  obtain ⟨c', hget', hawaits⟩ := h.awaits
  have hnext : s.next = start + s.released.length := by rw [next, hs]
  refine ⟨?_, ?_, ⟨c', hget', ?_⟩, halike.released_eq.symm, halike.taken_eq.symm,
    halike.get?_eq.symm⟩
  · have hbetween := Channel.map_some_between h.filled
    rw [← h.released_eq, hnext, hs, Nat.add_sub_cancel_left] at hbetween
    exact hbetween
  · rw [← hnext]
    exact hawaits.missing
  · rw [← hnext]
    exact hawaits.standing

/-- Past the end of the counter: two messages are early, a copy of one of them comes, one is beyond
the window at first, and one is as late as can be. -/
theorem consecutive_from_start_wrapped :
    let c : Channel := ⟨Serial.ofNat 50331646, ∅, Serial.zero⟩
    let cs : Channels := ⟨[Channel.fresh, c], 4⟩
    let arrivals : List Arrival :=
      [⟨1, 50331648, [2]⟩, ⟨0, 0, [9]⟩, ⟨1, 50331647, [1]⟩, ⟨1, 50331648, [7]⟩, ⟨1, 50331650, [4]⟩,
        ⟨1, 50331646, [0]⟩, ⟨1, 41943041, [3]⟩, ⟨5, 50331649, [5]⟩, ⟨1, 50331650, [8]⟩]
    let s := (⟨cs, 50331646, [], []⟩ : Watched).steps 1 arrivals
    cs.get? 1 = some c ∧ (⟨cs, 50331646, [], []⟩ : Watched).Near 1 arrivals ∧
      s.released = [[0], [1], [2]] ∧ s.taken.lookup 50331650 = some [8] ∧
      s.released.map some = (List.range' 50331646 s.released.length).map (s.taken.lookup ·) ∧
      s.taken.lookup (50331646 + s.released.length) = none := by
  intro c cs arrivals s
  have hget : cs.get? 1 = some c := rfl
  have hnear : (⟨cs, 50331646, [], []⟩ : Watched).Near 1 arrivals := by decide +kernel
  obtain ⟨hreleased, hmissing, -⟩ := consecutive_from_start hget rfl rfl arrivals hnear
  exact ⟨hget, hnear, by decide +kernel, by decide +kernel, hreleased, hmissing⟩

end Watched

end Channels

end Receiver

end DatagramTransport

import DatagramTransport.Proofs.Arrival

/-!
# Hearing — what an acknowledgement vouches for

An acknowledgement vouches for a datagram: its reliable messages were taken in, or were before.
That a number is in the window of datagrams says less, because **the window slides over numbers
that never arrived, and over deferred ones that are then forgotten**. A copy of such a datagram
passes for a duplicate and is acknowledged without being looked at. It must be late for that: a
whole window behind the highest number that arrived.

The invariant says so: a number that the window has is settled, or deferred, or late.
-/

set_option autoImplicit false

namespace DatagramTransport

namespace Receiver

variable {settings : Settings} {ds : List Datagram} {d : Datagram} {r r' : Receiver} {n k : Nat}

/-- Every message in a datagram that has an index was registered. -/
def HasAll (r : Receiver) (d : Datagram) : Prop :=
  ∀ m ∈ d.messages, ∀ s ∈ m.index, r.Registered s.val

/-- The datagram with this number was sent, and is taken in. -/
def Settled (ds : List Datagram) (r : Receiver) (sequence : Serial) : Prop :=
  ∃ d ∈ ds, d.sequence = sequence ∧ r.HasAll d

/-- A number is a whole window behind the highest that arrived. -/
def Late (r : Receiver) (k : Nat) : Prop := k + r.windowSize < r.nextSequence.val

/-- Where the window of datagrams stands. -/
structure Listens (settings : Settings) (ds : List Datagram) (r : Receiver) : Prop where
  windowSize_eq : r.windowSize = settings.receiveWindow
  capacity_eq : r.datagrams.capacity = settings.receiveWindow
  window : r.datagrams.Within r.nextSequence.val
  next_le : r.nextSequence.val ≤ ds.length
  /-- The window has slid over everything that is late. -/
  behind : ∀ k, r.Late k → r.datagrams.Has k

/-- What having a number says about its datagram. -/
def Accounted (ds : List Datagram) (r : Receiver) (k : Nat) : Prop :=
  r.Late k ∨ Serial.ofNat k ∈ r.deferred ∨ Settled ds r (Serial.ofNat k)

/-- What the receiver knows about the datagrams of a sender. -/
structure Hears (settings : Settings) (ds : List Datagram) (r : Receiver) : Prop
    extends Listens settings ds r where
  accounted : ∀ k, r.datagrams.Has k → Accounted ds r k

theorem Settled.mono {ds' : List Datagram} {sequence : Serial} (h : Settled ds r sequence)
    (hds : ∀ d ∈ ds, d ∈ ds') (hr : ∀ k, r.Registered k → r'.Registered k) :
    Settled ds' r' sequence := by
  obtain ⟨d, hd, heq, hall⟩ := h
  exact ⟨d, hds d hd, heq, fun m hm s hs => hr _ (hall m hm s hs)⟩

theorem hears_fresh (settings : Settings) : Hears settings [] (Receiver.fresh settings) where
  windowSize_eq := rfl
  capacity_eq := rfl
  window := Window.within_fresh _
  next_le := Nat.le_refl 0
  behind := fun _ hk => absurd hk (Nat.not_lt_zero _)
  accounted := fun _ hk => absurd hk (Window.not_has_fresh _)

theorem Hears.append (h : Hears settings ds r) (more : List Datagram) :
    Hears settings (ds ++ more) r where
  windowSize_eq := h.windowSize_eq
  capacity_eq := h.capacity_eq
  window := h.window
  next_le := by
    rw [List.length_append]
    exact Nat.le_add_right_of_le h.next_le
  behind := h.behind
  accounted := fun k hk => (h.accounted k hk).imp_right fun hrest => hrest.imp_right fun hsettled =>
    hsettled.mono (fun _ => List.mem_append_left _) fun _ hj => hj

/-! ## What stays true

`Listens` reads the window of datagrams and the number behind the highest that arrived, and nothing
else; so it is carried over to any receiver that has these. A number that is accounted for can lose
this only through what was deferred: late it stays as the end of the window only moves on, and
settled it stays as nothing that was registered is ever forgotten. -/

theorem Listens.congr (h : Listens settings ds r) (hdatagrams : r'.datagrams = r.datagrams)
    (hsequence : r'.nextSequence = r.nextSequence) (hsize : r'.windowSize = r.windowSize) :
    Listens settings ds r' where
  windowSize_eq := by rw [hsize, h.windowSize_eq]
  capacity_eq := by rw [hdatagrams, h.capacity_eq]
  window := by
    rw [hdatagrams, hsequence]
    exact h.window
  next_le := by
    rw [hsequence]
    exact h.next_le
  behind := fun j hj => by
    rw [Late, hsize, hsequence] at hj
    rw [hdatagrams]
    exact h.behind j hj

theorem Accounted.mono (h : Accounted ds r k) (hsize : r'.windowSize = r.windowSize)
    (hnext : r.nextSequence.val ≤ r'.nextSequence.val)
    (hregistered : ∀ j, r.Registered j → r'.Registered j)
    (hdeferred : Serial.ofNat k ∈ r.deferred → Accounted ds r' k) : Accounted ds r' k := by
  rcases h with hlate | hmem | hsettled
  · refine Or.inl ?_
    unfold Late at hlate ⊢
    rw [hsize]
    omega
  · exact hdeferred hmem
  · exact Or.inr (Or.inr (hsettled.mono (fun _ hd => hd) hregistered))

theorem Accounted.alike (h : Accounted ds r k) (halike : r.Alike r')
    (hnext : r.nextSequence.val ≤ r'.nextSequence.val)
    (hdeferred : Serial.ofNat k ∈ r.deferred → Serial.ofNat k ∈ r'.deferred) :
    Accounted ds r' k := by
  refine h.mono halike.windowSize_eq hnext (fun j hj => ?_) fun hmem =>
    Or.inr (Or.inl (hdeferred hmem))
  rwa [Registered, halike.messages_eq]

/-- When another datagram is deferred, a number that was deferred is still remembered, or it is
late by now. -/
theorem Listens.remembers (h : Listens settings ds r) (hnext : r.nextSequence.val ≤ 8388608)
    (hhas : r.datagrams.Has k) (hother : Serial.ofNat k ≠ d.sequence)
    (hdeferred : Serial.ofNat k ∈ r.deferred) :
    r.Late k ∨ Serial.ofNat k ∈ r.deferred.filter fun s =>
      r.nextSequence.distanceFrom s ≤ r.windowSize && s != d.sequence := by
  have hbelow := h.window.below k hhas
  by_cases hfar : k + r.windowSize < r.nextSequence.val
  · exact Or.inl hfar
  · refine Or.inr (List.mem_filter.2 ⟨hdeferred, ?_⟩)
    have hdistance : r.nextSequence.distanceFrom (Serial.ofNat k) = r.nextSequence.val - k := by
      rw [← Serial.distanceFrom_ofNat_of_le (Nat.le_of_lt hbelow) (by omega), Serial.ofNat_val]
    rw [hdistance, Bool.and_eq_true, decide_eq_true_eq, bne_iff_ne]
    exact ⟨by omega, hother⟩

theorem ofNat_ne_sequence (hne : k ≠ d.sequence.val) (hk : k < 16777216) :
    Serial.ofNat k ≠ d.sequence := by
  intro heq
  rw [← heq, Serial.val_ofNat_of_lt hk] at hne
  exact hne rfl

/-! ## A datagram that is looked at

Its own number is deferred if there was no room for one of its messages, and settled otherwise. Of
the other numbers only those matter that were deferred before: the list of these is cut back to the
window when the datagram joins it. -/

/-- What became of a datagram that arrived. -/
inductive Verdict (ds : List Datagram) (d : Datagram) (r r' : Receiver) : Prop where
  /-- There was no room for one of its messages. -/
  | waits (acks : r'.pendingAcks = r.pendingAcks)
  /-- It is acknowledged, and it is taken in. -/
  | vouched (acks : r'.pendingAcks = d.sequence :: r.pendingAcks)
    (settled : Settled ds r' d.sequence)
  /-- It is late, and it is acknowledged without being looked at. -/
  | overlooked (acks : r'.pendingAcks = d.sequence :: r.pendingAcks)
    (late : r.Late d.sequence.val) (forgotten : d.sequence ∉ r.deferred)
    (same : r'.messages = r.messages)

/-- A datagram that is looked at is accounted for again, and so is every other one. -/
theorem Listens.unpack (h : Listens settings ds r) (hwithin : r.messages.Within n)
    (hn : n ≤ 8388608) (hd : d ∈ ds) (few : ds.length < 8388608)
    (hbelow : ∀ m ∈ d.messages, m.Below n)
    (hothers : ∀ j, j ≠ d.sequence.val → r.datagrams.Has j → Accounted ds r j) :
    Hears settings ds (r.unpack d).2 ∧
      ((r.unpack d).2.pendingAcks = r.pendingAcks ∨
        (r.unpack d).2.pendingAcks = d.sequence :: r.pendingAcks ∧
          Settled ds (r.unpack d).2 d.sequence) := by
  have hnext := h.next_le
  obtain ⟨-, hmono, htaken⟩ := registered_collect hwithin hn hbelow
  obtain ⟨r', heq, hmessages, -, -, hdatagrams, hsequence, hsize, hacks⟩ := unpack_eq d r
  rw [heq]
  have hlistens : Listens settings ds r' := h.congr hdatagrams hsequence hsize
  have hregistered : ∀ j, r'.Registered j
      ↔ (Stepwise.collect take d.messages r).2.Registered j := by
    intro j
    rw [Registered, Registered, hmessages]
  have hkept : ∀ j, r.Registered j → r'.Registered j := fun j hj =>
    (hregistered j).2 (hmono j hj)
  by_cases hany : (Stepwise.collect take d.messages r).1.any Intake.isDeferred = true
  · rw [if_pos hany] at hacks
    obtain ⟨hacks, hdeferred⟩ := hacks
    refine ⟨⟨hlistens, fun j hj => ?_⟩, Or.inl hacks⟩
    by_cases hself : j = d.sequence.val
    · refine Or.inr (Or.inl ?_)
      rw [hdeferred, hself, d.sequence.ofNat_val]
      exact List.mem_cons_self
    · rw [hdatagrams] at hj
      have hjlt := h.window.below j hj
      refine (hothers j hself hj).mono hsize (by rw [hsequence]) hkept fun hmem => ?_
      refine (h.remembers (by omega) hj (ofNat_ne_sequence hself (by omega)) hmem).imp
        (fun hlate => ?_) fun hmem' => Or.inl ?_
      · rwa [Late, hsize, hsequence]
      · rw [hdeferred]
        exact List.mem_cons_of_mem _ hmem'
  · rw [if_neg hany] at hacks
    obtain ⟨hacks, hdeferred⟩ := hacks
    have hsettled : Settled ds r' d.sequence := ⟨d, hd, rfl, fun m hm s hs =>
      (hregistered _).2 (htaken (by simpa using hany) m hm s hs)⟩
    refine ⟨⟨hlistens, fun j hj => ?_⟩, Or.inr ⟨hacks, hsettled⟩⟩
    by_cases hself : j = d.sequence.val
    · refine Or.inr (Or.inr ?_)
      rwa [hself, d.sequence.ofNat_val]
    · rw [hdatagrams] at hj
      refine (hothers j hself hj).mono hsize (by rw [hsequence]) hkept fun hmem => ?_
      exact Or.inr (Or.inl (by rwa [hdeferred]))

/-- A datagram is looked at by a receiver that collects messages as this one does. -/
theorem Listens.receive_of_unpack {r₀ : Receiver} (h : Listens settings ds r₀)
    (heq : r.receive d = r₀.unpack d) (halike : r.Alike r₀) (hwithin : r.messages.Within n)
    (hn : n ≤ 8388608) (few : ds.length < 8388608) (hd : d ∈ ds)
    (hbelow : ∀ m ∈ d.messages, m.Below n)
    (hothers : ∀ j, j ≠ d.sequence.val → r₀.datagrams.Has j → Accounted ds r₀ j) :
    Hears settings ds (r.receive d).2 ∧ Verdict ds d r (r.receive d).2 := by
  rw [← halike.messages_eq] at hwithin
  obtain ⟨hhears, hacks⟩ := h.unpack hwithin hn hd few hbelow hothers
  rw [halike.pendingAcks_eq] at hacks
  rw [heq]
  refine ⟨hhears, ?_⟩
  rcases hacks with hsame | ⟨hmore, hsettled⟩
  · exact .waits hsame
  · exact .vouched hmore hsettled

/-! ## The three kinds of arrival

A datagram that arrives is new, or a copy of one that was deferred, or a duplicate. Only a new one
moves the window: it is then as far as its number, and what it slides over is late. For the other
two the number was in the window before, and this stays where it is. -/

theorem val_nextAfter (hnext : r.nextSequence.val ≤ 8388608) (hk : k < 8388608) :
    (r.nextAfter (Serial.ofNat k)).val = max r.nextSequence.val (k + 1) := by
  have hreaches := Serial.eq_or_isAfter_ofNat (a := k) (b := r.nextSequence.val) (by omega)
    (by omega)
  rw [r.nextSequence.ofNat_val] at hreaches
  unfold nextAfter
  simp only [hreaches]
  split
  · rw [Serial.next_ofNat, Serial.val_ofNat_of_lt (by omega)]
    omega
  · omega

/-- What the number of a datagram does to the window of datagrams. -/
theorem Listens.slide (h : Listens settings ds r) (hpos : 0 < settings.receiveWindow)
    (few : ds.length < 8388608) (hlt : d.sequence.val < ds.length) :
    (r.datagrams.slide d.sequence).2.Within (max r.nextSequence.val (d.sequence.val + 1)) ∧
      ((r.datagrams.slide d.sequence).1 = true ↔ ¬r.datagrams.Has d.sequence.val) ∧
      ∀ j, (r.datagrams.slide d.sequence).2.Has j
        ↔ r.datagrams.Has j ∨ j = d.sequence.val ∨ j + r.windowSize ≤ d.sequence.val := by
  have hnext := h.next_le
  obtain ⟨hwithin, hnew, hhas⟩ := (h.window.mono (Nat.le_max_left _ (d.sequence.val + 1))).slide
    (k := d.sequence.val) (by omega) (by omega) (by rwa [h.capacity_eq])
  rw [d.sequence.ofNat_val] at hwithin hnew hhas
  rw [h.capacity_eq, ← h.windowSize_eq] at hhas
  exact ⟨hwithin, hnew, hhas⟩

/-- **A datagram with a new number is looked at**, and the numbers that the window slides over for
it are late from then on. -/
theorem Hears.receive_new (h : Hears settings ds r) (hpos : 0 < settings.receiveWindow)
    (hwithin : r.messages.Within n) (hn : n ≤ 8388608) (few : ds.length < 8388608) (hd : d ∈ ds)
    (hlt : d.sequence.val < ds.length) (hbelow : ∀ m ∈ d.messages, m.Below n)
    (hnew : (r.datagrams.slide d.sequence).1 = true) :
    Hears settings ds (r.receive d).2 ∧ Verdict ds d r (r.receive d).2 := by
  have hnextle := h.next_le
  obtain ⟨hslid, -, hhas⟩ := h.slide hpos few hlt
  obtain ⟨r₀, heq, halike, hdatagrams, hdeferred, hsequence⟩ := Receiver.receive_new hnew
  have hnext : r₀.nextSequence.val = max r.nextSequence.val (d.sequence.val + 1) := by
    rw [hsequence, ← val_nextAfter (by omega) (by omega), d.sequence.ofNat_val]
  rw [← hdatagrams] at hhas
  have hlistens : Listens settings ds r₀ :=
    { windowSize_eq := by rw [halike.windowSize_eq, h.windowSize_eq]
      capacity_eq := by rw [hdatagrams, Window.capacity_slide, h.capacity_eq]
      window := by rwa [hdatagrams, hnext]
      next_le := by omega
      behind := fun j hj => by
        rw [Late, halike.windowSize_eq, hnext] at hj
        rw [hhas]
        by_cases hlate : j + r.windowSize < r.nextSequence.val
        · exact Or.inl (h.behind j hlate)
        · exact Or.inr (Or.inr (by omega)) }
  refine hlistens.receive_of_unpack heq halike hwithin hn few hd hbelow fun j hother hj => ?_
  rcases (hhas j).1 hj with hbefore | hself | hpassed
  · exact (h.accounted j hbefore).alike halike (by omega) fun hmem => by rwa [hdeferred]
  · exact absurd hself hother
  · refine Or.inl ?_
    rw [Late, halike.windowSize_eq, hnext]
    omega

/-- A number that is not new was in the window, which stays where it is. -/
theorem Listens.stays {r₀ : Receiver} (h : Listens settings ds r)
    (hpos : 0 < settings.receiveWindow) (few : ds.length < 8388608)
    (hlt : d.sequence.val < ds.length) (hold : (r.datagrams.slide d.sequence).1 = false)
    (halike : r.Alike r₀) (hdatagrams : r₀.datagrams = (r.datagrams.slide d.sequence).2)
    (hsequence : r₀.nextSequence = r.nextSequence) :
    r.datagrams.Has d.sequence.val ∧ (∀ j, r₀.datagrams.Has j ↔ r.datagrams.Has j) ∧
      Listens settings ds r₀ := by
  obtain ⟨hslid, hnew, hhas⟩ := h.slide hpos few hlt
  have hself : r.datagrams.Has d.sequence.val := by
    by_contra hnot
    rw [hnew.2 hnot] at hold
    cases hold
  have hselflt := h.window.below _ hself
  have hsame : ∀ j, r₀.datagrams.Has j ↔ r.datagrams.Has j := by
    intro j
    rw [hdatagrams, hhas]
    refine ⟨fun hj => ?_, Or.inl⟩
    rcases hj with hbefore | rfl | hpassed
    · exact hbefore
    · exact hself
    · refine h.behind j ?_
      unfold Late
      omega
  rw [Nat.max_eq_left hselflt, ← hdatagrams, ← hsequence] at hslid
  refine ⟨hself, hsame, ⟨by rw [halike.windowSize_eq, h.windowSize_eq],
    by rw [hdatagrams, Window.capacity_slide, h.capacity_eq], hslid,
    by rw [hsequence]; exact h.next_le, fun j hj => ?_⟩⟩
  rw [Late, halike.windowSize_eq, hsequence] at hj
  exact (hsame j).2 (h.behind j hj)

/-- **A copy of a datagram that was deferred is looked at again.** -/
theorem Hears.receive_deferred (h : Hears settings ds r) (hpos : 0 < settings.receiveWindow)
    (hwithin : r.messages.Within n) (hn : n ≤ 8388608) (few : ds.length < 8388608) (hd : d ∈ ds)
    (hlt : d.sequence.val < ds.length) (hbelow : ∀ m ∈ d.messages, m.Below n)
    (hold : (r.datagrams.slide d.sequence).1 = false) (hdeferred : d.sequence ∈ r.deferred) :
    Hears settings ds (r.receive d).2 ∧ Verdict ds d r (r.receive d).2 := by
  have hnextle := h.next_le
  obtain ⟨r₀, heq, halike, hdatagrams, hremaining, hsequence⟩ :=
    Receiver.receive_deferred hold hdeferred
  obtain ⟨-, hsame, hlistens⟩ := h.stays hpos few hlt hold halike hdatagrams hsequence
  refine hlistens.receive_of_unpack heq halike hwithin hn few hd hbelow fun j hother hj => ?_
  rw [hsame] at hj
  have hjlt := h.window.below j hj
  refine (h.accounted j hj).alike halike (by rw [hsequence]) fun hmem => ?_
  rw [hremaining, List.mem_filter, bne_iff_ne]
  exact ⟨hmem, ofNat_ne_sequence hother (by omega)⟩

/-- **A duplicate is acknowledged for its number alone**: it is settled, or it is late. -/
theorem Hears.receive_duplicate (h : Hears settings ds r) (hpos : 0 < settings.receiveWindow)
    (few : ds.length < 8388608) (hlt : d.sequence.val < ds.length)
    (hold : (r.datagrams.slide d.sequence).1 = false) (hforgotten : d.sequence ∉ r.deferred) :
    Hears settings ds (r.receive d).2 ∧ Verdict ds d r (r.receive d).2 := by
  obtain ⟨r', heq, halike, hdatagrams, hremaining, hsequence⟩ :=
    Receiver.receive_duplicate hold hforgotten
  obtain ⟨hself, hsame, hlistens⟩ := h.stays hpos few hlt hold halike hdatagrams hsequence
  have hmessages : (r'.acknowledge d.sequence).messages = r.messages := halike.messages_eq
  have hacks : (r'.acknowledge d.sequence).pendingAcks = d.sequence :: r.pendingAcks := by
    rw [← halike.pendingAcks_eq]
    rfl
  have hregistered : ∀ j, r.Registered j → (r'.acknowledge d.sequence).Registered j := by
    intro j hj
    rwa [Registered, hmessages]
  rw [heq]
  refine ⟨⟨hlistens.congr rfl rfl rfl, fun j hj => ?_⟩, ?_⟩
  · refine (h.accounted j ((hsame j).1 hj)).mono halike.windowSize_eq
      (Nat.le_of_eq (congrArg _ hsequence.symm)) hregistered fun hmem => Or.inr (Or.inl ?_)
    exact hremaining.symm ▸ hmem
  · rcases h.accounted _ hself with hlate | hmem | hsettled
    · exact .overlooked hacks hlate hforgotten hmessages
    · rw [d.sequence.ofNat_val] at hmem
      exact absurd hmem hforgotten
    · rw [d.sequence.ofNat_val] at hsettled
      exact .vouched hacks (hsettled.mono (fun _ hd => hd) hregistered)

/-- **Every datagram that arrives is deferred, or acknowledged and taken in, or late.** -/
theorem Hears.receive (h : Hears settings ds r) (hpos : 0 < settings.receiveWindow)
    (hwithin : r.messages.Within n) (hn : n ≤ 8388608) (few : ds.length < 8388608) (hd : d ∈ ds)
    (hlt : d.sequence.val < ds.length) (hbelow : ∀ m ∈ d.messages, m.Below n) :
    Hears settings ds (r.receive d).2 ∧ Verdict ds d r (r.receive d).2 := by
  cases hslide : (r.datagrams.slide d.sequence).1 with
  | true => exact h.receive_new hpos hwithin hn few hd hlt hbelow hslide
  | false =>
    by_cases hdeferred : d.sequence ∈ r.deferred
    · exact h.receive_deferred hpos hwithin hn few hd hlt hbelow hslide hdeferred
    · exact h.receive_duplicate hpos few hlt hslide hdeferred

/-- What is late and was forgotten is acknowledged without being looked at. -/
theorem Hears.receive_late (h : Hears settings ds r) (hpos : 0 < settings.receiveWindow)
    (few : ds.length < 8388608) (hlate : r.Late d.sequence.val)
    (hforgotten : d.sequence ∉ r.deferred) :
    (r.receive d).2.pendingAcks = d.sequence :: r.pendingAcks ∧
      (r.receive d).2.messages = r.messages := by
  have hhas := h.behind _ hlate
  obtain ⟨-, hnew, -⟩ := h.slide hpos few
    (Nat.lt_of_lt_of_le (h.window.below _ hhas) h.next_le)
  have hold : (r.datagrams.slide d.sequence).1 = false := by
    rw [Bool.eq_false_iff]
    exact fun hslide => hnew.1 hslide hhas
  obtain ⟨r', heq, halike, -⟩ := Receiver.receive_duplicate hold hforgotten
  rw [heq]
  refine ⟨?_, halike.messages_eq⟩
  rw [← halike.pendingAcks_eq]
  rfl

end Receiver

end DatagramTransport

import DatagramTransport.Proofs.Conservation

/-!
# Progress — whether a receiver can take in what it lacks

A message can be turned away for three reasons: its index is beyond the window, its place is too far
ahead in the order of its channel, or its assembly does not fit. The first missing index is never
turned away for the first two, because all that it could wait for is complete. For the third it can:
the assemblies may all be taken, each by a parcel that waits for an index beyond the window.

**That takes a single assembly**. Of two open parcels one comes before the other, and what starts
inside of the window has all indexes before it inside as well.
-/

set_option autoImplicit false

namespace DatagramTransport

namespace Receiver

variable {settings : Settings} {ps done : List Parcel} {t : Tally} {out : List Delivery}
  {r : Receiver} {p q : Parcel} {m : Message} {i k : Nat}

/-! ## Room -/

/-- A message is not turned away if its index is in the window and it has room. -/
theorem isDeferred_take (hm : Manifest settings ps t) (h : Reception settings ps t done out r)
    (hp : p ∈ ps) (hr : p.isReliable = true) (hi : i < p.pieces.length)
    (hmissing : ¬ r.Registered (p.first + i))
    (hreach : p.first + i < r.messages.base.val + settings.receiveWindow)
    (hroom : r.hasRoom (p.message i p.pieces[i]) = true) :
    (r.take (p.message i p.pieces[i])).1.isDeferred = false := by
  have hfresh := (h.window.check_eq_fresh_iff hm.index_le (hm.index_lt hp hr hi)).2
    ⟨hmissing, by rwa [h.capacity_eq]⟩
  rw [take_fresh (Parcel.index_message hr i _) hfresh hroom]
  exact isDeferred_process _ _

/-- An ordered parcel has room in its channel if those a window before it are complete. -/
theorem Reception.accepts_of_done (hm : Manifest settings ps t)
    (h : Reception settings ps t done out r) (hp : p ∈ ps) (ho : p.isOrdered = true)
    (hall : ∀ q ∈ ps, q.isOrderedOn p.channel = true →
      q.place + settings.orderingWindow ≤ p.place → q ∈ done) :
    r.channels.accepts ⟨Serial.ofNat p.place, p.channel⟩ = true := by
  refine (h.yields.accepts_iff (hm.channel_lt p hp) (hm.place_lt hp ho)).2 fun j hj => ?_
  have hplace := (hm.laid.past p hp).place_lt ho
  obtain ⟨q, hq, hon, hqj⟩ := hm.laid.placed (c := p.channel) (k := j) (by omega)
  exact taken_isSome_iff.2 ⟨q, hall q hq hon (by omega), hon, hqj⟩

/-- A parcel of which something was taken in has room for all of it. -/
theorem Reception.hasRoom_of_open (hm : Manifest settings ps t)
    (h : Reception settings ps t done out r) (hp : p ∈ ps)
    (hopen : Assembler.Open p r.assembler.maxFragmentCount r.Registered) (i : Nat) (x : Octets) :
    r.hasRoom (p.message i x) = true := by
  have hr := Parcel.isReliable_of_isSplit hopen.isSplit
  refine hasRoom_iff.2 ⟨?_, fun ho => ?_⟩
  · obtain ⟨assembly, hget, -⟩ := h.collects.gathered p hp hopen
    have hmem : UInt16.ofNat p.cut ∈ r.assembler.assemblies := by
      rw [Std.TreeMap.mem_iff_isSome_getElem?, hget]
      rfl
    exact (h.collects.accepts_iff (Parcel.fragment_message hopen.isSplit i x) hr).2 (Or.inl hmem)
  · exact h.accepts_of_done hm hp ho (h.admitted p hp ho hopen.started)

/-- The parcel of the first missing index has room in its channel. -/
theorem Reception.accepts_at_base (hm : Manifest settings ps t)
    (h : Reception settings ps t done out r) (hvalid : settings.Valid)
    (hfits : settings.maxFragmentsPerSend ≤ settings.maxFragmentCount) (hp : p ∈ ps)
    (hfirst : p.first ≤ r.messages.base.val) (ho : p.isOrdered = true) :
    r.channels.accepts ⟨Serial.ofNat p.place, p.channel⟩ = true := by
  obtain ⟨-, hpos, -, -, hordering, -⟩ := hvalid.bounds
  refine h.accepts_of_done hm hp ho fun q hq hon hle => ?_
  have hself : p.isOrderedOn p.channel = true := Parcel.isOrderedOn_iff.2 ⟨ho, rfl⟩
  have hprecedes := hm.laid.precedes_of_place_lt hq hp hon hself (by omega)
  have hqr := Parcel.isReliable_of_isOrdered (Parcel.isOrderedOn_iff.1 hon).1
  have hstop := hprecedes.stop_le
  rw [Parcel.stop, Parcel.span_of_isReliable hqr] at hstop
  exact (h.mem_done_iff hm hpos hfits hq hqr).2 fun j hj => Window.has_of_lt_base (by omega)

/-! ## Assemblies -/

/-- A full assembler has an open parcel, and two of them if it has room for more than one. -/
theorem Reception.exists_open (h : Reception settings ps t done out r)
    (hfull : r.assembler.hasRoom = false) (hpos : 0 < settings.maxAssemblies) :
    ∃ q ∈ ps, Assembler.Open q r.assembler.maxFragmentCount r.Registered ∧
      (2 ≤ settings.maxAssemblies →
        ∃ q' ∈ ps, Assembler.Open q' r.assembler.maxFragmentCount r.Registered ∧ q ≠ q') := by
  have hsize : settings.maxAssemblies ≤ r.assembler.assemblies.keys.length := by
    rw [Std.TreeMap.length_keys, ← h.maxAssemblies_eq]
    simpa [Assembler.hasRoom] using hfull
  have hopen : ∀ id ∈ r.assembler.assemblies.keys, ∃ q ∈ ps,
      Assembler.Open q r.assembler.maxFragmentCount r.Registered ∧ id = UInt16.ofNat q.cut :=
    fun id hid => h.collects.only id (Std.TreeMap.mem_of_mem_keys hid)
  have hnodup : r.assembler.assemblies.keys.Nodup := Std.TreeMap.nodup_keys
  generalize r.assembler.assemblies.keys = ids at hsize hopen hnodup
  -- two entries have two numbers, and so they belong to two parcels
  match ids with
  | [] =>
    rw [List.length_nil] at hsize
    omega
  | id :: ids =>
    obtain ⟨q, hq, hqopen, rfl⟩ := hopen id List.mem_cons_self
    refine ⟨q, hq, hqopen, fun htwo => ?_⟩
    match ids with
    | [] =>
      rw [List.length_singleton] at hsize
      omega
    | id' :: ids =>
      obtain ⟨q', hq', hqopen', rfl⟩ := hopen id' (List.mem_cons_of_mem _ List.mem_cons_self)
      refine ⟨q', hq', hqopen', fun heq => ?_⟩
      rw [heq] at hnodup
      exact (List.nodup_cons.1 hnodup).1 List.mem_cons_self

theorem Reception.missing_of_precedes (h : Reception settings ps t done out r)
    (hopen : Assembler.Open p r.assembler.maxFragmentCount r.Registered)
    (hopen' : Assembler.Open q r.assembler.maxFragmentCount r.Registered)
    (hprecedes : p.Precedes q) : ∃ i < p.pieces.length, ¬ r.Registered (p.first + i) ∧
      p.first + i < r.messages.base.val + settings.receiveWindow := by
  obtain ⟨i, hi, hmissing⟩ := hopen.missing
  have hreach := (h.open_bounds hopen').2
  have hstop := hprecedes.stop_le
  rw [Parcel.stop, Parcel.span_of_isReliable (Parcel.isReliable_of_isSplit hopen.isSplit)] at hstop
  exact ⟨i, hi, hmissing, by omega⟩

/-- Beside an open parcel, a window of two leaves no place for a split one at its base that is not
open. -/
theorem Reception.open_of_narrow (hm : Manifest settings ps t)
    (h : Reception settings ps t done out r) (hnarrow : settings.receiveWindow ≤ 2)
    (hp : p ∈ ps) (hsplit : p.isSplit = true)
    (hfits : p.pieces.length ≤ r.assembler.maxFragmentCount)
    (hbase : p.first ≤ r.messages.base.val ∧ r.messages.base.val < p.stop) (hq : q ∈ ps)
    (hopen : Assembler.Open q r.assembler.maxFragmentCount r.Registered) :
    Assembler.Open p r.assembler.maxFragmentCount r.Registered := by
  have hstop : p.stop = p.first + p.pieces.length := by
    rw [Parcel.stop, Parcel.span_of_isReliable (Parcel.isReliable_of_isSplit hsplit)]
  have hspan := Parcel.two_le_span hsplit
  rw [Parcel.span_of_isReliable (Parcel.isReliable_of_isSplit hsplit)] at hspan
  have hbounds := h.open_bounds hopen
  have hmissing : ¬ r.Registered (p.first + (r.messages.base.val - p.first)) := by
    rw [Nat.add_sub_cancel' hbase.1]
    exact h.window.standing.not_holds_base
  rcases hm.laid.trichotomy hp hq with rfl | hpq | hqp
  · exact hopen
  · -- the other one starts behind it, so it has an index before the base
    have := hpq.stop_le
    exact ⟨hsplit, hfits, ⟨0, by omega, Window.has_of_lt_base (by omega)⟩,
      ⟨r.messages.base.val - p.first, by omega, hmissing⟩⟩
  · have := hqp.stop_le
    omega

def Admits (ps : List Parcel) (r : Receiver) : Prop :=
  ∃ p ∈ ps, p.isReliable = true ∧ ∃ (i : Nat) (hi : i < p.pieces.length),
    ¬ r.Registered (p.first + i) ∧ (r.take (p.message i p.pieces[i])).1.isDeferred = false

theorem Reception.admits_of_precedes (hm : Manifest settings ps t)
    (h : Reception settings ps t done out r) (hp : p ∈ ps)
    (hopen : Assembler.Open p r.assembler.maxFragmentCount r.Registered)
    (hopen' : Assembler.Open q r.assembler.maxFragmentCount r.Registered)
    (hprecedes : p.Precedes q) : r.Admits ps := by
  have hr := Parcel.isReliable_of_isSplit hopen.isSplit
  obtain ⟨i, hi, hnew, hreach⟩ := h.missing_of_precedes hopen hopen' hprecedes
  exact ⟨p, hp, hr, i, hi, hnew,
    isDeferred_take hm h hp hr hi hnew hreach (h.hasRoom_of_open hm hp hopen i _)⟩

/-- **With room for two assemblies, or without need of them, something that is missing can be taken
in.** -/
theorem Reception.admits (hm : Manifest settings ps t)
    (h : Reception settings ps t done out r) (hvalid : settings.Valid)
    (hfits : settings.maxFragmentsPerSend ≤ settings.maxFragmentCount)
    (hloose : 2 ≤ settings.maxAssemblies ∨ settings.receiveWindow ≤ 2 ∨
      settings.maxFragmentsPerSend ≤ 1) (hmissing : r.messages.base.val < t.index) :
    r.Admits ps := by
  obtain ⟨-, -, hassemblies, hwindow, -⟩ := hvalid.bounds
  obtain ⟨p, hp, hr, hfirst, hstop⟩ := hm.laid.covered hmissing
  rw [Parcel.stop, Parcel.span_of_isReliable hr] at hstop
  have hbase : p.first + (r.messages.base.val - p.first) = r.messages.base.val := by omega
  have hi : r.messages.base.val - p.first < p.pieces.length := by omega
  -- what is at the base can be taken in if its assembly fits
  have hself : r.assembler.accepts (p.message (r.messages.base.val - p.first)
      p.pieces[r.messages.base.val - p.first]) = true → r.Admits ps := by
    intro haccepts
    have hnew : ¬ r.Registered (p.first + (r.messages.base.val - p.first)) := by
      rw [hbase]
      exact h.window.standing.not_holds_base
    exact ⟨p, hp, hr, _, hi, hnew, isDeferred_take hm h hp hr hi hnew (by omega)
      (hasRoom_iff.2 ⟨haccepts, h.accepts_at_base hm hvalid hfits hp hfirst⟩)⟩
  by_cases hsplit : p.isSplit = true
  · by_cases hfull : r.assembler.hasRoom = false
    · obtain ⟨q, hq, hopen, hmore⟩ := h.exists_open hfull hassemblies
      rcases hloose with hmany | hnarrow | hwhole
      · obtain ⟨q', hq', hopen', hne⟩ := hmore hmany
        rcases hm.laid.trichotomy hq hq' with heq | hprecedes | hprecedes
        · exact absurd heq hne
        · exact h.admits_of_precedes hm hq hopen hopen' hprecedes
        · exact h.admits_of_precedes hm hq' hopen' hopen hprecedes
      · have hpopen := h.open_of_narrow hm hnarrow hp hsplit
          (by rw [h.maxFragmentCount_eq]; exact Nat.le_trans (hm.pieces_le p hp hsplit) hfits)
          ⟨hfirst, by rw [Parcel.stop, Parcel.span_of_isReliable hr]; exact hstop⟩ hq hopen
        exact hself (hasRoom_iff.1 (h.hasRoom_of_open hm hp hpopen _ _)).1
      · have hlength := Nat.le_trans (hm.pieces_le p hp hsplit) hwhole
        exact absurd (of_decide_eq_true hsplit) (Nat.not_lt_of_le hlength)
    · refine hself ((h.collects.accepts_iff (Parcel.fragment_message hsplit _ _) hr).2 (Or.inr ?_))
      simpa using hfull
  · exact hself (Assembler.accepts_of_not_fragment (if_neg hsplit))

end Receiver

namespace Exchange

variable {settings : Settings} {mtu mtu' : UInt16} {w : Exchange} {m : Message}
  {ps done : List Parcel} {t : Tally}

/-- The reliable messages that were made of accepted payloads and are not registered. -/
def lacking (w : Exchange) : List Message :=
  w.created.filter fun m => m.reliability.isReliable && !w.hasTaken m

def Admits (w : Exchange) (m : Message) : Prop := (w.target.receiver.take m).1.isDeferred = false

/-- Nothing that is missing can come in. That takes payloads in more fragments than are put
together, or a single assembly, or more splits than there are fragment numbers. -/
structure Wedged (settings : Settings) (w : Exchange) : Prop where
  tight : settings.maxFragmentCount < settings.maxFragmentsPerSend ∨
    (settings.maxAssemblies = 1 ∧ 3 ≤ settings.receiveWindow ∧
      2 ≤ settings.maxFragmentsPerSend) ∨
    (131071 < settings.receiveWindow ∧ 65536 < w.splits)
  /-- What is missing inside of the window waits for an assembly or for its channel. -/
  stalled : ∀ m ∈ w.lacking, (m.index.all fun s => w.target.receiver.messages.check s = .fresh) →
    w.target.receiver.hasRoom m = false

theorem mem_lacking : m ∈ w.lacking
    ↔ m ∈ w.created ∧ m.reliability.isReliable = true ∧ w.hasTaken m = false := by
  simp [lacking]

/-- What is missing is turned away if it is beyond the window or has no room, and only then. -/
theorem Ledger.admits_iff (h : Ledger settings ps t w) (hm : m ∈ w.lacking) : w.Admits m
    ↔ (m.index.all fun s => w.target.receiver.messages.check s = .fresh) = true ∧
      w.target.receiver.hasRoom m = true := by
  obtain ⟨hcreated, hr, hmissing⟩ := mem_lacking.1 hm
  obtain ⟨s, hs⟩ := h.exists_index hcreated hr
  rw [Option.mem_def] at hs
  have hnot : w.target.receiver.messages.check s ≠ .duplicate := by
    simpa [hasTaken, Receiver.hasTaken, hs] using hmissing
  simp only [hs, Option.all_some, decide_eq_true_eq, Admits]
  by_cases hroom : w.target.receiver.messages.check s = .fresh ∧ w.target.receiver.hasRoom m = true
  · rw [Receiver.take_fresh hs hroom.1 hroom.2]
    exact iff_of_true (Receiver.isDeferred_process _ _) hroom
  · rw [Receiver.take_deferred hs hnot hroom]
    exact iff_of_false Bool.noConfusion hroom

theorem Account.admits (h : Account settings ps t done w)
    (hadmits : w.target.receiver.Admits ps) : ∃ m ∈ w.lacking, w.Admits m := by
  obtain ⟨p, hp, hr, i, hi, hnew, hadmits⟩ := hadmits
  refine ⟨_, mem_lacking.2 ⟨h.mem_created hp hi, hr, ?_⟩, hadmits⟩
  rw [Bool.eq_false_iff]
  exact fun htaken => hnew ((h.hasTaken_message_iff hp hr hi).1 htaken)

/-- What is missing has an index at or behind the base of the window. -/
theorem Ledger.base_lt (h : Ledger settings ps t w) (hm : m ∈ w.lacking) :
    w.target.receiver.messages.base.val < t.index := by
  obtain ⟨hcreated, hr, hmissing⟩ := mem_lacking.1 hm
  rw [h.created_eq] at hcreated
  obtain ⟨p, hp, hmem⟩ := List.mem_flatMap.1 hcreated
  obtain ⟨i, hi, rfl⟩ := Parcel.mem_messages.1 hmem
  have hlt := h.manifest.index_lt hp hr hi
  by_contra hbase
  have htaken := (h.hasTaken_message_iff hp hr hi).2 (Receiver.Window.has_of_lt_base (by omega))
  rw [hmissing] at htaken
  cases htaken

/-- **Something that is missing can come in next, unless the exchange is wedged.** -/
theorem exists_admits_iff_not_wedged (hvalid : settings.Valid) (hmtu : settings.minMtu ≤ mtu)
    (run : Run settings mtu mtu' Carried w) (few : w.created.length < Serial.half)
    (hlacking : w.lacking ≠ []) : (∃ m ∈ w.lacking, w.Admits m) ↔ ¬ Wedged settings w := by
  obtain ⟨ps, t, hledger⟩ := run.ledger hvalid hmtu few
  constructor
  · rintro ⟨m, hm, hadmits⟩ hwedged
    obtain ⟨hinside, hroom⟩ := (hledger.admits_iff hm).1 hadmits
    rw [hwedged.stalled m hm hinside] at hroom
    cases hroom
  · intro hnot
    by_contra hnone
    -- if nothing can come in, all that is inside of the window lacks room
    have hstalled : ∀ m ∈ w.lacking,
        (m.index.all fun s => w.target.receiver.messages.check s = .fresh) →
          w.target.receiver.hasRoom m = false := by
      intro m hm hinside
      rw [Bool.eq_false_iff]
      exact fun hroom => hnone ⟨m, hm, (hledger.admits_iff hm).2 ⟨hinside, hroom⟩⟩
    have hloose := mt (fun htight => (⟨htight, hstalled⟩ : Wedged settings w)) hnot
    simp only [not_or, not_and, Nat.not_lt] at hloose
    obtain ⟨hfits, hassemblies, hspaced⟩ := hloose
    obtain ⟨ps, t, done, h⟩ := run.account hvalid hmtu
      ⟨few, (Nat.lt_or_ge 131071 settings.receiveWindow).symm.imp id hspaced⟩
    obtain ⟨m, hm⟩ := List.exists_mem_of_ne_nil _ hlacking
    have hpos := hvalid.bounds.2.2.1
    refine hnone (h.admits (h.reception.admits h.manifest hvalid hfits ?_ (h.base_lt hm)))
    omega

/-- A single assembly and a window of three. The first split payload is lost and the first fragment
of the second one comes, which leaves one index of it beyond the window. -/
def straddled : Exchange :=
  let sent := (fresh { maxAssemblies := 1, receiveWindow := 3 } 400 400).after
    [.submit .reliable 0 (List.replicate 500 1), .submit .reliable 0 (List.replicate 500 2),
      .transmit 0 9]
  sent.after ((sent.datagrams.drop 2).map .arrive)

/-- Not even two fragments are put together. The payload before the last one on its channel is
never complete. -/
def overlong : Exchange :=
  let sent := (fresh { maxFragmentCount := 1, orderingWindow := 1 } 400 400).after
    [.submit .reliableOrdered 0 (List.replicate 500 1), .submit .reliableOrdered 0 [2],
      .transmit 0 9]
  sent.after (sent.datagrams.map .arrive)

theorem run_straddled :
    Run { maxAssemblies := 1, receiveWindow := 3 } 400 400 Carried straddled :=
  (Run.start.follow (by decide +kernel)).follow (by decide +kernel)

theorem run_overlong :
    Run { maxFragmentCount := 1, orderingWindow := 1 } 400 400 Carried overlong :=
  (Run.start.follow (by decide +kernel)).follow (by decide +kernel)

theorem not_admits_straddled_overlong :
    (straddled.lacking.length = 3 ∧ ¬ ∃ m ∈ straddled.lacking, straddled.Admits m) ∧
      (overlong.lacking.length = 1 ∧ ¬ ∃ m ∈ overlong.lacking, overlong.Admits m) := by
  refine ⟨⟨by decide +kernel, fun hadmits => ?_⟩, ⟨by decide +kernel, fun hadmits => ?_⟩⟩
  · exact (exists_admits_iff_not_wedged (by decide) (by decide) run_straddled
      (by decide +kernel) (by decide +kernel)).1 hadmits
      ⟨Or.inr (Or.inl (by decide)), by decide +kernel⟩
  · exact (exists_admits_iff_not_wedged (by decide) (by decide) run_overlong
      (by decide +kernel) (by decide +kernel)).1 hadmits
      ⟨Or.inl (by decide), by decide +kernel⟩

end Exchange

end DatagramTransport

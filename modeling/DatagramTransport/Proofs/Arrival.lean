import DatagramTransport.Proofs.Reception

/-!
# Arrivals — a datagram with all its messages

A datagram is more than its messages in one respect: it is acknowledged as a whole. **A datagram
whose messages are looked at is acknowledged exactly if none of them was deferred, and then every
reliable one among them was taken in**. What is not looked at is another matter, and nothing is
said about it here.
-/

set_option autoImplicit false

namespace DatagramTransport

namespace Receiver

variable {settings : Settings} {ps done : List Parcel} {t : Tally} {out : List Delivery}
  {r : Receiver} {m : Message} {ms : List Message} {n : Nat}

def hasTaken (r : Receiver) (m : Message) : Bool :=
  m.index.any fun s => r.messages.check s = .duplicate

theorem hasTaken_iff (hwithin : r.messages.Within n) (hn : n ≤ 8388608) (hm : m.Below n) :
    r.hasTaken m = true ↔ ∃ s ∈ m.index, r.Registered s.val := by
  simp only [hasTaken, Option.any_eq_true, decide_eq_true_eq]
  refine exists_congr fun s => and_congr_right fun hs => ?_
  have := hwithin.check_eq_duplicate_iff hn (hm s hs)
  rwa [Serial.ofNat_val] at this

/-! ## One message -/

theorem isDeferred_process (m : Message) (r : Receiver) : (r.process m).1.isDeferred = false := by
  unfold process
  simp only
  split
  · rfl
  · rfl
  · split <;> rfl

theorem take_of_index_eq_none (hindex : m.index = none) (r : Receiver) :
    r.take m = r.process m := by
  simp only [take, admission, register, hindex]

/-- A message that is not deferred is registered, if it has an index, and what was registered
remains so. -/
theorem registered_take (hwithin : r.messages.Within n) (hn : n ≤ 8388608) (hm : m.Below n) :
    (r.take m).2.messages.Within n ∧ (∀ k, r.Registered k → (r.take m).2.Registered k) ∧
      ((r.take m).1.isDeferred = false → ∀ s ∈ m.index, (r.take m).2.Registered s.val) := by
  unfold Registered
  cases hindex : m.index with
  | none =>
    obtain ⟨_, _, hprocess⟩ := process_frame m r
    rw [take_of_index_eq_none hindex, hprocess]
    exact ⟨hwithin, fun _ hk => hk, fun _ s hs => by cases hs⟩
  | some s =>
    have hs : s.val < n := hm s hindex
    by_cases hduplicate : r.messages.check s = .duplicate
    · rw [take_duplicate hindex hduplicate]
      refine ⟨hwithin, fun _ hk => hk, fun _ s' hs' => ?_⟩
      rw [Option.mem_some_iff] at hs'
      rw [← s.ofNat_val, hwithin.check_eq_duplicate_iff hn hs] at hduplicate
      rwa [← hs']
    · by_cases hadmitted : r.messages.check s = .fresh ∧ r.hasRoom m = true
      · obtain ⟨_, _, hprocess⟩ :=
          process_frame m { r with messages := (r.messages.insert s).2 }
        rw [take_fresh hindex hadmitted.1 hadmitted.2, hprocess]
        have hfresh := hadmitted.1
        rw [← s.ofNat_val] at hfresh
        obtain ⟨hwithin', -, hhas⟩ := hwithin.insert hn hs hfresh
        rw [s.ofNat_val] at hwithin' hhas
        refine ⟨hwithin', fun k hk => (hhas k).2 (Or.inl hk), fun _ s' hs' => ?_⟩
        rw [Option.mem_some_iff] at hs'
        exact (hhas _).2 (Or.inr (by rw [hs']))
      · rw [take_deferred hindex hduplicate hadmitted]
        exact ⟨hwithin, fun _ hk => hk, fun hnot => by cases hnot⟩

/-! ## All messages of a datagram -/

theorem collect_frame (ms : List Message) (r : Receiver) : ∃ messages assembler channels,
    (Stepwise.collect take ms r).2
      = { r with messages := messages, assembler := assembler, channels := channels } := by
  induction ms generalizing r with
  | nil => exact ⟨r.messages, r.assembler, r.channels, rfl⟩
  | cons m ms ih =>
    obtain ⟨_, _, _, htake⟩ := take_frame m r
    obtain ⟨messages, assembler, channels, hcollect⟩ := ih (r.take m).2
    rw [Stepwise.collect_cons]
    exact ⟨messages, assembler, channels, by rw [hcollect, htake]⟩

theorem registered_collect (hwithin : r.messages.Within n) (hn : n ≤ 8388608)
    (hms : ∀ m ∈ ms, m.Below n) :
    (Stepwise.collect take ms r).2.messages.Within n ∧
      (∀ k, r.Registered k → (Stepwise.collect take ms r).2.Registered k) ∧
      ((Stepwise.collect take ms r).1.any Intake.isDeferred = false →
        ∀ m ∈ ms, ∀ s ∈ m.index, (Stepwise.collect take ms r).2.Registered s.val) := by
  induction ms generalizing r with
  | nil => exact ⟨hwithin, fun _ hk => hk, fun _ m hm => by cases hm⟩
  | cons m ms ih =>
    obtain ⟨hwithin, hmono, htaken⟩ := registered_take hwithin hn (hms m List.mem_cons_self)
    obtain ⟨hwithin, hmono', htaken'⟩ := ih hwithin fun m' hm' =>
      hms m' (List.mem_cons_of_mem m hm')
    rw [Stepwise.collect_cons]
    refine ⟨hwithin, fun k hk => hmono' k (hmono k hk), fun hany m' hm' s hs => ?_⟩
    rw [List.any_cons, Bool.or_eq_false_iff] at hany
    rcases List.mem_cons.1 hm' with rfl | hm'
    · exact hmono' _ (htaken hany.1 s hs)
    · exact htaken' hany.2 m' hm' s hs

theorem Reception.collect (hm : Manifest settings ps t)
    (spaced : settings.receiveWindow ≤ 131071 ∨ t.cuts ≤ 65536)
    (hpos : 0 < settings.maxFragmentCount) (h : Reception settings ps t done out r)
    (hms : ∀ m ∈ ms, m ∈ Laid.created ps) :
    ∃ done', Reception settings ps t done'
      (out ++ (Stepwise.collect Receiver.take ms r).1.flatMap Intake.deliveries)
      (Stepwise.collect Receiver.take ms r).2 := by
  induction ms generalizing r done out with
  | nil => exact ⟨done, by simpa using h⟩
  | cons m ms ih =>
    obtain ⟨p, hp, hmem⟩ := List.mem_flatMap.1 (hms m List.mem_cons_self)
    obtain ⟨i, hi, rfl⟩ := Parcel.mem_messages.1 hmem
    obtain ⟨done₁, htake⟩ := h.take hm spaced hpos hp hi
    obtain ⟨done₂, hcollect⟩ := ih htake fun m' hm' => hms m' (List.mem_cons_of_mem _ hm')
    rw [Stepwise.collect_cons, List.flatMap_cons, ← List.append_assoc]
    exact ⟨done₂, hcollect⟩

/-! ## Which branch a datagram takes -/

/-- The receivers collect messages in the same, and acknowledge the same. -/
structure Alike (r r' : Receiver) : Prop where
  messages_eq : r'.messages = r.messages
  assembler_eq : r'.assembler = r.assembler
  channels_eq : r'.channels = r.channels
  pendingAcks_eq : r'.pendingAcks = r.pendingAcks
  windowSize_eq : r'.windowSize = r.windowSize

theorem Alike.register {r' : Receiver} (h : r.Alike r') (m : Message) :
    (r.register m).Alike (r'.register m) := by
  unfold Receiver.register
  cases m.index with
  | none => exact h
  | some s =>
    exact ⟨congrArg (fun w => (Window.insert s w).2) h.messages_eq, h.assembler_eq, h.channels_eq,
      h.pendingAcks_eq, h.windowSize_eq⟩

theorem Alike.process {r' : Receiver} (h : r.Alike r') (m : Message) :
    (r'.process m).1 = (r.process m).1 ∧ (r.process m).2.Alike (r'.process m).2 := by
  obtain ⟨hmessages, hassembler, hchannels, hacks, hsize⟩ := h
  unfold Receiver.process
  simp only [hassembler, hchannels]
  generalize r.assembler.take m = taken
  obtain ⟨cause | _ | whole, assembler⟩ := taken
  · exact ⟨rfl, hmessages, rfl, rfl, hacks, hsize⟩
  · exact ⟨rfl, hmessages, rfl, rfl, hacks, hsize⟩
  · simp only
    cases release whole r.channels with
    | error cause => exact ⟨rfl, hmessages, rfl, rfl, hacks, hsize⟩
    | ok result => exact ⟨rfl, hmessages, rfl, rfl, hacks, hsize⟩

/-- **A message is the same to receivers that are alike.** -/
theorem Alike.take {r' : Receiver} (h : r.Alike r') (m : Message) :
    (r'.take m).1 = (r.take m).1 ∧ (r.take m).2.Alike (r'.take m).2 := by
  have hadmission : r'.admission m = r.admission m := by
    unfold admission hasRoom
    rw [h.messages_eq, h.assembler_eq, h.channels_eq]
  unfold Receiver.take
  rw [hadmission]
  cases r.admission m with
  | duplicate | beyond => exact ⟨rfl, h⟩
  | fresh => exact (h.register m).process m

def nextAfter (sequence : Serial) (r : Receiver) : Serial :=
  if sequence = r.nextSequence ∨ sequence.isAfter r.nextSequence then sequence.next
  else r.nextSequence

theorem receive_new {d : Datagram} (hnew : (r.datagrams.slide d.sequence).1 = true) :
    ∃ r₀, r.receive d = r₀.unpack d ∧ r.Alike r₀ ∧
      r₀.datagrams = (r.datagrams.slide d.sequence).2 ∧ r₀.deferred = r.deferred ∧
      r₀.nextSequence = r.nextAfter d.sequence := by
  unfold receive
  simp only [hnew, if_true]
  refine ⟨_, rfl, ?_⟩
  unfold advance nextAfter
  split <;> exact ⟨⟨rfl, rfl, rfl, rfl, rfl⟩, rfl, rfl, rfl⟩

theorem receive_deferred {d : Datagram} (hold : (r.datagrams.slide d.sequence).1 = false)
    (hdeferred : d.sequence ∈ r.deferred) :
    ∃ r₀, r.receive d = r₀.unpack d ∧ r.Alike r₀ ∧
      r₀.datagrams = (r.datagrams.slide d.sequence).2 ∧
      r₀.deferred = r.deferred.filter (· != d.sequence) ∧ r₀.nextSequence = r.nextSequence := by
  unfold receive
  simp only [hold, Bool.false_eq_true, if_false, List.contains_iff_mem, hdeferred, if_true]
  exact ⟨_, rfl, ⟨rfl, rfl, rfl, rfl, rfl⟩, rfl, rfl, rfl⟩

theorem receive_duplicate {d : Datagram} (hold : (r.datagrams.slide d.sequence).1 = false)
    (hdeferred : d.sequence ∉ r.deferred) :
    ∃ r', r.receive d = ([], r'.acknowledge d.sequence) ∧ r.Alike r' ∧
      r'.datagrams = (r.datagrams.slide d.sequence).2 ∧ r'.deferred = r.deferred ∧
      r'.nextSequence = r.nextSequence := by
  unfold receive
  simp only [hold, Bool.false_eq_true, if_false, List.contains_iff_mem, hdeferred]
  exact ⟨_, rfl, ⟨rfl, rfl, rfl, rfl, rfl⟩, rfl, rfl, rfl⟩

/-- A datagram that is looked at is acknowledged or deferred as a whole. -/
theorem unpack_eq (d : Datagram) (r : Receiver) : ∃ r', r.unpack d
      = ((Stepwise.collect take d.messages r).1.flatMap Intake.deliveries, r') ∧
    r'.messages = (Stepwise.collect take d.messages r).2.messages ∧
    r'.assembler = (Stepwise.collect take d.messages r).2.assembler ∧
    r'.channels = (Stepwise.collect take d.messages r).2.channels ∧
    r'.datagrams = r.datagrams ∧ r'.nextSequence = r.nextSequence ∧
    r'.windowSize = r.windowSize ∧
    if (Stepwise.collect take d.messages r).1.any Intake.isDeferred = true then
      r'.pendingAcks = r.pendingAcks ∧
        r'.deferred = d.sequence :: r.deferred.filter fun s =>
          r.nextSequence.distanceFrom s ≤ r.windowSize && s != d.sequence
    else r'.pendingAcks = d.sequence :: r.pendingAcks ∧ r'.deferred = r.deferred := by
  obtain ⟨messages, assembler, channels, hframe⟩ := collect_frame d.messages r
  unfold unpack
  generalize Stepwise.collect take d.messages r = collected at hframe
  obtain ⟨intakes, r₁⟩ := collected
  simp only at hframe
  subst hframe
  refine ⟨_, rfl, ?_⟩
  by_cases hany : intakes.any Intake.isDeferred = true
  · simp only [hany, if_true]
    exact ⟨rfl, rfl, rfl, rfl, rfl, rfl, rfl, rfl⟩
  · simp only [hany, if_false, Bool.false_eq_true]
    exact ⟨rfl, rfl, rfl, rfl, rfl, rfl, rfl, rfl⟩

/-- A datagram is looked at, or it is acknowledged for its number alone. -/
theorem receive_cases (d : Datagram) (r : Receiver) :
    (∃ r₀, r.receive d = r₀.unpack d ∧ r.Alike r₀ ∧
        (r₀.nextSequence = r.nextSequence ∨ r₀.nextSequence = r.nextAfter d.sequence)) ∨
      ∃ r', r.receive d = ([], r'.acknowledge d.sequence) ∧ r.Alike r' ∧
        r'.nextSequence = r.nextSequence := by
  cases hslide : (r.datagrams.slide d.sequence).1 with
  | true =>
    obtain ⟨r₀, heq, halike, -, -, hsequence⟩ := receive_new hslide
    exact Or.inl ⟨r₀, heq, halike, Or.inr hsequence⟩
  | false =>
    by_cases hdeferred : d.sequence ∈ r.deferred
    · obtain ⟨r₀, heq, halike, -, -, hsequence⟩ := receive_deferred hslide hdeferred
      exact Or.inl ⟨r₀, heq, halike, Or.inl hsequence⟩
    · obtain ⟨r', heq, halike, -, -, hsequence⟩ := receive_duplicate hslide hdeferred
      exact Or.inr ⟨r', heq, halike, hsequence⟩

theorem nextSequence_receive (d : Datagram) (r : Receiver) :
    (r.receive d).2.nextSequence = r.nextSequence ∨
      (r.receive d).2.nextSequence = d.sequence.next := by
  rcases receive_cases d r with ⟨r₀, heq, -, hsequence⟩ | ⟨r', heq, -, hsequence⟩
  · obtain ⟨r', hunpack, -, -, -, -, hsame, -⟩ := unpack_eq d r₀
    rw [heq, hunpack, hsame]
    refine hsequence.elim Or.inl fun hafter => ?_
    rw [hafter, nextAfter]
    split
    · exact Or.inr rfl
    · exact Or.inl rfl
  · rw [heq]
    exact Or.inl hsequence

theorem registered_receive {d : Datagram} (hwithin : r.messages.Within n) (hn : n ≤ 8388608)
    (hd : ∀ m ∈ d.messages, m.Below n) :
    (r.receive d).2.messages.Within n ∧
      ∀ k, r.Registered k → (r.receive d).2.Registered k := by
  unfold Registered
  rcases receive_cases d r with ⟨r₀, heq, halike, -⟩ | ⟨r', heq, halike, -⟩
  · rw [← halike.messages_eq] at hwithin ⊢
    obtain ⟨hwithin', hmono, -⟩ := registered_collect hwithin hn hd
    obtain ⟨r', hunpack, hmessages, -⟩ := unpack_eq d r₀
    rw [heq, hunpack, hmessages]
    exact ⟨hwithin', hmono⟩
  · rw [heq]
    unfold acknowledge
    rw [halike.messages_eq]
    exact ⟨hwithin, fun k hk => hk⟩

/-- **Whatever datagram of the sender arrives, it leaves the receiver in step.** -/
theorem Reception.receive (hm : Manifest settings ps t)
    (spaced : settings.receiveWindow ≤ 131071 ∨ t.cuts ≤ 65536)
    (hpos : 0 < settings.maxFragmentCount) (h : Reception settings ps t done out r)
    {d : Datagram} (hd : ∀ m ∈ d.messages, m ∈ Laid.created ps) :
    ∃ done', Reception settings ps t done' (out ++ (r.receive d).1) (r.receive d).2 := by
  rcases receive_cases d r with ⟨r₀, heq, halike, -⟩ | ⟨r', heq, halike, -⟩
  · have h₀ := h.congr halike.messages_eq halike.assembler_eq halike.channels_eq
    obtain ⟨done', hcollect⟩ := h₀.collect hm spaced hpos hd
    obtain ⟨r', hunpack, hmessages, hassembler, hchannels, -⟩ := unpack_eq d r₀
    rw [heq, hunpack]
    exact ⟨done', hcollect.congr hmessages hassembler hchannels⟩
  · rw [heq, List.append_nil]
    exact ⟨done, h.congr halike.messages_eq halike.assembler_eq halike.channels_eq⟩

end Receiver

end DatagramTransport

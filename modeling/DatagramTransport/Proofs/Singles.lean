import DatagramTransport.Proofs.Completion

/-!
# Singles — datagrams with one message each

When each datagram has one message and both go by the same number, the two windows of a receiver
remember the same numbers. **A new number is taken in if there is room for its message and nothing
is missing a whole window behind it**, so that what becomes of the assembler and of the channels can
be followed from one arrival to the next.
-/

set_option autoImplicit false

namespace DatagramTransport

namespace Receiver

variable {settings : Settings} {has : Nat → Prop} {r : Receiver} {k : Nat} {m : Message}

/-- What becomes of the message of a new datagram is all that a receiver has to do with it. -/
theorem receive_single {s : Serial} {m : Message} (hnew : (r.datagrams.slide s).1 = true) :
    (r.receive ⟨s, [m]⟩).1 = (r.take m).1.deliveries ∧
      (r.receive ⟨s, [m]⟩).2.datagrams = (r.datagrams.slide s).2 ∧
      (r.receive ⟨s, [m]⟩).2.messages = (r.take m).2.messages ∧
      (r.receive ⟨s, [m]⟩).2.assembler = (r.take m).2.assembler ∧
      (r.receive ⟨s, [m]⟩).2.channels = (r.take m).2.channels ∧
      (r.receive ⟨s, [m]⟩).2.malformedMessages
        = r.malformedMessages + [(r.take m).1].countP Intake.isMalformed := by
  obtain ⟨r₀, heq, halike, hdatagrams, hmalformed⟩ : ∃ r₀, r.receive ⟨s, [m]⟩ = r₀.unpack ⟨s, [m]⟩ ∧
      r.Alike r₀ ∧ r₀.datagrams = (r.datagrams.slide s).2 ∧
      r₀.malformedMessages = r.malformedMessages := by
    unfold receive
    simp only [hnew, if_true]
    refine ⟨_, rfl, ?_⟩
    unfold advance
    split <;> exact ⟨⟨rfl, rfl, rfl, rfl, rfl⟩, rfl, rfl⟩
  obtain ⟨hintake, hthen⟩ := halike.take m
  obtain ⟨_, _, _, hframe⟩ := take_frame m r₀
  have hdatagrams' : (r₀.take m).2.datagrams = (r.datagrams.slide s).2 := by rw [hframe, hdatagrams]
  have hmalformed' : (r₀.take m).2.malformedMessages = r.malformedMessages := by
    rw [hframe, hmalformed]
  rw [heq]
  unfold unpack
  simp only [Stepwise.collect_cons, Stepwise.collect_nil, hintake, List.flatMap_singleton]
  split <;> exact ⟨trivial, hdatagrams', hthen.messages_eq, hthen.assembler_eq,
    hthen.channels_eq, congrArg (· + _) hmalformed'⟩

/-- Of the datagrams and of the messages, which have the same numbers, these came. -/
structure Knows (settings : Settings) (has : Nat → Prop) (r : Receiver) : Prop where
  datagrams : r.datagrams.Within 8388608
  datagrams_has : ∀ k, r.datagrams.Has k ↔ has k
  datagrams_capacity : r.datagrams.capacity = settings.receiveWindow
  messages : r.messages.Within 8388608
  messages_has : ∀ k, r.messages.Has k ↔ has k
  messages_capacity : r.messages.capacity = settings.receiveWindow

theorem knows_fresh (settings : Settings) : (fresh settings).Knows settings fun _ => False where
  datagrams := Window.within_fresh _
  datagrams_has := fun _ => iff_false_intro (Window.not_has_fresh _)
  datagrams_capacity := rfl
  messages := Window.within_fresh _
  messages_has := fun _ => iff_false_intro (Window.not_has_fresh _)
  messages_capacity := rfl

theorem hasRoom_of_order_eq_none (horder : m.order = none)
    (haccepts : r.assembler.accepts m = true) : r.hasRoom m = true := by
  rw [hasRoom, haccepts, horder]
  rfl

/-- What is new is taken in if there is room and nothing is missing a whole window behind it. -/
theorem Knows.admission (h : r.Knows settings has) (hk : k < 8388608) (hnew : ¬ has k)
    (hnear : ∀ j, j + settings.receiveWindow ≤ k → has j) (hindex : m.index = some (Serial.ofNat k))
    (hroom : r.hasRoom m = true) : r.admission m = .fresh := by
  have hreach : k < r.messages.base.val + r.messages.capacity := by
    by_contra hnot
    -- the window stands at a number that is missing
    refine h.messages.standing.not_holds_base ((h.messages_has _).2 (hnear _ ?_))
    rw [← h.messages_capacity]
    omega
  have hcheck : r.messages.check (Serial.ofNat k) = .fresh :=
    (h.messages.check_eq_fresh_iff (Nat.le_refl _) hk).2
      ⟨fun hhas => hnew ((h.messages_has k).1 hhas), hreach⟩
  exact (admission_eq_fresh_iff hindex).2 ⟨hcheck, hroom⟩

theorem Knows.slides (h : r.Knows settings has) (hpos : 0 < settings.receiveWindow)
    (hk : k < 8388608) (hnew : ¬ has k) : (r.datagrams.slide (Serial.ofNat k)).1 = true := by
  obtain ⟨-, hslide, -⟩ := h.datagrams.slide (Nat.le_refl _) hk (by rwa [h.datagrams_capacity])
  exact hslide.2 fun hold => hnew ((h.datagrams_has k).1 hold)

theorem Knows.receive (h : r.Knows settings has) (hpos : 0 < settings.receiveWindow)
    (hk : k < 8388608) (hnew : ¬ has k) (hnear : ∀ j, j + settings.receiveWindow ≤ k → has j)
    (hindex : m.index = some (Serial.ofNat k)) (hroom : r.hasRoom m = true) :
    (r.receive ⟨Serial.ofNat k, [m]⟩).2.Knows settings (fun j => has j ∨ j = k) ∧
      (r.receive ⟨Serial.ofNat k, [m]⟩).2.assembler = (r.assembler.take m).2 ∧
      (r.receive ⟨Serial.ofNat k, [m]⟩).2.channels = (r.take m).2.channels := by
  obtain ⟨hwithin, -, hhas⟩ :=
    h.datagrams.slide (Nat.le_refl _) hk (by rwa [h.datagrams_capacity])
  obtain ⟨-, hdatagrams, hmessages, hassembler, hchannels, -⟩ :=
    receive_single (m := m) (h.slides hpos hk hnew)
  have hadmission := h.admission hk hnew hnear hindex hroom
  obtain ⟨htake, htake'⟩ := take_of_admission hadmission
  have hregister : (r.register m).messages = (r.messages.insert (Serial.ofNat k)).2 := by
    simp only [register, hindex]
  rw [htake, hregister] at hmessages
  rw [htake'] at hassembler
  obtain ⟨hwithin', -, hhas'⟩ :=
    h.messages.insert (Nat.le_refl _) hk ((admission_eq_fresh_iff hindex).1 hadmission).1
  refine ⟨⟨?_, fun j => ?_, ?_, ?_, fun j => ?_, ?_⟩, hassembler, hchannels⟩
  · rw [hdatagrams]
    exact hwithin
  · rw [hdatagrams, hhas, h.datagrams_has, h.datagrams_capacity]
    constructor
    · rintro (hj | hj | hj)
      · exact Or.inl hj
      · exact Or.inr hj
      · exact Or.inl (hnear j hj)
    · exact fun hj => hj.imp_right Or.inl
  · rw [hdatagrams, Window.capacity_slide, h.datagrams_capacity]
  · rw [hmessages]
    exact hwithin'
  · rw [hmessages, hhas', h.messages_has]
  · rw [hmessages, Window.capacity_insert, h.messages_capacity]

end Receiver

end DatagramTransport

import DatagramTransport.Proofs.Bounds
import DatagramTransport.Proofs.Decoding
import DatagramTransport.Proofs.Singles

/-!
# Misjudgement — how far ahead an ordered message is held

Places in an order come round, so one that is half a turn ahead or more is taken for a late one. A
late message is not turned away, and when it is complete it is dropped. A first fragment is kept
until the others are there, and by then the next message may have moved up: what was half a turn
ahead is less than that now. Nobody asks again how far ahead it is, since only the fragment that
came last is looked at. **So the message is held, as far ahead as places go**, however narrow the
window.

This takes a message of two fragments or more and a peer that skips half of all places, as one that
numbers its messages one by one never does. Where no first fragment is misjudged, what is held is
within the window, as long as the messages that came do not go half round.
-/

set_option autoImplicit false

namespace DatagramTransport

namespace Receiver

/-! ## How far a channel can have moved -/

namespace Channel

variable {c : Channel} {n : Nat}

theorem drain_count {next : Serial} {held : Std.TreeMap Serial Octets}
    (h : next.val + held.size ≤ n) (hn : n < 16777216) :
    next.val ≤ (drain next held).2.1.val ∧
      (drain next held).2.1.val + (drain next held).2.2.size ≤ n := by
  unfold drain
  generalize ([] : List Octets) = payloads
  fun_induction drainOnto payloads next held with
  | case1 payloads next held hnone => exact ⟨Nat.le_refl _, h⟩
  | case2 payloads next held payload hsome ih =>
    have hmem : next ∈ held := Std.TreeMap.mem_iff_isSome_getElem?.2 (by rw [hsome]; rfl)
    have hsize : (held.erase next).size = held.size - 1 := by
      rw [Std.TreeMap.size_erase, if_pos (Std.TreeMap.contains_iff_mem.2 hmem)]
    have hpos : held.size ≠ 0 := fun hzero =>
      Std.TreeMap.not_mem_of_isEmpty (by rw [Std.TreeMap.isEmpty_eq_size_eq_zero, hzero]; rfl) hmem
    have hnext := Serial.val_next next
    rw [Nat.mod_eq_of_lt (by omega)] at hnext
    obtain ⟨hle, hcount⟩ := ih (by omega)
    exact ⟨by omega, hcount⟩

/-- A message moves the channel forward, and by no more than what it brings out. -/
theorem takeOrdered_count (h : c.nextOrdered.val + c.held.size ≤ n) (hn : n < 16777215)
    (index : Serial) (payload : Octets) :
    c.nextOrdered.val ≤ (c.takeOrdered index payload).2.nextOrdered.val ∧
      (c.takeOrdered index payload).2.nextOrdered.val
        + (c.takeOrdered index payload).2.held.size ≤ n + 1 := by
  unfold Channel.takeOrdered
  simp only
  split
  · exact ⟨Nat.le_refl _, Nat.le_succ_of_le h⟩
  · split
    · have hsize : (c.held.insertIfNew index payload).size ≤ c.held.size + 1 :=
        Std.TreeMap.size_insertIfNew_le
      exact ⟨Nat.le_refl _, by simp only; omega⟩
    · have hnext := Serial.val_next c.nextOrdered
      rw [Nat.mod_eq_of_lt (by omega)] at hnext
      obtain ⟨hle, hcount⟩ := drain_count (n := n + 1)
        (show c.nextOrdered.next.val + c.held.size ≤ n + 1 by omega) (by omega)
      exact ⟨Nat.le_trans (by omega) hle, hcount⟩

end Channel

namespace Channels

variable {cs cs' : Channels} {n window : Nat} {m : Message}

/-- Not more messages than these went into any channel. -/
def Fed (cs : Channels) (n : Nat) : Prop :=
  ∀ (channel : UInt8) (c : Channel), cs.get? channel = some c →
    c.nextOrdered.val + c.held.size ≤ n

/-- Every channel is where it was or has moved forward. -/
def Advances (cs cs' : Channels) : Prop :=
  ∀ (channel : UInt8) (c' : Channel), cs'.get? channel = some c' →
    ∃ c, cs.get? channel = some c ∧ c.nextOrdered.val ≤ c'.nextOrdered.val

theorem Advances.refl (cs : Channels) : cs.Advances cs :=
  fun _ c hget => ⟨c, hget, Nat.le_refl _⟩

theorem fed_fresh (count window : Nat) : (fresh count window).Fed 0 := by
  intro channel c hget
  rw [get?_fresh hget]
  exact Nat.le_refl _

theorem Fed.mono {n' : Nat} (h : cs.Fed n) (hle : n ≤ n') : cs.Fed n' :=
  fun channel c hget => Nat.le_trans (h channel c hget) hle

theorem Fed.release {deliveries : List Delivery} (h : cs.Fed n) (hn : n < 16777215)
    (hrelease : Receiver.release m cs = .ok (deliveries, cs')) :
    cs'.window = cs.window ∧ cs'.Fed (n + 1) ∧ cs.Advances cs' := by
  rcases release_cases hrelease with ⟨rfl, -⟩ | ⟨order, -, c, hget, hcase⟩
  · exact ⟨rfl, h.mono (Nat.le_succ n), Advances.refl cs'⟩
  · -- one channel may have changed, and did not go back
    have hset : ∀ c' : Channel, c.nextOrdered.val ≤ c'.nextOrdered.val →
        c'.nextOrdered.val + c'.held.size ≤ n + 1 →
          (cs.set order.channel c').Fed (n + 1) ∧ cs.Advances (cs.set order.channel c') := by
      intro c' hle hcount
      refine ⟨fun channel c'' hget' => ?_, fun channel c'' hget' => ?_⟩
      · rcases get?_set_eq_some hget' with ⟨-, rfl⟩ | hold
        · exact hcount
        · exact Nat.le_succ_of_le (h channel c'' hold)
      · rcases get?_set_eq_some hget' with ⟨rfl, rfl⟩ | hold
        · exact ⟨c, hget, hle⟩
        · exact ⟨c'', hold, Nat.le_refl _⟩
    have hfed := h order.channel c hget
    rcases hcase with ⟨-, rfl, -⟩ | ⟨rfl, -⟩
    · obtain ⟨hle, hcount⟩ := Channel.takeOrdered_count hfed hn order.index m.payload
      exact ⟨rfl, hset _ hle hcount⟩
    · obtain ⟨hnext, hheld⟩ := c.takeSequenced_eq order.index
      refine ⟨rfl, hset _ (Nat.le_of_eq (by rw [hnext])) ?_⟩
      rw [hnext, hheld]
      exact Nat.le_succ_of_le hfed

end Channels

/-! ## First fragments -/

/-- An ordered message is before the end of the window, by a number that does not come round. -/
def IsNear (cs : Channels) (window : Nat) (m : Message) : Prop :=
  m.reliability.isOrdered = true → ∀ order ∈ m.order, ∀ c, cs.get? order.channel = some c →
    order.index.val < c.nextOrdered.val + window

variable {settings : Settings} {r r' : Receiver} {m : Message} {window n : Nat}

theorem IsNear.advance {cs cs' : Channels} (h : IsNear cs window m) (hadvances : cs.Advances cs') :
    IsNear cs' window m := by
  intro hordered order horder c' hget'
  obtain ⟨c, hget, hle⟩ := hadvances order.channel c' hget'
  have := h hordered order horder c hget
  omega

/-- The message is the first fragment of an ordered one that is half a turn ahead or more. It is
taken for late, and it is kept. -/
structure Misjudges (r : Receiver) (m : Message) : Prop where
  admission : r.admission m = .fresh
  kept : (r.assembler.take m).1 = .ok none
  first : ∃ mark ∈ m.fragment, mark.index = 0
  ordered : m.reliability.isOrdered = true
  ahead : ∃ order ∈ m.order, ∃ c, r.channels.get? order.channel = some c ∧
    c.nextOrdered.val + Serial.half ≤ order.index.val

/-- What is held on the channels, and what will be, is within the window. -/
structure Paced (r : Receiver) (window n : Nat) : Prop where
  window_eq : r.channels.window = window
  fed : r.channels.Fed n
  held : r.channels.HeldWithin window
  heads : r.assembler.Every fun assembly => ∀ head ∈ assembly.head, IsNear r.channels window head

theorem paced_fresh (settings : Settings) : (fresh settings).Paced settings.orderingWindow 0 where
  window_eq := rfl
  fed := Channels.fed_fresh _ _
  held := Channels.heldWithin_fresh _ _ _
  heads := Assembler.every_fresh _ _ _

theorem Paced.mono {n' : Nat} (h : r.Paced window n) (hle : n ≤ n') : r.Paced window n' :=
  ⟨h.window_eq, h.fed.mono hle, h.held, h.heads⟩

theorem Paced.congr (h : r.Paced window n) (hassembler : r'.assembler = r.assembler)
    (hchannels : r'.channels = r.channels) : r'.Paced window n := by
  obtain ⟨hwindow, hfed, hheld, hheads⟩ := h
  rw [← hchannels] at hwindow hfed hheld hheads
  rw [← hassembler] at hheads
  exact ⟨hwindow, hfed, hheld, hheads⟩

/-- What is ordered and was let in is within the window or late, or seems to be late. -/
theorem accepted_of_admission (hm : m.WellFormed) (hordered : m.reliability.isOrdered = true)
    (hadmission : r.admission m = .fresh) :
    ∀ order ∈ m.order, ∀ c, r.channels.get? order.channel = some c →
      8388608 ≤ order.index.distanceFrom c.nextOrdered ∨
        order.index.distanceFrom c.nextOrdered < r.channels.window := by
  intro order horder c hget
  obtain ⟨s, hindex⟩ := Option.isSome_iff_exists.1 (hm.index_isSome hordered)
  obtain ⟨-, hroom⟩ := (admission_eq_fresh_iff hindex).1 hadmission
  rw [hasRoom, Option.mem_def.1 horder, Bool.and_eq_true] at hroom
  have haccepts := hroom.2
  simp only [hordered, Bool.not_true, Bool.false_or, Channels.accepts, hget, Bool.or_eq_true,
    decide_eq_true_eq] at haccepts
  exact haccepts

theorem Paced.near (h : r.Paced window n) (hn : n < 8388608) (hm : m.WellFormed)
    (hadmission : r.admission m = .fresh)
    (hahead : ∀ order ∈ m.order, ∀ c, r.channels.get? order.channel = some c →
      m.reliability.isOrdered = true → order.index.val < c.nextOrdered.val + 8388608) :
    IsNear r.channels window m := by
  intro hordered order horder c hget
  have hfed := h.fed order.channel c hget
  have hindex := order.index.isLt
  have hahead := hahead order horder c hget hordered
  have haccepted := accepted_of_admission hm hordered hadmission order horder c hget
  rw [h.window_eq, Serial.distanceFrom] at haccepted
  omega

/-- What is kept as a first fragment is near, unless it is misjudged. -/
theorem Paced.heads_take (h : r.Paced window n) (hn : n < 8388608) (hm : m.WellFormed)
    (hadmission : r.admission m = .fresh) (hjudged : ¬ r.Misjudges m) :
    (r.assembler.take m).2.Every fun assembly =>
      ∀ head ∈ assembly.head, IsNear r.channels window head := by
  refine h.heads.take fun mark hmark assembly joins _ hkept head hhead => ?_
  rcases joins.mem_head_put hhead with ⟨hfirst, rfl⟩ | ⟨hget, hold⟩
  · have hnear : IsNear r.channels window m := by
      refine h.near hn hm hadmission fun order horder c hget hordered => ?_
      by_contra hfar
      exact hjudged ⟨hadmission, hkept, ⟨mark, hmark, hfirst⟩, hordered, order, horder, c, hget,
        Nat.le_of_not_lt hfar⟩
    exact hnear
  · exact h.heads mark.id assembly hget head hold

/-- What is complete is as far ahead as what came, or as its first fragment. -/
theorem Paced.complete_within (h : r.Paced window n) (hn : n < 8388608) (hm : m.WellFormed)
    {whole : Message} (hwhole : r.completed? m = some whole) :
    whole.reliability.isOrdered = true → ∀ order ∈ whole.order, ∀ c,
      r.channels.get? order.channel = some c →
        order.index.distanceFrom c.nextOrdered < 8388608 →
          order.index.distanceFrom c.nextOrdered < window := by
  intro hordered order horder c hget hless
  obtain ⟨hadmission, hcomplete⟩ := completed?_eq_some_iff.1 hwhole
  have hcame : whole.reliability = m.reliability → whole.order = m.order →
      order.index.distanceFrom c.nextOrdered < window := by
    intro hreliability hsame
    rw [hreliability] at hordered
    rw [hsame] at horder
    have := accepted_of_admission hm hordered hadmission order horder c hget
    have := h.window_eq
    omega
  rcases Assembler.take_eq_ok_some hcomplete with ⟨-, rfl⟩ | ⟨mark, -, assembly, joins, hmessage⟩
  · exact hcame rfl rfl
  · obtain ⟨head, hhead, rfl⟩ := Option.map_eq_some_iff.1 hmessage
    rcases joins.mem_head_put hhead with ⟨-, rfl⟩ | ⟨hthere, hold⟩
    · exact hcame rfl rfl
    · have hnear := h.heads mark.id assembly hthere head hold hordered order horder c hget
      have hcount := h.fed order.channel c hget
      have hindex := order.index.isLt
      rw [Serial.distanceFrom] at hless ⊢
      omega

/-- **A message that is not misjudged leaves everything within the window.** -/
theorem Paced.take (h : r.Paced window n) (hn : n < 8388608) (hm : m.WellFormed)
    (hjudged : ¬ r.Misjudges m) : (r.take m).2.Paced window (n + 1) := by
  cases hadmission : r.admission m with
  | duplicate | beyond =>
    have hsame : (r.take m).2 = r := by rw [Receiver.take, hadmission]
    rw [hsame]
    exact h.mono (Nat.le_succ n)
  | fresh =>
    have hheads := h.heads_take hn hm hadmission hjudged
    have hassembler := (take_of_admission hadmission).2
    rw [← hassembler] at hheads
    rcases take_cases m r with ⟨-, hchannels⟩ | ⟨whole, hwhole, hrelease⟩
    · have hsame : r.channels = (r.take m).2.channels := hchannels.symm
      obtain ⟨hwindow, hfed, hheld, -⟩ := h
      rw [hsame] at hwindow hfed hheld hheads
      exact ⟨hwindow, hfed.mono (Nat.le_succ n), hheld, hheads⟩
    · obtain ⟨hwindow, hfed, hadvances⟩ := h.fed.release (by omega) hrelease
      exact ⟨hwindow.trans h.window_eq, hfed,
        h.held.release hrelease (h.complete_within hn hm hwhole),
        fun id assembly hget head hhead =>
          (hheads id assembly hget head hhead).advance hadvances⟩

/-! ## Datagrams -/

/-- None of the messages is misjudged, one after the other. -/
def Judges : List Message → Receiver → Prop
  | [], _ => True
  | m :: ms, r => ¬ r.Misjudges m ∧ Judges ms (r.take m).2

/-- None of the messages in the datagrams is misjudged, one datagram after the other. -/
def JudgesAll : List Datagram → Receiver → Prop
  | [], _ => True
  | d :: ds, r => Judges d.messages r ∧ JudgesAll ds (r.receive d).2

theorem Alike.misjudges (h : r.Alike r') (hmisjudges : r'.Misjudges m) : r.Misjudges m := by
  obtain ⟨hadmission, hkept, hfirst, hordered, hahead⟩ := hmisjudges
  unfold Receiver.admission hasRoom at hadmission
  rw [h.messages_eq, h.assembler_eq, h.channels_eq] at hadmission
  rw [h.assembler_eq] at hkept
  rw [h.channels_eq] at hahead
  exact ⟨hadmission, hkept, hfirst, hordered, hahead⟩

theorem Judges.alike {ms : List Message} (h : Judges ms r) (halike : r.Alike r') :
    Judges ms r' := by
  induction ms generalizing r r' with
  | nil => exact trivial
  | cons m ms ih =>
    exact ⟨fun hmisjudges => h.1 (halike.misjudges hmisjudges), ih h.2 (halike.take m).2⟩

theorem Paced.collect {ms : List Message} (h : r.Paced window n)
    (hn : n + ms.length ≤ 8388608) (hms : ∀ m ∈ ms, m.WellFormed) (hjudges : Judges ms r) :
    (Stepwise.collect Receiver.take ms r).2.Paced window (n + ms.length) := by
  induction ms generalizing r n with
  | nil => exact h
  | cons m ms ih =>
    rw [List.length_cons] at hn ⊢
    have htake := h.take (by omega) (hms m List.mem_cons_self) hjudges.1
    have hrest := ih htake (by omega) (fun m' hm' => hms m' (List.mem_cons_of_mem m hm')) hjudges.2
    rw [Stepwise.collect_cons]
    exact hrest.mono (by omega)

theorem Paced.receive {d : Datagram} (h : r.Paced window n) (hn : n + d.messages.length ≤ 8388608)
    (hd : ∀ m ∈ d.messages, m.WellFormed) (hjudges : Judges d.messages r) :
    (r.receive d).2.Paced window (n + d.messages.length) := by
  rcases receive_cases d r with ⟨r₀, heq, halike, -⟩ | ⟨r', heq, halike, -⟩
  · have h₀ := h.congr halike.assembler_eq halike.channels_eq
    obtain ⟨r', hunpack, -, hassembler, hchannels, -⟩ := unpack_eq d r₀
    rw [heq, hunpack]
    exact (h₀.collect hn hd (hjudges.alike halike)).congr hassembler hchannels
  · have hsame : (r'.acknowledge d.sequence).Paced window n :=
      h.congr halike.assembler_eq halike.channels_eq
    rw [heq]
    exact hsame.mono (Nat.le_add_right _ _)

theorem Paced.after {ds : List Datagram} (h : r.Paced window n)
    (hn : n + (ds.flatMap Datagram.messages).length ≤ 8388608) (hds : ∀ d ∈ ds, d.Decoded)
    (hjudges : JudgesAll ds r) :
    (r.after ds).Paced window (n + (ds.flatMap Datagram.messages).length) := by
  induction ds generalizing r n with
  | nil => exact h
  | cons d ds ih =>
    rw [List.flatMap_cons, List.length_append] at hn ⊢
    have hreceive :=
      h.receive (by omega) (hds d List.mem_cons_self).wellFormed hjudges.1
    have hrest := ih hreceive (by omega) (fun d' hd' => hds d' (List.mem_cons_of_mem d hd'))
      hjudges.2
    exact hrest.mono (by omega)

/-! ## Where there are no fragments to keep -/

namespace Assembler

/-- A message of one fragment is complete at once. -/
theorem Bounded.take_ne_ok_none {a : Assembler} {assemblies : Nat} (h : a.Bounded 1 assemblies)
    (m : Message) : (a.take m).1 ≠ .ok none := by
  -- there is nothing between an empty assembly and a complete one
  have hnone : ∀ assembly : Assembly, ¬ assembly.Proper 1 := by
    intro assembly hproper
    have := hproper.count_le
    have := hproper.size_pos
    have := hproper.size_lt
    omega
  intro hkept
  unfold Assembler.take at hkept
  cases hmark : m.fragment with
  | none =>
    rw [hmark] at hkept
    cases hkept
  | some mark =>
    have htakes := takes_takeFragment a m mark
    simp only [hmark] at hkept
    generalize a.takeFragment m mark = taken at htakes hkept
    obtain ⟨result, a'⟩ := taken
    cases htakes with
    | refused => cases hkept
    | @repeated assembly there => exact hnone assembly (h.proper mark.id assembly there)
    | @completed assembly a' joins =>
      have hlt := UInt32.lt_iff_toNat_lt.1 joins.index_lt
      have hle := joins.count_le
      rw [h.maxFragmentCount_eq] at hle
      have hzero : mark.index = 0 := UInt32.toNat_inj.1 (by rw [UInt32.toNat_zero]; omega)
      simp only [Assembly.message?, Assembly.put, hzero, if_true] at hkept
      cases hkept
    | @kept assembly a₁ a' joins incomplete =>
      refine hnone _ (h.maxFragmentCount_eq ▸ joins.proper (fun hget => ?_) incomplete)
      rw [h.maxFragmentCount_eq]
      exact h.proper mark.id assembly hget

end Assembler

theorem Contained.judges (h : r.Contained settings) (hone : settings.maxFragmentCount = 1)
    (ms : List Message) : Judges ms r := by
  induction ms generalizing r with
  | nil => exact trivial
  | cons m ms ih =>
    refine ⟨fun hmisjudges => ?_, ih (h.take m)⟩
    have hbounded := h.assembler
    rw [hone] at hbounded
    exact hbounded.take_ne_ok_none m hmisjudges.kept

theorem Contained.judgesAll (h : r.Contained settings) (hone : settings.maxFragmentCount = 1)
    (ds : List Datagram) : JudgesAll ds r := by
  induction ds generalizing r with
  | nil => exact trivial
  | cons d ds ih => exact ⟨h.judges hone d.messages, ih (h.receive d)⟩

/-! ## A peer that skips half of all places -/

/-- The first fragment of a message that is half a turn ahead. -/
def farHead : Message :=
  ⟨.reliableOrdered, some (Serial.ofNat 0), some ⟨Serial.ofNat 8388608, 0⟩, some ⟨2, 0, 0⟩, [0xaa]⟩

/-- The message that comes next. -/
def nextWhole : Message :=
  ⟨.reliableOrdered, some (Serial.ofNat 1), some ⟨Serial.ofNat 0, 0⟩, none, [0x00]⟩

/-- The other fragment, which says that its message comes next. -/
def nearTail : Message :=
  ⟨.reliableOrdered, some (Serial.ofNat 2), some ⟨Serial.ofNat 1, 0⟩, some ⟨2, 0, 1⟩, [0xbb]⟩

def skipping : List Datagram :=
  [⟨Serial.ofNat 0, [farHead]⟩, ⟨Serial.ofNat 1, [nextWhole]⟩, ⟨Serial.ofNat 2, [nearTail]⟩]

theorem decoded_skipping : ∀ d ∈ skipping, d.Decoded := by
  have hhead : Datagram.Decoded ⟨Serial.ofNat 0, [farHead]⟩ :=
    ⟨[0x84, 0, 0, 0, 0x70, 0, 8, 0, 0, 0, 0, 0, 0x80, 0, 0, 0, 0, 2, 0, 0, 0, 0, 0, 0, 0xaa], [],
      by decide +kernel⟩
  have hwhole : Datagram.Decoded ⟨Serial.ofNat 1, [nextWhole]⟩ :=
    ⟨[0x84, 1, 0, 0, 0x60, 0, 8, 1, 0, 0, 0, 0, 0, 0, 0], [], by decide +kernel⟩
  have htail : Datagram.Decoded ⟨Serial.ofNat 2, [nearTail]⟩ :=
    ⟨[0x84, 2, 0, 0, 0x70, 0, 8, 2, 0, 0, 1, 0, 0, 0, 0, 0, 0, 2, 0, 0, 0, 0, 0, 1, 0xbb], [],
      by decide +kernel⟩
  simp only [skipping, List.forall_mem_cons, List.not_mem_nil, false_implies, implies_true,
    and_true]
  exact ⟨hhead, hwhole, htail⟩

/-- So many datagrams came, with one message each, and left this behind. -/
structure Stage (settings : Settings) (n : Nat) (a : Assembler) (cs : Channels) (r : Receiver) :
    Prop where
  knows : r.Knows settings (· < n)
  assembler_eq : r.assembler = a
  channels_eq : r.channels = cs

variable {a a' : Assembler} {cs cs' : Channels} {order : OrderMark}

theorem stage_fresh (settings : Settings) :
    Stage settings 0 (Assembler.fresh settings.maxFragmentCount settings.maxAssemblies)
      (Channels.fresh settings.orderChannels settings.orderingWindow) (fresh settings) where
  knows := by
    have hnone : (· < 0) = fun _ : Nat => False :=
      funext fun k => eq_false (Nat.not_lt_zero k)
    rw [hnone]
    exact knows_fresh settings
  assembler_eq := rfl
  channels_eq := rfl

theorem Stage.receive (h : Stage settings n a cs r) (hpos : 0 < settings.receiveWindow)
    (hn : n < 8388608) (hindex : m.index = some (Serial.ofNat n)) (horder : m.order = some order)
    (haccepts : a.accepts m = true) (hnear : cs.accepts order = true) :
    (r.messages.check (Serial.ofNat n) = .fresh ∧ r.hasRoom m = true) ∧
      Stage settings (n + 1) (a.take m).2 (r.take m).2.channels
        (r.receive ⟨Serial.ofNat n, [m]⟩).2 := by
  obtain ⟨hknows, rfl, rfl⟩ := h
  have hroom : r.hasRoom m = true := by
    simp only [hasRoom, haccepts, horder, hnear, Bool.or_true, Bool.and_true]
  have hbehind : ∀ j, j + settings.receiveWindow ≤ n → j < n := by omega
  obtain ⟨hknows', hassembler, hchannels⟩ :=
    hknows.receive hpos hn (Nat.lt_irrefl n) hbehind hindex hroom
  have hless : (fun j => j < n ∨ j = n) = (· < n + 1) :=
    funext fun j => propext Nat.lt_succ_iff_lt_or_eq.symm
  have hadmission := hknows.admission hn (Nat.lt_irrefl n) hbehind hindex hroom
  rw [hless] at hknows'
  exact ⟨(admission_eq_fresh_iff hindex).1 hadmission, hknows', hassembler, hchannels⟩

theorem Stage.keep (h : Stage settings n a cs r) (hpos : 0 < settings.receiveWindow)
    (hn : n < 8388608) (hindex : m.index = some (Serial.ofNat n)) (horder : m.order = some order)
    (haccepts : a.accepts m = true) (hnear : cs.accepts order = true)
    (htake : a.take m = (.ok none, a')) :
    Stage settings (n + 1) a' cs (r.receive ⟨Serial.ofNat n, [m]⟩).2 := by
  obtain ⟨⟨hcheck, hroom⟩, hstage⟩ := h.receive hpos hn hindex horder haccepts hnear
  rw [take_partial hindex hcheck hroom (h.assembler_eq ▸ htake), h.channels_eq, htake] at hstage
  exact hstage

theorem Stage.complete {whole : Message} {deliveries : List Delivery}
    (h : Stage settings n a cs r) (hpos : 0 < settings.receiveWindow)
    (hn : n < 8388608) (hindex : m.index = some (Serial.ofNat n)) (horder : m.order = some order)
    (haccepts : a.accepts m = true) (hnear : cs.accepts order = true)
    (htake : a.take m = (.ok (some whole), a'))
    (hrelease : Receiver.release whole cs = .ok (deliveries, cs')) :
    Stage settings (n + 1) a' cs' (r.receive ⟨Serial.ofNat n, [m]⟩).2 := by
  obtain ⟨⟨hcheck, hroom⟩, hstage⟩ := h.receive hpos hn hindex horder haccepts hnear
  rw [take_complete hindex hcheck hroom (h.assembler_eq ▸ htake) (h.channels_eq ▸ hrelease),
    htake] at hstage
  exact hstage

/-- What there is of the message that is half a turn ahead. -/
def farAssembly : Assembly := (Assembly.fresh true 2).put 0 farHead

/-- What it is when the other fragment is there. -/
def farWhole : Message := { farHead with fragment := none, payload := [0xaa, 0xbb] }

theorem take_farHead (hfits : 2 ≤ a.maxFragmentCount) (hroom : a.hasRoom = true)
    (hnone : a.assemblies[(0 : UInt16)]? = none) :
    ∃ a', a.take farHead = (.ok none, a') ∧
      a'.assemblies[(0 : UInt16)]? = some farAssembly ∧
      a'.maxFragmentCount = a.maxFragmentCount := by
  have hfew : ¬ a.maxFragmentCount < (2 : UInt32).toNat := Nat.not_lt.2 hfits
  have hinside : ¬ (2 : UInt32) ≤ 0 := by decide
  have hmake : a.makeRoom = a := by rw [Assembler.makeRoom, if_pos hroom]
  let begun : Assembler :=
    { a with assemblies := a.assemblies.insert 0 (Assembly.fresh true 2) }
  have hstart : a.start farHead ⟨2, 0, 0⟩ = (some (Assembly.fresh true 2), begun) := by
    simp only [Assembler.start, hnone, hmake, hroom, if_true]
    rfl
  have hjoin : begun.join farHead ⟨2, 0, 0⟩ (Assembly.fresh true 2)
      = (none, { begun with assemblies := begun.assemblies.insert 0 farAssembly }) := by
    have hnew : (Assembly.fresh true 2).has 0 = false := by decide
    have hincomplete : ((Assembly.fresh true 2).put 0 farHead).isComplete = false := by decide
    simp only [Assembler.join, hnew, hincomplete, Bool.false_eq_true, if_false, farAssembly]
  refine ⟨{ begun with assemblies := begun.assemblies.insert 0 farAssembly }, ?_, ?_, rfl⟩
  · show a.takeFragment farHead ⟨2, 0, 0⟩ = _
    have hcount : (Assembly.fresh true 2).count = 2 := rfl
    simp only [Assembler.takeFragment, if_neg hinside, if_neg hfew, hstart, hcount, if_true, hjoin]
  · exact Std.TreeMap.getElem?_insert_self

theorem take_nearTail (hfits : 2 ≤ a.maxFragmentCount)
    (hget : a.assemblies[(0 : UInt16)]? = some farAssembly) :
    ∃ a', a.take nearTail = (.ok (some farWhole), a') := by
  have hfew : ¬ a.maxFragmentCount < (2 : UInt32).toNat := Nat.not_lt.2 hfits
  have hinside : ¬ (2 : UInt32) ≤ 1 := by decide
  have hcount : farAssembly.count = 2 := rfl
  have hjoin : a.join nearTail ⟨2, 0, 1⟩ farAssembly
      = (some farWhole, { a with assemblies := a.assemblies.erase 0 }) := by
    have hnew : farAssembly.has 1 = false := by decide
    have hcomplete : (farAssembly.put 1 nearTail).isComplete = true := by decide
    have hwhole : (farAssembly.put 1 nearTail).message? = some farWhole := by decide
    simp only [Assembler.join, hnew, hcomplete, hwhole, Bool.false_eq_true, if_false, if_true]
  refine ⟨{ a with assemblies := a.assemblies.erase 0 }, ?_⟩
  show a.takeFragment nearTail ⟨2, 0, 1⟩ = _
  simp only [Assembler.takeFragment, if_neg hinside, if_neg hfew, Assembler.start, hget, hcount,
    if_true, hjoin]

/-- The channel when the next message was brought out. -/
def movedChannel : Channel := ⟨Serial.ofNat 1, ∅, Serial.zero⟩

def holdingChannel : Channel :=
  { movedChannel with
    held := movedChannel.held.insertIfNew (Serial.ofNat 8388608) farWhole.payload }

theorem release_nextWhole (hget : cs.get? 0 = some Channel.fresh) :
    release nextWhole cs = .ok ([⟨.reliableOrdered, 0, [0x00]⟩], cs.set 0 movedChannel) := by
  have hdrain : Channel.drain Channel.fresh.nextOrdered.next Channel.fresh.held
      = ([], Channel.fresh.nextOrdered.next, Channel.fresh.held) :=
    Channel.drain_of_none Std.TreeMap.getElem?_emptyc
  have hnext : (Serial.ofNat 0).distanceFrom Channel.fresh.nextOrdered = 0 := by decide
  have hhalf : ¬ Serial.half ≤ 0 := by decide
  have htaken : Channel.fresh.takeOrdered (Serial.ofNat 0) [0x00] = ([[0x00]], movedChannel) := by
    simp only [Channel.takeOrdered, hnext, if_neg hhalf, Nat.lt_irrefl, if_false, hdrain]
    rfl
  simp only [release, nextWhole, Channels.takeOrdered, hget, htaken]
  rfl

theorem release_farWhole (hget : cs.get? 0 = some movedChannel) :
    release farWhole cs = .ok ([], cs.set 0 holdingChannel) := by
  have horder : farWhole.order = some ⟨Serial.ofNat 8388608, 0⟩ := rfl
  have hordered : farWhole.reliability.isOrdered = true := rfl
  have hahead : (Serial.ofNat 8388608).distanceFrom movedChannel.nextOrdered = 8388607 := by decide
  have hhalf : ¬ Serial.half ≤ 8388607 := by decide
  have htaken : movedChannel.takeOrdered (Serial.ofNat 8388608) farWhole.payload
      = ([], holdingChannel) := by
    simp only [Channel.takeOrdered, hahead, if_neg hhalf]
    rfl
  simp only [release, horder, hordered, if_true, Channels.takeOrdered, hget, htaken]
  rfl

/-- **Three datagrams bring a message to be held as far ahead as places go.** -/
theorem get?_after_skipping (hvalid : settings.Valid) (hfits : 2 ≤ settings.maxFragmentCount) :
    ((fresh settings).after skipping).channels.get? 0 = some holdingChannel := by
  obtain ⟨-, -, hassemblies, hpos, hwindow, -, hchannels⟩ := hvalid.bounds
  let a₀ := Assembler.fresh settings.maxFragmentCount settings.maxAssemblies
  let cs₀ := Channels.fresh settings.orderChannels settings.orderingWindow
  have hget₀ : cs₀.get? 0 = some Channel.fresh := List.getElem?_replicate_of_lt hchannels
  have hget₁ : (cs₀.set 0 movedChannel).get? 0 = some movedChannel := by
    rw [get?_set (List.getElem?_eq_some_iff.1 hget₀).1, if_pos rfl]
  have hget₂ : ((cs₀.set 0 movedChannel).set 0 holdingChannel).get? 0 = some holdingChannel := by
    rw [get?_set (List.getElem?_eq_some_iff.1 hget₁).1, if_pos rfl]
  -- the first fragment seems to be late and is kept
  have hroom : a₀.hasRoom = true := decide_eq_true hassemblies
  obtain ⟨a₁, htake₁, hgot, hlimit⟩ := take_farHead hfits hroom Std.TreeMap.getElem?_emptyc
  have haccepts₁ : a₀.accepts farHead = true := by
    simp only [Assembler.accepts, farHead, hroom, Bool.or_true, Bool.true_or]
  have hlate : cs₀.accepts ⟨Serial.ofNat 8388608, 0⟩ = true := by
    simp only [Channels.accepts, hget₀]
    rfl
  have hstage₁ := (stage_fresh settings).keep hpos (by decide) rfl rfl haccepts₁ hlate htake₁
  -- the next message is brought out
  have hnext₂ : cs₀.accepts ⟨Serial.ofNat 0, 0⟩ = true := by
    simp only [Channels.accepts, hget₀, Bool.or_eq_true]
    exact Or.inr (decide_eq_true hwindow)
  have hstage₂ := hstage₁.complete (m := nextWhole) hpos (by decide) rfl rfl rfl hnext₂ rfl
    (release_nextWhole hget₀)
  -- the other fragment is next, and what is complete is held
  obtain ⟨a₃, htake₃⟩ := take_nearTail (by rw [hlimit]; exact hfits) hgot
  have haccepts₃ : a₁.accepts nearTail = true := by
    have hcontains : a₁.assemblies.contains (0 : UInt16) = true := by
      rw [Std.TreeMap.contains_eq_isSome_getElem?, hgot]
      rfl
    simp only [Assembler.accepts, nearTail, hcontains, Bool.or_true, Bool.true_or]
  have hnext₃ : (cs₀.set 0 movedChannel).accepts ⟨Serial.ofNat 1, 0⟩ = true := by
    have hnext : (Serial.ofNat 1).distanceFrom movedChannel.nextOrdered = 0 := by decide
    simp only [Channels.accepts, hget₁, hnext, Bool.or_eq_true]
    exact Or.inr (decide_eq_true hwindow)
  have hstage₃ :=
    hstage₂.complete hpos (by decide) rfl rfl haccepts₃ hnext₃ htake₃ (release_farWhole hget₁)
  rw [← hget₂, ← hstage₃.channels_eq]
  simp only [after, skipping, List.foldl_cons, List.foldl_nil]

/-! ## What a peer can bring about -/

/-- **A receiver stays within its bounds whatever arrives.** What it holds on the channels is less
than half a turn ahead, and within the window in all runs in which no first fragment is misjudged.
That leaves out some runs unless every message is complete with one fragment. -/
theorem bounded_and_within_window_iff (hvalid : settings.Valid) :
    (∀ ds, ((fresh settings).after ds).Bounded settings) ∧
      (∀ ds, (∀ d ∈ ds, d.Decoded) → (ds.flatMap Datagram.messages).length < Serial.half →
        JudgesAll ds (fresh settings) →
          ((fresh settings).after ds).channels.HeldWithin settings.orderingWindow) ∧
      ((∀ ds, (∀ d ∈ ds, d.Decoded) → (ds.flatMap Datagram.messages).length < Serial.half →
          ((fresh settings).after ds).channels.HeldWithin settings.orderingWindow) ↔
        settings.maxFragmentCount = 1) := by
  obtain ⟨-, hfragments, -, hpos, -, hhalf, -⟩ := hvalid.bounds
  have hjudged : ∀ ds, (∀ d ∈ ds, d.Decoded) →
      (ds.flatMap Datagram.messages).length < Serial.half → JudgesAll ds (fresh settings) →
        ((fresh settings).after ds).channels.HeldWithin settings.orderingWindow := by
    intro ds hds hfew hjudges
    rw [Serial.half] at hfew
    exact ((paced_fresh settings).after (by omega) hds hjudges).held
  refine ⟨fun ds => (bounded_after hpos hhalf ds).2, hjudged, fun hall => ?_,
    fun hone ds hds hfew => ?_⟩
  · by_contra hmany
    have hheld : Serial.ofNat 8388608 ∈ holdingChannel.held := by
      rw [holdingChannel, Std.TreeMap.mem_insertIfNew]
      exact Or.inl (Std.LawfulEqCmp.compare_eq_iff_eq.2 rfl)
    obtain ⟨-, hwithin⟩ := hall skipping decoded_skipping (by decide) 0 _
      (get?_after_skipping hvalid (by omega)) (Serial.ofNat 8388608) hheld
    have hahead : (Serial.ofNat 8388608).distanceFrom holdingChannel.nextOrdered = 8388607 := by
      decide
    have hnarrow := hvalid.orderingWindow_lt
    omega
  · exact hjudged ds hds hfew ((bounded_after hpos hhalf []).1.judgesAll hone ds)

/-- A message that is as far ahead as the window is wide by default, less one place. -/
def leading : List Datagram :=
  [⟨Serial.ofNat 0,
    [⟨.reliableOrdered, some (Serial.ofNat 0), some ⟨Serial.ofNat 2047, 0⟩, none, [0x00]⟩]⟩]

/-- With settings as they are by default, the last place of the window is held, and not that alone:
a peer can bring about that something beyond it is. -/
theorem not_within_window_default :
    (∃ c, ((fresh {}).after leading).channels.get? 0 = some c ∧
        Serial.ofNat 2047 ∈ c.held ∧ c.HeldWithin 2048) ∧
      ((fresh {}).after skipping).Bounded {} ∧
      ¬ ∀ ds, (∀ d ∈ ds, d.Decoded) → (ds.flatMap Datagram.messages).length < Serial.half →
        ((fresh {}).after ds).channels.HeldWithin 2048 := by
  have hvalid : Settings.Valid {} := by decide
  obtain ⟨hbounded, hwithin, hiff⟩ := bounded_and_within_window_iff hvalid
  refine ⟨?_, hbounded skipping, fun hall => ?_⟩
  · have hdecoded : ∀ d ∈ leading, d.Decoded := by
      intro d hd
      rw [List.mem_singleton.1 hd]
      exact ⟨[0x84, 0, 0, 0, 0x60, 0, 8, 0, 0, 0, 0xff, 0x07, 0, 0, 0], [], by decide +kernel⟩
    have hjudges : JudgesAll leading (fresh {}) := by
      refine ⟨⟨fun hmisjudges => ?_, trivial⟩, trivial⟩
      obtain ⟨mark, hmark, -⟩ := hmisjudges.first
      cases hmark
    have hheld : (((fresh {}).after leading).channels.get? 0).map
        (·.held.contains (Serial.ofNat 2047)) = some true := by decide +kernel
    obtain ⟨c, hget, hcontains⟩ := Option.map_eq_some_iff.1 hheld
    exact ⟨c, hget, Std.TreeMap.contains_iff_mem.1 hcontains,
      hwithin leading hdecoded (by decide) hjudges 0 c hget⟩
  · cases hiff.1 hall

end Receiver

end DatagramTransport

import DatagramTransport.Proofs.Fleeting
import Mathlib.Data.Nat.Size

/-!
# Bounds — what a receiver keeps, whoever sends

A peer chooses every number that it sends, and nothing that it chooses may make the receiver keep
more than its settings allow. **Two windows, one list and the assemblies are bounded, by each
operation that changes them and without any assumption on the numbers**: the windows have no flag
behind their capacity and begin at something that is missing, what is deferred is near the last
number that arrived, and an assembly is thrown out, completed or refused before there is one too
many of them.

What is held on an ordered channel is ahead of the next message, by less than half a turn. How much
less is another question, as what is held need not have been near when it was let in.
-/

set_option autoImplicit false

namespace DatagramTransport

namespace Receiver

/-! ## Windows

A window stands at an unbounded number, of which its base is the serial number. A peer can move it
anywhere, so the distance from zero is not known, and for the arithmetic of "behind" there has to be
something behind: the number is taken a turn from zero at least (`Turned`), which is no loss as
serial numbers come round. Any serial number is then that of a number less than half a turn away
(`exists_near`), and what `Proofs.Window` says of numbers that are near applies to whatever arrives.

The window of datagrams is tied to a second number besides, the one behind the highest that arrived.
`Spans` says how: everything before the base was received, nothing from the second number on, and
the number just before that was. So the flags between are as many as the two are apart, which is the
whole invariant between the window and the number. -/

namespace Window

variable {w : Window} {base top : Nat}

/-- For each number from the base on whether it was received, up to the last one that was. -/
def flags (w : Window) : List Bool := w.ahead.bits

theorem length_flags_le (h : w.Stands base) : w.flags.length ≤ w.capacity := by
  rw [flags, Nat.size_eq_bits_len, Nat.size_le]
  refine Nat.lt_pow_two_of_testBit _ fun i hi => ?_
  by_contra hset
  have := h.reach i (Bool.eq_true_of_not_eq_false hset)
  omega

theorem head_flags (h : w.At base) : w.flags.head? ≠ some true := by
  have heven : w.ahead % 2 = 0 := by
    have hfirst := h.first
    rw [Nat.testBit_zero, decide_eq_false_iff_not] at hfirst
    omega
  obtain ⟨half, hhalf⟩ : ∃ half, w.ahead = 2 * half := ⟨w.ahead / 2, by omega⟩
  rw [flags, hhalf]
  by_cases hzero : half = 0
  · rw [hzero, Nat.mul_zero, Nat.zero_bits]
    exact nofun
  · rw [Nat.bit0_bits half hzero]
    exact nofun

/-- Every serial number is that of a number less than half a turn away. -/
theorem exists_near (s : Serial) (h : 16777216 ≤ base) :
    ∃ k, s = Serial.ofNat k ∧ base ≤ k + 8388608 ∧ k < base + 8388608 := by
  have hlt := s.distanceFrom_lt (Serial.ofNat (base - 8388608))
  refine ⟨base - 8388608 + s.distanceFrom (Serial.ofNat (base - 8388608)), ?_, by omega, by omega⟩
  rw [← Serial.plus_ofNat, Serial.plus_distanceFrom]

/-- The window stands at an unbounded number, some turns from zero. -/
def Turned (w : Window) : Prop := ∃ base, 16777216 ≤ base ∧ w.At base

theorem turned_fresh (capacity : Nat) : (fresh capacity).Turned :=
  ⟨16777216, Nat.le_refl _, ⟨⟨rfl, by simp [fresh]⟩, by simp [fresh]⟩⟩

theorem Turned.insert (h : w.Turned) (s : Serial) : (w.insert s).2.Turned := by
  obtain ⟨base, hturned, hat⟩ := h
  obtain ⟨k, rfl, behind, ahead⟩ := exists_near s hturned
  by_cases hfresh : w.check (Serial.ofNat k) = .fresh
  · obtain ⟨base', hle, hat', -⟩ := hat.toStands.insert behind ahead hfresh
    exact ⟨base', Nat.le_trans hturned hle, hat'⟩
  · rw [insert_of_not_fresh hfresh]
    exact ⟨base, hturned, hat⟩

/-- What was received is before `top`, and the number before `top` was received. -/
structure Spans (w : Window) (base top : Nat) : Prop extends At w base where
  turned : 16777216 ≤ base
  lt : ∀ j, w.Holds base j → j < top
  last : w.Holds base (top - 1)

theorem spans_fresh (capacity : Nat) : (fresh capacity).Spans 16777216 16777216 where
  base_eq := rfl
  reach := by simp [fresh]
  first := by simp [fresh]
  turned := Nat.le_refl _
  lt := by
    rintro j (hlt | hbit)
    · exact hlt
    · simp [fresh] at hbit
  last := Or.inl (by decide)

theorem Spans.base_le (h : w.Spans base top) : base ≤ top := by
  have hturned := h.turned
  have := h.lt (base - 1) (Or.inl (by omega))
  omega

theorem Spans.length_flags (h : w.Spans base top) : base + w.flags.length = top := by
  have hle := h.base_le
  rw [flags, Nat.size_eq_bits_len]
  refine Nat.le_antisymm ?_ ?_
  · have hsize : w.ahead.size ≤ top - base := by
      rw [Nat.size_le]
      refine Nat.lt_pow_two_of_testBit _ fun i hi => ?_
      by_contra hset
      have hholds : w.Holds base (base + i) := by
        rw [Bool.not_eq_false] at hset
        exact Or.inr (by rwa [Nat.add_sub_cancel_left])
      have := h.lt _ hholds
      omega
    omega
  · rcases h.last with hlt | hbit
    · have hturned := h.turned
      omega
    · have := Nat.lt_size.2 (Nat.ge_two_pow_of_testBit hbit)
      omega

/-- **The window moves up with the number behind the highest one that arrived.** -/
theorem Spans.slide (h : w.Spans base top) (hpos : 0 < w.capacity)
    (hcapacity : w.capacity < 8388608) (s : Serial) : ∃ base' top', (w.slide s).2.Spans base' top' ∧ Serial.ofNat top'
      = if (w.slide s).1 = true ∧ (s = Serial.ofNat top ∨ s.isAfter (Serial.ofNat top) = true)
        then s.next else Serial.ofNat top := by
  obtain ⟨k, rfl, behind, ahead⟩ := exists_near s h.turned
  obtain ⟨base', hle, hat, hnew, hholds⟩ := h.toAt.slide hpos behind ahead
  have hturned := h.turned
  have hbase := h.base_le
  have hreach := h.toStands.holds_lt h.last
  by_cases hk : w.Holds base k
  · have hlt := h.lt k hk
    have hold : ¬ (w.slide (Serial.ofNat k)).1 = true := fun hslide => hnew.1 hslide hk
    refine ⟨base', top, ⟨hat, by omega, fun j hj => ?_, (hholds _).2 (Or.inl h.last)⟩, ?_⟩
    · rcases (hholds j).1 hj with hj | rfl | hj
      · exact h.lt j hj
      · exact hlt
      · omega
    · rw [if_neg fun hboth => hold hboth.1]
  · have hge : base ≤ k := Nat.le_of_not_lt fun hlt => hk (Or.inl hlt)
    have hslide := hnew.2 hk
    rcases Nat.lt_or_ge k top with hlt | hgt
    · -- a gap is filled, and the highest number is what it was
      refine ⟨base', top, ⟨hat, by omega, fun j hj => ?_, (hholds _).2 (Or.inl h.last)⟩, ?_⟩
      · rcases (hholds j).1 hj with hj | rfl | hj
        · exact h.lt j hj
        · exact hlt
        · omega
      · rw [if_neg]
        rintro ⟨-, hafter⟩
        have := (Serial.eq_or_isAfter_ofNat (by omega) (by omega)).1 hafter
        omega
    · refine ⟨base', k + 1, ⟨hat, by omega, fun j hj => ?_, (hholds k).2 (Or.inr (Or.inl rfl))⟩, ?_⟩
      · rcases (hholds j).1 hj with hj | rfl | hj
        · have := h.lt j hj
          omega
        · omega
        · omega
      · rw [if_pos, Serial.next_ofNat]
        exact ⟨hslide, (Serial.eq_or_isAfter_ofNat (by omega) (by omega)).2 hgt⟩

end Window

/-! ## What is deferred

When a datagram joins the list of those that are deferred, the list is cut back to what is near the
last number that arrived. Different numbers that are near one number are few (`length_le_of_near`),
so right after this the list is short whatever it was before; nothing else makes it longer. -/

theorem length_le_of_near (near : Serial) {n : Nat} {ss : List Serial} (hnodup : ss.Nodup)
    (hnear : ∀ s ∈ ss, near.distanceFrom s ≤ n) : ss.length ≤ n + 1 := by
  have hmap : (ss.map near.distanceFrom).Nodup := by
    refine List.Nodup.map_on (fun s _ s' _ heq => ?_) hnodup
    have := s.isLt
    have := s'.isLt
    have := near.isLt
    ext
    simp only [Serial.distanceFrom] at heq
    omega
  have hsubset : ss.map near.distanceFrom ⊆ List.range (n + 1) := by
    intro d hd
    obtain ⟨s, hs, rfl⟩ := List.mem_map.1 hd
    exact List.mem_range.2 (Nat.lt_succ_of_le (hnear s hs))
  have := hmap.length_le_of_subset hsubset
  rwa [List.length_map, List.length_range] at this

/-- The deferred numbers are different ones and not more than the window has places, but for two. -/
structure DefersFew (r : Receiver) (window : Nat) : Prop where
  windowSize_eq : r.windowSize = window
  nodup : r.deferred.Nodup
  length_le : r.deferred.length ≤ window + 2

variable {r : Receiver} {d : Datagram} {window : Nat}

theorem DefersFew.congr {r' : Receiver} (h : r.DefersFew window) (halike : r.Alike r')
    (hnodup : r'.deferred.Nodup) (hle : r'.deferred.length ≤ r.deferred.length) :
    r'.DefersFew window :=
  ⟨halike.windowSize_eq.trans h.windowSize_eq, hnodup, Nat.le_trans hle h.length_le⟩

/-- A datagram that is looked at leaves the list as it is, or joins what is near. -/
theorem DefersFew.unpack (h : r.DefersFew window) (d : Datagram) :
    (r.unpack d).2.DefersFew window := by
  obtain ⟨r', hunpack, -, -, -, -, -, hsize, hdeferred⟩ := unpack_eq d r
  rw [hunpack]
  split at hdeferred
  · obtain ⟨-, hdeferred⟩ := hdeferred
    refine ⟨hsize.trans h.windowSize_eq, ?_, ?_⟩
    · rw [hdeferred]
      refine List.nodup_cons.2 ⟨fun hmem => ?_, h.nodup.filter _⟩
      have hother := (List.mem_filter.1 hmem).2
      simp at hother
    · rw [hdeferred, List.length_cons]
      refine Nat.succ_le_succ (length_le_of_near r.nextSequence (h.nodup.filter _) fun s hs => ?_)
      have hkept := (List.mem_filter.1 hs).2
      rw [Bool.and_eq_true, decide_eq_true_eq] at hkept
      exact h.windowSize_eq ▸ hkept.1
  · obtain ⟨-, hdeferred⟩ := hdeferred
    exact ⟨hsize.trans h.windowSize_eq, hdeferred ▸ h.nodup, hdeferred ▸ h.length_le⟩

theorem DefersFew.receive (h : r.DefersFew window) (d : Datagram) :
    (r.receive d).2.DefersFew window := by
  cases hslide : (r.datagrams.slide d.sequence).1 with
  | true =>
    obtain ⟨r₀, heq, halike, -, hdeferred, -⟩ := receive_new hslide
    rw [heq]
    exact (h.congr halike (hdeferred ▸ h.nodup) (hdeferred ▸ Nat.le_refl _)).unpack d
  | false =>
    by_cases hmem : d.sequence ∈ r.deferred
    · obtain ⟨r₀, heq, halike, -, hdeferred, -⟩ := receive_deferred hslide hmem
      rw [heq]
      exact (h.congr halike (hdeferred ▸ h.nodup.filter _)
        (hdeferred ▸ List.length_filter_le _ _)).unpack d
    · obtain ⟨r', heq, halike, -, hdeferred, -⟩ := receive_duplicate hslide hmem
      rw [heq]
      obtain ⟨hsize, hnodup, hle⟩ :=
        h.congr halike (hdeferred ▸ h.nodup) (hdeferred ▸ Nat.le_refl _)
      exact ⟨hsize, hnodup, hle⟩

/-! ## Assemblies

Of an assembly it is kept that it is *proper*: it has a fragment, it lacks one, and all fragments
are in places that it has. `Joins`, from `Proofs.Fragments`, says what is put into which assembly;
if it was proper, or is a fresh one, then with the fragment it is proper again or complete. That it
is complete is decided by counting, so a complete one has a fragment in every place, the first one
among them, and with that the head that a message is made of. -/

namespace Assembly

variable {a : Assembly} {m : Message} {index : UInt32} {most : Nat}

/-- In how many places of the assembly there is a fragment. -/
def filled (a : Assembly) : Nat :=
  (List.range a.count.toNat).countP fun i => a.has (UInt32.ofNat i)

/-- An assembly that is begun and not complete. -/
structure Proper (a : Assembly) (most : Nat) : Prop where
  count_le : a.count.toNat ≤ most
  keys_lt : ∀ i ∈ a.fragments, i < a.count
  size_pos : 0 < a.fragments.size
  size_lt : a.fragments.size < a.count.toNat
  head_iff : a.head.isSome = true ↔ a.has 0 = true

/-- The fragments are counted right. -/
theorem size_eq_filled (h : ∀ i ∈ a.fragments, i < a.count) : a.fragments.size = a.filled := by
  have hkeys : (a.fragments.keys.map UInt32.toNat).Nodup :=
    Std.TreeMap.nodup_keys.map fun _ _ heq => UInt32.toNat_inj.1 heq
  have hfilter : ((List.range a.count.toNat).filter fun i => a.has (UInt32.ofNat i)).Nodup :=
    List.nodup_range.filter _
  have hperm : (a.fragments.keys.map UInt32.toNat).Perm
      ((List.range a.count.toNat).filter fun i => a.has (UInt32.ofNat i)) := by
    refine (List.perm_ext_iff_of_nodup hkeys hfilter).2 fun i => ?_
    rw [List.mem_map, List.mem_filter, List.mem_range]
    constructor
    · rintro ⟨k, hk, rfl⟩
      have hmem := Std.TreeMap.mem_keys.1 hk
      refine ⟨UInt32.lt_iff_toNat_lt.1 (h k hmem), ?_⟩
      rw [UInt32.ofNat_toNat]
      exact Std.TreeMap.contains_iff_mem.2 hmem
    · rintro ⟨hi, hhas⟩
      have hcount := a.count.toNat_lt
      exact ⟨UInt32.ofNat i, Std.TreeMap.mem_keys.2 (Std.TreeMap.contains_iff_mem.1 hhas),
        UInt32.toNat_ofNat_of_lt' (Nat.lt_trans hi hcount)⟩
  have hlength := hperm.length_eq
  rwa [List.length_map, Std.TreeMap.length_keys, ← List.countP_eq_length_filter] at hlength

end Assembly

namespace Assembler

variable {a : Assembler} {m : Message} {most : Nat}

section

variable {mark : FragmentMark} {assembly : Assembly} (joins : a.Joins m mark assembly)
  (hproper : a.assemblies[mark.id]? = some assembly → assembly.Proper a.maxFragmentCount)

include joins hproper

/-- The fragments of an assembly are in places that it has. -/
theorem Joins.keys_lt : ∀ i ∈ (assembly.put mark.index m).fragments,
    i < (assembly.put mark.index m).count := by
  intro i hi
  show i < assembly.count
  rcases Std.TreeMap.mem_insert.1 hi with heq | hi
  · rw [← Std.LawfulEqCmp.compare_eq_iff_eq.1 heq, joins.count_eq]
    exact joins.index_lt
  · rcases joins.origin with hget | rfl
    · exact (hproper hget).keys_lt i hi
    · simp [Assembly.fresh] at hi

/-- An assembly has a head when it has its first fragment. -/
theorem Joins.head_iff : (assembly.put mark.index m).head.isSome = true
    ↔ (assembly.put mark.index m).has 0 = true := by
  simp only [Assembly.put, Assembly.has, Std.TreeMap.contains_insert, Bool.or_eq_true,
    beq_iff_eq, Std.LawfulEqCmp.compare_eq_iff_eq]
  split
  next hzero => simp [hzero]
  next hzero =>
    have hold : assembly.head.isSome = true ↔ assembly.has 0 = true := by
      rcases joins.origin with hget | rfl
      · exact (hproper hget).head_iff
      · simp [Assembly.fresh, Assembly.has]
    rw [hold]
    exact ⟨Or.inr, fun hor => hor.resolve_left hzero⟩

/-- A fragment that is put into an assembly and does not complete it leaves it begun. -/
theorem Joins.proper (incomplete : (assembly.put mark.index m).isComplete = false) :
    (assembly.put mark.index m).Proper a.maxFragmentCount := by
  have hnew : ¬ assembly.fragments.contains mark.index = true := by
    have := joins.isNew
    rw [Assembly.has] at this
    rw [this]
    exact Bool.false_ne_true
  have hsize : (assembly.fragments.insert mark.index m.payload).size
      = assembly.fragments.size + 1 := by
    rw [Std.TreeMap.size_insert, if_neg hnew]
  have hless : assembly.fragments.size < assembly.count.toNat := by
    rcases joins.origin with hget | rfl
    · exact (hproper hget).size_lt
    · have := UInt32.lt_iff_toNat_lt.1 joins.index_lt
      simp only [Assembly.fresh, Std.TreeMap.size_emptyc]
      omega
  have hne : (assembly.fragments.insert mark.index m.payload).size ≠ assembly.count.toNat :=
    of_decide_eq_false incomplete
  refine ⟨?_, joins.keys_lt hproper, ?_, ?_, joins.head_iff hproper⟩
  · show assembly.count.toNat ≤ _
    rw [joins.count_eq]
    exact joins.count_le
  · show 0 < (assembly.fragments.insert mark.index m.payload).size
    omega
  · show (assembly.fragments.insert mark.index m.payload).size < assembly.count.toNat
    omega

/-- **A fragment that completes an assembly brings out a message.** -/
theorem Joins.exists_message? (complete : (assembly.put mark.index m).isComplete = true) :
    ∃ whole, (assembly.put mark.index m).message? = some whole := by
  have hfilled := Assembly.size_eq_filled (joins.keys_lt hproper)
  have hall : ∀ i ∈ List.range (assembly.put mark.index m).count.toNat,
      (assembly.put mark.index m).has (UInt32.ofNat i) = true := by
    rw [← List.countP_eq_length, List.length_range]
    exact hfilled.symm.trans (of_decide_eq_true complete)
  have hpos : 0 < (assembly.put mark.index m).count.toNat := by
    show 0 < assembly.count.toNat
    have := UInt32.lt_iff_toNat_lt.1 joins.index_lt
    rw [joins.count_eq]
    omega
  have hhead := (joins.head_iff hproper).2 (hall 0 (List.mem_range.2 hpos))
  rwa [Assembly.message?, ← Option.isSome_iff_exists, Option.isSome_map]

end

/-- The assemblies are not too many and none of them too large, empty or complete. -/
structure Bounded (a : Assembler) (fragments assemblies : Nat) : Prop where
  maxFragmentCount_eq : a.maxFragmentCount = fragments
  maxAssemblies_eq : a.maxAssemblies = assemblies
  size_le : a.assemblies.size ≤ assemblies
  proper : a.Every fun assembly => assembly.Proper fragments

variable {fragments assemblies : Nat}

theorem bounded_fresh (fragments assemblies : Nat) :
    (fresh fragments assemblies).Bounded fragments assemblies :=
  ⟨rfl, rfl, Nat.zero_le _, every_fresh _ _ _⟩

theorem Bounded.take (h : a.Bounded fragments assemblies) (m : Message) :
    (a.take m).2.Bounded fragments assemblies := by
  obtain ⟨hcount, hassemblies⟩ := limits_take a m
  refine ⟨hcount.trans h.maxFragmentCount_eq, hassemblies.trans h.maxAssemblies_eq, ?_, ?_⟩
  · have := size_take_le (h.maxAssemblies_eq ▸ h.size_le) m
    rwa [h.maxAssemblies_eq] at this
  · refine h.proper.take fun mark _ assembly joins incomplete _ => ?_
    rw [← h.maxFragmentCount_eq]
    exact joins.proper (fun hget => h.maxFragmentCount_eq ▸ h.proper mark.id assembly hget)
      incomplete

end Assembler

/-! ## What is held

On an ordered channel something is held only if it is ahead of the next message. An arrival behind
it is dropped, and one that is ahead is held where it is; only the next message itself moves the
channel on, and then whatever is held comes nearer by one with each step. No step makes a distance
greater, so a bound on the distances at which messages are let in is a bound on all of them. -/

namespace Channel

variable {c : Channel} {bound : Nat}

/-- Whatever is held is ahead of the next message, by less than so many places. -/
def HeldWithin (c : Channel) (bound : Nat) : Prop :=
  ∀ s ∈ c.held, 0 < s.distanceFrom c.nextOrdered ∧ s.distanceFrom c.nextOrdered < bound

theorem distanceFrom_next {s next : Serial} (h : s ≠ next) :
    s.distanceFrom next.next + 1 = s.distanceFrom next := by
  have hne : s.distanceFrom next ≠ 0 := fun hzero => h (Serial.distanceFrom_eq_zero_iff.1 hzero)
  have hlt := s.distanceFrom_lt next
  have heq := Serial.distanceFrom_plus_right s next (show 1 ≤ 16777216 by decide)
  rw [Serial.next]
  omega

/-- What is left when no more can be brought out is ahead of what comes next. -/
theorem drain_within {next : Serial} {held : Std.TreeMap Serial Octets}
    (h : ∀ s ∈ held, s.distanceFrom next < bound) :
    ∀ s ∈ (drain next held).2.2, 0 < s.distanceFrom (drain next held).2.1 ∧
      s.distanceFrom (drain next held).2.1 < bound := by
  unfold drain
  generalize ([] : List Octets) = payloads
  fun_induction drainOnto payloads next held with
  | case1 payloads next held hnone =>
    intro s hs
    refine ⟨Nat.pos_of_ne_zero fun hzero => ?_, h s hs⟩
    rw [Serial.distanceFrom_eq_zero_iff.1 hzero, Std.TreeMap.mem_iff_isSome_getElem?, hnone] at hs
    cases hs
  | case2 payloads next held payload hsome ih =>
    refine ih fun s hs => ?_
    obtain ⟨hne, hs⟩ := Std.TreeMap.mem_erase.1 hs
    have := h s hs
    have := distanceFrom_next fun heq : s = next =>
      hne (heq ▸ Std.LawfulEqCmp.compare_eq_iff_eq.2 rfl)
    omega

/-- **What is taken in leaves the others where they are, or brings the next message nearer.** -/
theorem HeldWithin.takeOrdered (h : c.HeldWithin bound) {index : Serial}
    (hindex : index.distanceFrom c.nextOrdered < 8388608 →
      index.distanceFrom c.nextOrdered < bound) (payload : Octets) :
    (c.takeOrdered index payload).2.HeldWithin bound := by
  unfold Channel.takeOrdered
  simp only [Serial.half]
  split
  · exact h
  next hahead =>
    have hbound := hindex (by omega)
    split
    next hpos =>
      intro s hs
      rcases Std.TreeMap.mem_insertIfNew.1 hs with heq | hs
      · rw [← Std.LawfulEqCmp.compare_eq_iff_eq.1 heq]
        exact ⟨hpos, hbound⟩
      · exact h s hs
    next hzero =>
      refine drain_within fun s hs => ?_
      obtain ⟨hpos, hless⟩ := h s hs
      have hne : s ≠ c.nextOrdered := by
        rintro rfl
        rw [Serial.distanceFrom_self] at hpos
        exact Nat.lt_irrefl 0 hpos
      have := distanceFrom_next hne
      omega

end Channel

namespace Channels

variable {cs cs' : Channels} {bound : Nat} {m : Message} {deliveries : List Delivery}

def HeldWithin (cs : Channels) (bound : Nat) : Prop :=
  ∀ (channel : UInt8) (c : Channel), cs.get? channel = some c → c.HeldWithin bound

theorem get?_fresh {count window : Nat} {channel : UInt8} {c : Channel}
    (h : (fresh count window).get? channel = some c) : c = Channel.fresh := by
  simp only [get?, fresh, List.getElem?_replicate] at h
  split at h
  · exact (Option.some.inj h).symm
  · cases h

theorem heldWithin_fresh (count window bound : Nat) : (fresh count window).HeldWithin bound := by
  intro channel c hget
  rw [get?_fresh hget]
  intro s hs
  simp [Channel.fresh] at hs

theorem get?_set_eq_some {channel channel' : UInt8} {c c' : Channel}
    (h : (cs.set channel c).get? channel' = some c') :
    (channel' = channel ∧ c' = c) ∨ cs.get? channel' = some c' := by
  simp only [set, get?] at h ⊢
  by_cases heq : channel' = channel
  · subst heq
    rw [List.getElem?_set] at h
    split at h
    · split at h
      · exact Or.inl ⟨rfl, (Option.some.inj h).symm⟩
      · cases h
    · exact Or.inr h
  · rw [List.getElem?_set_ne fun hsame => heq (UInt8.toNat_inj.1 hsame).symm] at h
    exact Or.inr h

end Channels

/-- All that comes out, and all that becomes of the channels, when a message is released. -/
theorem release_cases {cs cs' : Channels} {m : Message} {deliveries : List Delivery}
    (h : release m cs = .ok (deliveries, cs')) :
    (cs' = cs ∧ ∀ d ∈ deliveries, d.payload = m.payload) ∨
      ∃ order ∈ m.order, ∃ c, cs.get? order.channel = some c ∧
        ((m.reliability.isOrdered = true ∧
            cs' = cs.set order.channel (c.takeOrdered order.index m.payload).2 ∧
            ∀ d ∈ deliveries, d.payload ∈ (c.takeOrdered order.index m.payload).1) ∨
          (cs' = cs.set order.channel (c.takeSequenced order.index).2 ∧
            ∀ d ∈ deliveries, d.payload = m.payload)) := by
  have hown : ∀ d ∈ [(⟨m.reliability, m.channel, m.payload⟩ : Delivery)],
      d.payload = m.payload := fun d hd => congrArg Delivery.payload (List.mem_singleton.1 hd)
  unfold release at h
  split at h
  · cases h
    exact Or.inl ⟨rfl, hown⟩
  next order horder =>
    split at h
    next hordered =>
      cases hget : cs.get? order.channel with
      | none =>
        simp only [Channels.takeOrdered, hget] at h
        cases h
      | some c =>
        simp only [Channels.takeOrdered, hget] at h
        cases h
        refine Or.inr ⟨order, horder, c, hget, Or.inl ⟨hordered, rfl, fun d hd => ?_⟩⟩
        obtain ⟨payload, hmem, rfl⟩ := List.mem_map.1 hd
        exact hmem
    next =>
      split at h
      · cases hget : cs.get? order.channel with
        | none =>
          simp only [Channels.takeSequenced, hget] at h
          cases h
        | some c =>
          simp only [Channels.takeSequenced, hget] at h
          cases h
          refine Or.inr ⟨order, horder, c, hget, Or.inr ⟨rfl, fun d hd => ?_⟩⟩
          split at hd
          · exact hown d hd
          · cases hd
      · cases h
        exact Or.inl ⟨rfl, hown⟩

theorem Channel.takeSequenced_eq (index : Serial) (c : Channel) :
    (c.takeSequenced index).2.nextOrdered = c.nextOrdered ∧
      (c.takeSequenced index).2.held = c.held := by
  unfold Channel.takeSequenced
  split <;> exact ⟨rfl, rfl⟩

theorem Channels.HeldWithin.release {cs cs' : Channels} {m : Message}
    {deliveries : List Delivery} {bound : Nat} (h : cs.HeldWithin bound)
    (hrelease : Receiver.release m cs = .ok (deliveries, cs'))
    (hordered : m.reliability.isOrdered = true → ∀ order ∈ m.order, ∀ c,
      cs.get? order.channel = some c → order.index.distanceFrom c.nextOrdered < 8388608 →
        order.index.distanceFrom c.nextOrdered < bound) : cs'.HeldWithin bound := by
  rcases release_cases hrelease with ⟨rfl, -⟩ | ⟨order, horder, c, hget, hcase⟩
  · exact h
  · intro channel c' hget'
    rcases hcase with ⟨hm, rfl, -⟩ | ⟨rfl, -⟩
    · rcases Channels.get?_set_eq_some hget' with ⟨-, rfl⟩ | hold
      · exact (h order.channel c hget).takeOrdered (hordered hm order horder c hget) m.payload
      · exact h channel c' hold
    · rcases Channels.get?_set_eq_some hget' with ⟨-, rfl⟩ | hold
      · obtain ⟨hnext, hheld⟩ := c.takeSequenced_eq order.index
        intro s hs
        rw [hnext]
        rw [hheld] at hs
        exact h order.channel c hget s hs
      · exact h channel c' hold

/-! ## A receiver

The parts are independent of each other. `Contained` has to do with messages and is kept by each
message that is taken in, hence by a datagram with all its messages. `Follows` and `DefersFew` have
to do with datagrams as such, and for them a datagram is one of the three kinds that `receive` tells
apart. The bounds themselves are read off at the end. -/

/-- The parts of a receiver that take in messages are bounded. -/
structure Contained (r : Receiver) (settings : Settings) : Prop where
  capacity_eq : r.messages.capacity = settings.receiveWindow
  turned : r.messages.Turned
  assembler : r.assembler.Bounded settings.maxFragmentCount settings.maxAssemblies
  channels : r.channels.HeldWithin 8388608

variable {settings : Settings}

theorem Contained.congr {r' : Receiver} (h : r.Contained settings)
    (hmessages : r'.messages = r.messages) (hassembler : r'.assembler = r.assembler)
    (hchannels : r'.channels = r.channels) : r'.Contained settings :=
  ⟨hmessages ▸ h.capacity_eq, hmessages ▸ h.turned, hassembler ▸ h.assembler,
    hchannels ▸ h.channels⟩

theorem messages_take_cases (m : Message) (r : Receiver) :
    (r.take m).2.messages = r.messages ∨ ∃ s, (r.take m).2.messages = (r.messages.insert s).2 := by
  cases h : r.admission m with
  | fresh =>
    rw [(take_of_admission h).1]
    unfold register
    cases m.index with
    | none => exact Or.inl rfl
    | some s => exact Or.inr ⟨s, rfl⟩
  | duplicate | beyond =>
    refine Or.inl ?_
    rw [Receiver.take, h]

theorem Contained.take (h : r.Contained settings) (m : Message) :
    (r.take m).2.Contained settings where
  capacity_eq := by
    rcases messages_take_cases m r with heq | ⟨s, heq⟩
    · rw [heq]
      exact h.capacity_eq
    · rw [heq, Window.capacity_insert]
      exact h.capacity_eq
  turned := by
    rcases messages_take_cases m r with heq | ⟨s, heq⟩
    · rw [heq]
      exact h.turned
    · rw [heq]
      exact h.turned.insert s
  assembler := by
    rcases assembler_take_cases m r with heq | heq
    · rw [heq]
      exact h.assembler
    · rw [heq]
      exact h.assembler.take m
  channels := by
    rcases take_cases m r with ⟨-, heq⟩ | ⟨whole, -, hrelease⟩
    · rw [heq]
      exact h.channels
    · exact h.channels.release hrelease fun _ _ _ _ _ hless => hless

theorem Contained.collect (h : r.Contained settings) (ms : List Message) :
    (Stepwise.collect Receiver.take ms r).2.Contained settings := by
  induction ms generalizing r with
  | nil => exact h
  | cons m ms ih =>
    rw [Stepwise.collect_cons]
    exact ih (h.take m)

theorem Contained.receive (h : r.Contained settings) (d : Datagram) :
    (r.receive d).2.Contained settings := by
  rcases receive_cases d r with ⟨r₀, heq, halike, -⟩ | ⟨r', heq, halike, -⟩
  · have h₀ := h.congr halike.messages_eq halike.assembler_eq halike.channels_eq
    obtain ⟨r', hunpack, hmessages, hassembler, hchannels, -⟩ := unpack_eq d r₀
    rw [heq, hunpack]
    exact (h₀.collect d.messages).congr hmessages hassembler hchannels
  · rw [heq]
    exact h.congr halike.messages_eq halike.assembler_eq halike.channels_eq

/-- The window of datagrams and the next number go together. -/
structure Follows (r : Receiver) (settings : Settings) : Prop where
  capacity_eq : r.datagrams.capacity = settings.receiveWindow
  spans : ∃ base top, r.datagrams.Spans base top ∧ r.nextSequence = Serial.ofNat top

theorem Follows.receive (h : r.Follows settings) (hpos : 0 < settings.receiveWindow)
    (hhalf : settings.receiveWindow < 8388608) (d : Datagram) :
    (r.receive d).2.Follows settings := by
  obtain ⟨base, top, hspans, hnext⟩ := h.spans
  obtain ⟨base', top', hspans', htop⟩ :=
    hspans.slide (h.capacity_eq ▸ hpos) (h.capacity_eq ▸ hhalf) d.sequence
  have hcapacity : (r.datagrams.slide d.sequence).2.capacity = settings.receiveWindow :=
    (Window.capacity_slide d.sequence).trans h.capacity_eq
  -- in any case the window is the one that has slid
  have hfollows : ∀ r' : Receiver, r'.datagrams = (r.datagrams.slide d.sequence).2 →
      r'.nextSequence = Serial.ofNat top' → r'.Follows settings := fun r' hdatagrams hsequence =>
    ⟨hdatagrams ▸ hcapacity, base', top', hdatagrams ▸ hspans', hsequence⟩
  rw [← hnext] at htop
  cases hslide : (r.datagrams.slide d.sequence).1 with
  | true =>
    obtain ⟨r₀, heq, -, hdatagrams, -, hsequence⟩ := receive_new hslide
    obtain ⟨r', hunpack, -, -, -, hsame, hsequence', -⟩ := unpack_eq d r₀
    rw [heq, hunpack]
    refine hfollows r' (hsame.trans hdatagrams) ?_
    rw [hsequence', hsequence, htop, nextAfter, hslide]
    simp only [true_and]
  | false =>
    simp only [hslide, Bool.false_eq_true, false_and, if_false] at htop
    by_cases hmem : d.sequence ∈ r.deferred
    · obtain ⟨r₀, heq, -, hdatagrams, -, hsequence⟩ := receive_deferred hslide hmem
      obtain ⟨r', hunpack, -, -, -, hsame, hsequence', -⟩ := unpack_eq d r₀
      rw [heq, hunpack]
      exact hfollows r' (hsame.trans hdatagrams) (by rw [hsequence', hsequence, htop])
    · obtain ⟨r', heq, -, hdatagrams, -, hsequence⟩ := receive_duplicate hslide hmem
      rw [heq]
      exact hfollows _ hdatagrams (hsequence.trans htop.symm)

/-- What a receiver keeps is bounded by its settings. -/
structure Bounded (r : Receiver) (settings : Settings) : Prop where
  datagrams_le : r.datagrams.flags.length ≤ settings.receiveWindow
  datagrams_head : r.datagrams.flags.head? ≠ some true
  messages_le : r.messages.flags.length ≤ settings.receiveWindow
  messages_head : r.messages.flags.head? ≠ some true
  nextSequence_eq : r.nextSequence = r.datagrams.base.plus r.datagrams.flags.length
  assemblies_le : r.assembler.assemblies.size ≤ settings.maxAssemblies
  assemblies : ∀ (id : UInt16) (assembly : Assembly),
    r.assembler.assemblies[id]? = some assembly →
      assembly.count.toNat ≤ settings.maxFragmentCount ∧
        assembly.fragments.size = assembly.filled ∧ 0 < assembly.filled ∧
        assembly.filled < assembly.count.toNat ∧
        (assembly.head.isSome = true ↔ assembly.has 0 = true)
  held : r.channels.HeldWithin Serial.half
  deferred_nodup : r.deferred.Nodup
  deferred_le : r.deferred.length ≤ settings.receiveWindow + 2

/-- What is left of a receiver after some datagrams. -/
def after (r : Receiver) (ds : List Datagram) : Receiver :=
  ds.foldl (fun r d => (r.receive d).2) r

theorem Contained.bounded (h : r.Contained settings) (hfollows : r.Follows settings)
    (hfew : r.DefersFew settings.receiveWindow) : r.Bounded settings := by
  obtain ⟨base, -, hmessages⟩ := h.turned
  obtain ⟨base', top, hspans, hnext⟩ := hfollows.spans
  refine ⟨?_, Window.head_flags hspans.toAt, ?_, Window.head_flags hmessages, ?_,
    h.assembler.size_le, fun id assembly hget => ?_, h.channels, hfew.nodup, hfew.length_le⟩
  · exact hfollows.capacity_eq ▸ Window.length_flags_le hspans.toStands
  · exact h.capacity_eq ▸ Window.length_flags_le hmessages.toStands
  · rw [hspans.base_eq, Serial.plus_ofNat, hspans.length_flags, hnext]
  · have hproper := h.assembler.proper id assembly hget
    have hfilled := Assembly.size_eq_filled hproper.keys_lt
    exact ⟨hproper.count_le, hfilled, hfilled ▸ hproper.size_pos, hfilled ▸ hproper.size_lt,
      hproper.head_iff⟩

theorem keeps_after (hpos : 0 < settings.receiveWindow) (hhalf : settings.receiveWindow < 8388608)
    (hcontained : r.Contained settings) (hfollows : r.Follows settings)
    (hfew : r.DefersFew settings.receiveWindow) (ds : List Datagram) :
    (r.after ds).Contained settings ∧ (r.after ds).Follows settings ∧
      (r.after ds).DefersFew settings.receiveWindow := by
  induction ds generalizing r with
  | nil => exact ⟨hcontained, hfollows, hfew⟩
  | cons d ds ih =>
    exact ih (hcontained.receive d) (hfollows.receive hpos hhalf d) (hfew.receive d)

/-- **Whatever datagrams arrive, what is kept stays within the bounds**, and no more than half a
turn ahead on any channel. -/
theorem bounded_after (hpos : 0 < settings.receiveWindow)
    (hhalf : settings.receiveWindow < 8388608) (ds : List Datagram) :
    ((fresh settings).after ds).Contained settings ∧
      ((fresh settings).after ds).Bounded settings := by
  obtain ⟨hcontained, hfollows, hfew⟩ := keeps_after hpos hhalf (r := fresh settings)
    ⟨rfl, Window.turned_fresh _, Assembler.bounded_fresh _ _, Channels.heldWithin_fresh _ _ _⟩
    ⟨rfl, _, _, Window.spans_fresh _, rfl⟩ ⟨rfl, List.nodup_nil, Nat.zero_le _⟩ ds
  exact ⟨hcontained, hcontained.bounded hfollows hfew⟩

end Receiver

end DatagramTransport

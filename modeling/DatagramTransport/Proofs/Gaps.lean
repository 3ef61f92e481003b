import DatagramTransport.Proofs.Hearing
import DatagramTransport.Proofs.Report

/-!
# Gaps — which numbers are reported as missing

A datagram that skips numbers opens a gap, and the numbers in it are reported with the next flush
unless they come in before. **Each number is in a gap once**: the gap ends below the number that
opened it, and the next one begins above. So no number is reported twice, and none that was taken as
new, since it is taken out of the gaps then and is never put in again.

How far down a gap goes is limited by the window. A number exactly one window below the new one is
still reported, although the window has just slid over it: should it come in after all, it passes
for a duplicate, and is reported all the same.
-/

set_option autoImplicit false

namespace DatagramTransport

namespace Receiver

variable {settings : Settings} {r : Receiver} {d : Datagram} {s : Serial}
  {arrived reported : List Serial}

/-- The number will be reported as missing. -/
def Lacks (r : Receiver) (s : Serial) : Prop := ∃ q ∈ r.pendingNacks, s ∈ q.toList

/-- The datagram is looked at as one that did not arrive before. -/
def takesAsNew (r : Receiver) (d : Datagram) : Bool := (r.datagrams.slide d.sequence).1

/-- The datagram skips the number, and the window reaches down to it from there. -/
def Skips (r : Receiver) (d : Datagram) (s : Serial) : Prop :=
  r.nextSequence.val ≤ s.val ∧ s.val < d.sequence.val ∧ d.sequence.val ≤ s.val + r.windowSize

/-! ## What a datagram does to the gaps

Everything is said of single numbers: a number is lacked if some range of the pending list holds it.
How the ranges are cut up when one number is taken out of them is then of no concern. A new datagram
puts in what it skips and takes out its own number; one that is not new can only take out its own,
and nothing else touches the list except a flush, which empties it. -/

/-- Messages open no gaps. -/
theorem unpack_frame (d : Datagram) (r : Receiver) :
    (r.unpack d).2.windowSize = r.windowSize ∧ (r.unpack d).2.datagrams = r.datagrams ∧
      (r.unpack d).2.nextSequence = r.nextSequence ∧
      (r.unpack d).2.pendingNacks = r.pendingNacks ∧
      ∀ s ∈ (r.unpack d).2.deferred, s = d.sequence ∨ s ∈ r.deferred := by
  obtain ⟨messages, assembler, channels, hframe⟩ := collect_frame d.messages r
  unfold unpack
  generalize Stepwise.collect take d.messages r = collected at hframe
  obtain ⟨intakes, r₁⟩ := collected
  simp only at hframe
  subst hframe
  simp only
  split
  · refine ⟨rfl, rfl, rfl, rfl, fun s hs => ?_⟩
    rcases List.mem_cons.1 hs with rfl | hold
    · exact Or.inl rfl
    · exact Or.inr (List.mem_filter.1 hold).1
  · exact ⟨rfl, rfl, rfl, rfl, fun s hs => Or.inr hs⟩

theorem exists_mem_remove {ranges : List SerialRange} {t : Serial} :
    (∃ q ∈ SerialRange.remove t ranges, s ∈ q.toList)
      ↔ (∃ q ∈ ranges, s ∈ q.toList) ∧ s ≠ t := by
  simp only [SerialRange.remove_eq, List.mem_flatMap]
  constructor
  · rintro ⟨q, ⟨range, hrange, hq⟩, hs⟩
    obtain ⟨hmem, hne⟩ := SerialRange.mem_without.1 ⟨q, hq, hs⟩
    exact ⟨⟨range, hrange, hmem⟩, hne⟩
  · rintro ⟨⟨range, hrange, hmem⟩, hne⟩
    obtain ⟨q, hq, hs⟩ := SerialRange.mem_without.2 ⟨hmem, hne⟩
    exact ⟨q, ⟨range, hrange, hq⟩, hs⟩

/-- A gap reaches from the number that was expected up to the one that came, and not further down
than the window. -/
theorem exists_mem_missingBefore (hle : r.nextSequence.val ≤ d.sequence.val) :
    (∃ q ∈ r.missingBefore d.sequence, s ∈ q.toList) ↔ r.Skips d s := by
  have hlt := d.sequence.isLt
  have hgap : d.sequence.distanceFrom r.nextSequence = d.sequence.val - r.nextSequence.val := by
    rw [Serial.distanceFrom]
    omega
  unfold missingBefore Skips
  simp only [hgap]
  generalize d.sequence.val = k at hle hlt
  split
  · rename_i hstart
    have hfirst : (r.nextSequence.plus (k - r.nextSequence.val - r.windowSize)).val
        = max r.nextSequence.val (k - r.windowSize) := by
      rw [Serial.val_plus]
      omega
    have hlast : (r.nextSequence.plus (k - r.nextSequence.val - 1)).val = k - 1 := by
      rw [Serial.val_plus]
      omega
    simp only [List.mem_singleton, exists_eq_left]
    rw [SerialRange.mem_toList_iff (by rw [SerialRange.IsStraight, hfirst, hlast]; omega),
      SerialRange.Covers, hfirst, hlast]
    omega
  · simp only [List.not_mem_nil, false_and, exists_false, false_iff]
    omega

/-- A new datagram opens a gap, and its own number is in none any more. -/
theorem receive_of_takesAsNew (hnew : r.takesAsNew d = true) (hnext : r.nextSequence.val ≤ 8388608)
    (hd : d.sequence.val < 8388608) :
    (r.receive d).2.windowSize = r.windowSize ∧
      (r.receive d).2.datagrams = (r.datagrams.slide d.sequence).2 ∧
      (r.receive d).2.nextSequence.val = max r.nextSequence.val (d.sequence.val + 1) ∧
      (∀ s ∈ (r.receive d).2.deferred, s = d.sequence ∨ s ∈ r.deferred) ∧
      ∀ s, (r.receive d).2.Lacks s ↔ r.Skips d s ∨ (r.Lacks s ∧ s ≠ d.sequence) := by
  have hnextAfter := val_nextAfter hnext hd
  rw [d.sequence.ofNat_val] at hnextAfter
  have hreaches := Serial.eq_or_isAfter_ofNat (a := d.sequence.val) (b := r.nextSequence.val)
    (by omega) (by omega)
  rw [d.sequence.ofNat_val, r.nextSequence.ofNat_val] at hreaches
  rw [← hnextAfter]
  unfold takesAsNew at hnew
  unfold receive
  simp only [hnew, if_true, Lacks]
  obtain ⟨hsize, hdatagrams, hsequence, hnacks, hdeferred⟩ := unpack_frame d
    (advance d.sequence { r with
      datagrams := (r.datagrams.slide d.sequence).2
      datagramsReceived := r.datagramsReceived + 1
      pendingNacks := SerialRange.remove d.sequence r.pendingNacks })
  rw [hsize, hdatagrams, hsequence, hnacks]
  unfold advance at hdeferred ⊢
  unfold nextAfter
  simp only [hreaches] at hdeferred ⊢
  split
  · rename_i hle
    rw [if_pos hle] at hdeferred
    refine ⟨rfl, rfl, rfl, hdeferred, fun s => ?_⟩
    simp only [List.mem_append, or_and_right, exists_or]
    exact or_congr (exists_mem_missingBefore hle) exists_mem_remove
  · rename_i hlt
    rw [if_neg hlt] at hdeferred
    refine ⟨rfl, rfl, rfl, hdeferred, fun s => ?_⟩
    rw [exists_mem_remove, or_iff_right]
    unfold Skips
    omega

/-- A datagram that is not new opens no gap, and one that was deferred is in none any more. -/
theorem receive_of_not_takesAsNew (hold : r.takesAsNew d = false) :
    (r.receive d).2.windowSize = r.windowSize ∧
      (r.receive d).2.datagrams = (r.datagrams.slide d.sequence).2 ∧
      (r.receive d).2.nextSequence = r.nextSequence ∧
      (∀ s ∈ (r.receive d).2.deferred, s ∈ r.deferred) ∧
      ∀ s, (r.receive d).2.Lacks s
        ↔ r.Lacks s ∧ (d.sequence ∈ r.deferred → s ≠ d.sequence) := by
  unfold takesAsNew at hold
  unfold receive
  simp only [hold, Bool.false_eq_true, if_false, List.contains_iff_mem, Lacks]
  split
  · rename_i hdeferred
    obtain ⟨hsize, hdatagrams, hsequence, hnacks, hremaining⟩ := unpack_frame d { r with
      datagrams := (r.datagrams.slide d.sequence).2
      datagramsReceived := r.datagramsReceived + 1
      pendingNacks := SerialRange.remove d.sequence r.pendingNacks
      deferred := r.deferred.filter (· != d.sequence) }
    rw [hsize, hdatagrams, hsequence, hnacks]
    refine ⟨rfl, rfl, rfl, fun s hs => ?_, fun s => ?_⟩
    · rcases hremaining s hs with rfl | hmem
      · exact hdeferred
      · exact (List.mem_filter.1 hmem).1
    · rw [exists_mem_remove]
      exact and_congr_right fun _ => ⟨fun hne _ => hne, fun hne => hne hdeferred⟩
  · rename_i hforgotten
    refine ⟨rfl, rfl, rfl, fun s hs => hs, fun s => ?_⟩
    exact (and_iff_left fun hdeferred => absurd hdeferred hforgotten).symm

/-! ## A whole run

`Tracks` has the numbers that arrived and those that were reported as ghosts, as no receiver
remembers them. The end of the window does the rest. Whatever is lacked or was reported lies below
it, and whatever a new datagram skips lies at or above it as it was before; so a number that is put
in can be neither. A number that arrived is in the window, hence not new again, hence not skipped.
-/

/-- What is missing and what was reported, after some numbers arrived and some were reported. -/
structure Tracks (settings : Settings) (arrived reported : List Serial) (r : Receiver) : Prop where
  windowSize_eq : r.windowSize = settings.receiveWindow
  capacity_eq : r.datagrams.capacity = settings.receiveWindow
  window : r.datagrams.Within r.nextSequence.val
  next_le : r.nextSequence.val ≤ 8388608
  has : ∀ s ∈ arrived, r.datagrams.Has s.val
  deferred : ∀ s ∈ r.deferred, s ∈ arrived
  /-- What is missing was skipped, and has not arrived. -/
  lacks : ∀ s, r.Lacks s → s.val < r.nextSequence.val ∧ s ∉ arrived
  /-- What was reported was skipped, and will not be reported again. -/
  told : ∀ s ∈ reported, s.val < r.nextSequence.val ∧ ¬r.Lacks s
  nodup : reported.Nodup

theorem tracks_fresh (settings : Settings) : Tracks settings [] [] (Receiver.fresh settings) where
  windowSize_eq := rfl
  capacity_eq := rfl
  window := Window.within_fresh _
  next_le := Nat.zero_le _
  has := fun _ hs => absurd hs List.not_mem_nil
  deferred := fun _ hs => absurd hs List.not_mem_nil
  lacks := by
    rintro s ⟨q, hq, -⟩
    exact absurd hq List.not_mem_nil
  told := fun _ hs => absurd hs List.not_mem_nil
  nodup := List.nodup_nil

/-- A number is new exactly if the window does not have it, and then the window slides to it. -/
theorem Tracks.slide (h : Tracks settings arrived reported r)
    (hpos : 0 < settings.receiveWindow) (hd : d.sequence.val < 8388608) :
    (r.takesAsNew d = true ↔ ¬r.datagrams.Has d.sequence.val) ∧
      (r.datagrams.slide d.sequence).2.Within (max r.nextSequence.val (d.sequence.val + 1)) ∧
      ∀ k, (r.datagrams.slide d.sequence).2.Has k
        ↔ r.datagrams.Has k ∨ k = d.sequence.val ∨ k + settings.receiveWindow ≤ d.sequence.val := by
  have hnext := h.next_le
  obtain ⟨hwithin, hnew, hhas⟩ := (h.window.mono (Nat.le_max_left _ (d.sequence.val + 1))).slide
    (k := d.sequence.val) (by omega) (by omega) (by rwa [h.capacity_eq])
  rw [d.sequence.ofNat_val] at hwithin hnew hhas
  rw [h.capacity_eq] at hhas
  exact ⟨hnew, hwithin, hhas⟩

theorem Tracks.receive_new (h : Tracks settings arrived reported r)
    (hpos : 0 < settings.receiveWindow) (hd : d.sequence.val < 8388608)
    (hnew : r.takesAsNew d = true) :
    Tracks settings (arrived ++ [d.sequence]) reported (r.receive d).2 := by
  obtain ⟨-, hwithin, hhas⟩ := h.slide hpos hd
  obtain ⟨hsize, hdatagrams, hsequence, hdeferred, hlacks⟩ :=
    receive_of_takesAsNew hnew h.next_le hd
  have hnext := h.next_le
  refine ⟨by rw [hsize, h.windowSize_eq], ?_, ?_, by omega, fun s hs => ?_, fun s hs => ?_,
    fun s hs => ?_, fun s hs => ?_, h.nodup⟩
  · rw [hdatagrams, Window.capacity_slide, h.capacity_eq]
  · rwa [hdatagrams, hsequence]
  · rw [hdatagrams, hhas]
    rcases List.mem_append.1 hs with hs | hs
    · exact Or.inl (h.has s hs)
    · exact Or.inr (Or.inl (congrArg Serial.val (List.mem_singleton.1 hs)))
  · rcases hdeferred s hs with rfl | hs
    · exact List.mem_append_right _ List.mem_cons_self
    · exact List.mem_append_left _ (h.deferred s hs)
  · rw [List.mem_append, List.mem_singleton, not_or, hsequence]
    rcases (hlacks s).1 hs with ⟨hge, hlt, -⟩ | ⟨hold, hne⟩
    · -- what arrived is behind the gap
      refine ⟨by omega, fun hmem => ?_, fun heq => ?_⟩
      · have := h.window.below _ (h.has s hmem)
        omega
      · rw [heq] at hlt
        omega
    · obtain ⟨hlt, hmem⟩ := h.lacks s hold
      exact ⟨by omega, hmem, hne⟩
  · obtain ⟨hlt, hnotLacks⟩ := h.told s hs
    refine ⟨by omega, fun hmem => ?_⟩
    rcases (hlacks s).1 hmem with ⟨hge, -, -⟩ | ⟨hold, -⟩
    · omega
    · exact hnotLacks hold

/-- What is not new leaves the gaps as they are. -/
theorem Tracks.lacks_receive_old (h : Tracks settings arrived reported r)
    (hold : r.takesAsNew d = false) : (r.receive d).2.Lacks s ↔ r.Lacks s := by
  obtain ⟨-, -, -, -, hlacks⟩ := receive_of_not_takesAsNew hold
  rw [hlacks]
  refine and_iff_left_of_imp fun hmem hdeferred heq => ?_
  rw [heq] at hmem
  exact (h.lacks _ hmem).2 (h.deferred _ hdeferred)

theorem Tracks.receive_old (h : Tracks settings arrived reported r)
    (hpos : 0 < settings.receiveWindow) (hd : d.sequence.val < 8388608)
    (hold : r.takesAsNew d = false) : Tracks settings arrived reported (r.receive d).2 := by
  obtain ⟨hiff, hwithin, hhas⟩ := h.slide hpos hd
  obtain ⟨hsize, hdatagrams, hsequence, hdeferred, -⟩ := receive_of_not_takesAsNew hold
  have hhas' : r.datagrams.Has d.sequence.val := by
    by_contra hnot
    rw [hiff.2 hnot] at hold
    cases hold
  rw [Nat.max_eq_left (h.window.below _ hhas')] at hwithin
  refine ⟨by rw [hsize, h.windowSize_eq], ?_, by rwa [hdatagrams, hsequence],
    by rw [hsequence]; exact h.next_le, fun s hs => ?_, fun s hs => h.deferred s (hdeferred s hs),
    fun s hs => ?_, fun s hs => ?_, h.nodup⟩
  · rw [hdatagrams, Window.capacity_slide, h.capacity_eq]
  · rw [hdatagrams, hhas]
    exact Or.inl (h.has s hs)
  · rw [hsequence]
    exact h.lacks s ((h.lacks_receive_old hold).1 hs)
  · rw [hsequence, h.lacks_receive_old hold]
    exact h.told s hs

/-- What was missing is reported with a flush, and then nothing is missing. -/
theorem Tracks.flush (h : Tracks settings arrived reported r) (maxLength : Nat) :
    Tracks settings arrived
      (reported ++ (SerialRange.condense r.pendingNacks).flatMap SerialRange.toList)
      (r.flush maxLength).2 := by
  have hmem (s : Serial) :
      s ∈ (SerialRange.condense r.pendingNacks).flatMap SerialRange.toList ↔ r.Lacks s := by
    rw [List.mem_flatMap, SerialRange.mem_condense, Lacks]
  have hnone (s : Serial) : ¬(r.flush maxLength).2.Lacks s := by
    rintro ⟨q, hq, -⟩
    exact absurd hq List.not_mem_nil
  refine ⟨h.windowSize_eq, h.capacity_eq, h.window, h.next_le, h.has, h.deferred,
    fun s hs => absurd hs (hnone s), fun s hs => ⟨?_, hnone s⟩, ?_⟩
  · rcases List.mem_append.1 hs with hs | hs
    · exact (h.told s hs).1
    · exact (h.lacks s ((hmem s).1 hs)).1
  · refine List.nodup_append.2 ⟨h.nodup, (SerialRange.canonical_condense _).nodup_numbers, ?_⟩
    intro s hs s' hs' heq
    rw [heq] at hs
    exact (h.told s' hs).2 ((hmem s').1 hs')

end Receiver

/-- The numbers that a packet reports as missing. -/
def Packet.missing : Packet → List Serial
  | .acknowledgement a => if a.kind = .nack then a.numbers else []
  | .datagram _ => []

namespace Link

variable {settings : Settings} {l : Link} {e : Event} {es : List Event} {s : Serial}
  {arrived reported : List Serial}

/-- The number that arrives with an event, if it is taken as new. -/
def arrivesWith (l : Link) : Event → List Serial
  | .hear d => if l.receiver.takesAsNew d then [d.sequence] else []
  | _ => []

/-- The numbers that an event reports as missing. -/
def reportsWith (l : Link) : Event → List Serial
  | .flush now limit => (l.flushPackets now limit).1.flatMap Packet.missing
  | _ => []

/-- The numbers that are taken as new while events happen to a link. -/
def arrivals (l : Link) : List Event → List Serial
  | [] => []
  | e :: es => l.arrivesWith e ++ (l.step e).arrivals es

/-- The numbers that are reported as missing while events happen to a link. -/
def reports (l : Link) : List Event → List Serial
  | [] => []
  | e :: es => l.reportsWith e ++ (l.step e).reports es

/-- If a datagram arrives, its number is one of the first half turn. -/
def Event.isEarly : Event → Bool
  | .hear d => d.sequence.val < Serial.half
  | _ => true

def Event.isFlush : Event → Bool
  | .flush _ _ => true
  | _ => false

/-- A flush lists what is missing in the canonical form. -/
theorem reportsWith_flush (l : Link) (now : Nanoseconds) (limit : Nat) :
    l.reportsWith (.flush now limit)
      = (SerialRange.condense l.receiver.pendingNacks).flatMap SerialRange.toList := by
  have hacks (ranges : List SerialRange) (maxLength : Nat) :
      ((Acknowledgement.build .ack ranges maxLength).map Packet.acknowledgement).flatMap
        Packet.missing = [] := by
    refine List.flatMap_eq_nil_iff.2 fun p hp => ?_
    obtain ⟨a, ha, rfl⟩ := List.mem_map.1 hp
    rw [Packet.missing, (Acknowledgement.mem_numbers_build ha).1, if_neg (by decide)]
  have hnacks (ranges : List SerialRange) (maxLength : Nat) :
      ((Acknowledgement.build .nack ranges maxLength).map Packet.acknowledgement).flatMap
        Packet.missing = (SerialRange.condense ranges).flatMap SerialRange.toList := by
    rw [← Acknowledgement.flatMap_numbers_build .nack ranges maxLength, List.flatMap_map]
    refine List.flatMap_congr fun a ha => ?_
    rw [Packet.missing, if_pos (Acknowledgement.mem_numbers_build ha).1]
  have hdatagrams (ds : List Datagram) :
      (ds.map Packet.datagram).flatMap Packet.missing = [] :=
    List.flatMap_eq_nil_iff.2 fun p hp => by
      obtain ⟨d, -, rfl⟩ := List.mem_map.1 hp
      rfl
  simp only [reportsWith, flushPackets, Receiver.flush, List.map_append, List.flatMap_append,
    hacks, hnacks, hdatagrams, List.nil_append, List.append_nil]

theorem mem_reportsWith_flush {now : Nanoseconds} {limit : Nat} :
    s ∈ l.reportsWith (.flush now limit) ↔ l.receiver.Lacks s := by
  rw [reportsWith_flush, List.mem_flatMap, SerialRange.mem_condense, Receiver.Lacks]

/-! ## Events

On a link a number comes in with an event, or it is reported with one. Which events do so is read
off the state that they meet, so that the ghosts of a whole run are lists of what the events bring
one after the other. -/

/-- A datagram or a flush. The other events are the sender's business. -/
def Event.concernsReceiver : Event → Bool
  | .hear _ | .flush _ _ => true
  | _ => false

theorem receiver_hear (l : Link) (d : Datagram) :
    (l.step (.hear d)).receiver = (l.receiver.receive d).2 := rfl

theorem receiver_step (l : Link) (h : e.concernsReceiver = false) :
    (l.step e).receiver = l.receiver := by
  cases e with
  | submit r channel payload =>
    simp only [step, send]
    cases l.sender.send r channel payload <;> rfl
  | clear => simp only [step, clear]
  | learn now a => simp only [step, receiveAcknowledgement]
  | tick now => simp only [step, tick]
  | flushDatagrams now limit => simp only [step, flushDatagrams]
  | hear d | flush now limit => cases h

/-- Only datagrams and flushes have to do with gaps. -/
theorem tracks_step (h : l.receiver.Tracks settings arrived reported)
    (hpos : 0 < settings.receiveWindow) (he : e.isEarly = true) :
    (l.step e).receiver.Tracks settings (arrived ++ l.arrivesWith e)
      (reported ++ l.reportsWith e) := by
  cases e with
  | hear d =>
    have hd : d.sequence.val < 8388608 := of_decide_eq_true he
    simp only [receiver_hear, arrivesWith, reportsWith, List.append_nil]
    cases hnew : l.receiver.takesAsNew d with
    | true =>
      rw [if_pos rfl]
      exact h.receive_new hpos hd hnew
    | false =>
      rw [if_neg Bool.false_ne_true, List.append_nil]
      exact h.receive_old hpos hd hnew
  | flush now limit =>
    simp only [reportsWith_flush, arrivesWith, List.append_nil]
    exact h.flush (Sender.Queue.maxPacketLength l.mtu)
  | submit _ _ _ | clear | learn _ _ | tick _ | flushDatagrams _ _ =>
    rw [receiver_step l rfl]
    simpa only [arrivesWith, reportsWith, List.append_nil] using h

theorem tracks_after (h : l.receiver.Tracks settings arrived reported)
    (hpos : 0 < settings.receiveWindow) (hes : ∀ e ∈ es, e.isEarly = true) :
    (l.after es).receiver.Tracks settings (arrived ++ l.arrivals es)
      (reported ++ l.reports es) := by
  induction es generalizing l arrived reported with
  | nil => rwa [arrivals, reports, List.append_nil, List.append_nil]
  | cons e es ih =>
    have hstep := tracks_step h hpos (hes e List.mem_cons_self)
    have hafter := ih hstep fun e' he' => hes e' (List.mem_cons_of_mem e he')
    rwa [List.append_assoc, List.append_assoc] at hafter

/-- What is missing remains so until it arrives or is reported. -/
theorem lacks_step (h : l.receiver.Tracks settings arrived reported) (he : e.isEarly = true)
    (hnoFlush : e.isFlush = false) (hlacks : l.receiver.Lacks s) (hnot : s ∉ l.arrivesWith e) :
    (l.step e).receiver.Lacks s := by
  cases e with
  | hear d =>
    rw [receiver_hear]
    rw [arrivesWith] at hnot
    cases hnew : l.receiver.takesAsNew d with
    | true =>
      rw [if_pos hnew, List.mem_singleton] at hnot
      obtain ⟨-, -, -, -, hiff⟩ := Receiver.receive_of_takesAsNew hnew h.next_le
        (of_decide_eq_true he)
      exact (hiff s).2 (Or.inr ⟨hlacks, hnot⟩)
    | false => exact (h.lacks_receive_old hnew).2 hlacks
  | flush now limit => cases hnoFlush
  | submit _ _ _ | clear | learn _ _ | tick _ | flushDatagrams _ _ => rwa [receiver_step l rfl]

theorem lacks_after (h : l.receiver.Tracks settings arrived reported)
    (hpos : 0 < settings.receiveWindow) (hes : ∀ e ∈ es, e.isEarly = true ∧ e.isFlush = false)
    (hlacks : l.receiver.Lacks s) (hnot : s ∉ l.arrivals es) : (l.after es).receiver.Lacks s := by
  induction es generalizing l arrived reported with
  | nil => exact hlacks
  | cons e es ih =>
    obtain ⟨he, hnoFlush⟩ := hes e List.mem_cons_self
    rw [arrivals, List.mem_append, not_or] at hnot
    exact ih (tracks_step h hpos he) (fun e' he' => hes e' (List.mem_cons_of_mem e he'))
      (lacks_step h he hnoFlush hlacks hnot.1) hnot.2

/-- **What is missing is reported once, and what arrived is not.** As long as the numbers that
arrive are from the first half turn, whatever else happens to a link: no flush reports a number that
was taken as new before it, no number is ever reported twice, and if a new datagram skips a number
that is at most one window below its own, the next flush reports that number, unless it is taken as
new before. -/
theorem missing_reported_once (hvalid : settings.Valid) (mtu : UInt16) (es : List Event)
    (hes : ∀ e ∈ es, e.isEarly = true) :
    let start := fresh settings mtu
    let l := start.after es
    (∀ now limit, ∀ s ∈ l.reportsWith (.flush now limit), s ∉ start.arrivals es) ∧
      (start.reports es).Nodup ∧
      ∀ (d : Datagram) (s : Serial), l.receiver.takesAsNew d = true →
        d.sequence.val < Serial.half → l.receiver.nextSequence.val ≤ s.val →
        s.val < d.sequence.val → d.sequence.val ≤ s.val + settings.receiveWindow →
        ∀ es' : List Event, (∀ e ∈ es', e.isEarly = true ∧ e.isFlush = false) →
          s ∉ (l.step (.hear d)).arrivals es' →
          ∀ now limit, s ∈ ((l.step (.hear d)).after es').reportsWith (.flush now limit) := by
  intro start l
  obtain ⟨-, -, -, -, -, -, hwindows, -⟩ := Settings.valid_iff.1 hvalid
  have hpos : 0 < settings.receiveWindow := Nat.pos_of_ne_zero fun hzero => hwindows (Or.inl hzero)
  have htracks : l.receiver.Tracks settings (start.arrivals es) (start.reports es) :=
    tracks_after (l := start) (Receiver.tracks_fresh settings) hpos hes
  refine ⟨fun now limit s hs => ?_, htracks.nodup, ?_⟩
  · exact (htracks.lacks s (mem_reportsWith_flush.1 hs)).2
  intro d s hnew hd hnext hlt hwindow es' hes' hnot now limit
  have hskips : l.receiver.Skips d s := ⟨hnext, hlt, by rwa [htracks.windowSize_eq]⟩
  obtain ⟨-, -, -, -, hiff⟩ := Receiver.receive_of_takesAsNew hnew htracks.next_le hd
  rw [← receiver_hear] at hiff
  rw [mem_reportsWith_flush]
  exact lacks_after (tracks_step htracks hpos (e := .hear d) (decide_eq_true hd)) hpos hes'
    ((hiff s).2 (Or.inl hskips)) hnot

/-- A gap that is reported and then filled, and two numbers that are skipped after it. -/
def skipping : List Event :=
  [.hear ⟨Serial.ofNat 0, []⟩, .hear ⟨Serial.ofNat 2, []⟩, .flush 0 1, .hear ⟨Serial.ofNat 1, []⟩]

/-- Of the two, one arrives before the next flush. -/
theorem missing_reported_once_skipping :
    let start := fresh {} 400
    let l := start.after (skipping ++ [.hear ⟨Serial.ofNat 5, []⟩, .hear ⟨Serial.ofNat 3, []⟩])
    start.reports skipping = [Serial.ofNat 1] ∧ Settings.Valid {} ∧
      (∀ e ∈ skipping ++ [.hear ⟨Serial.ofNat 5, []⟩, .hear ⟨Serial.ofNat 3, []⟩],
        e.isEarly = true) ∧
      Serial.ofNat 4 ∈ l.reportsWith (.flush 0 1) ∧
      Serial.ofNat 3 ∉ l.reportsWith (.flush 0 1) := by
  intro start l
  have hvalid : Settings.Valid {} := by decide +kernel
  have hearly : ∀ e ∈ skipping ++ [.hear ⟨Serial.ofNat 5, []⟩, .hear ⟨Serial.ofNat 3, []⟩],
      e.isEarly = true := by decide +kernel
  have hskipping : ∀ e ∈ skipping, e.isEarly = true := fun e he =>
    hearly e (List.mem_append_left _ he)
  refine ⟨?_, hvalid, hearly, ?_, fun hmem => ?_⟩
  · simp only [skipping, reports, reportsWith_flush]
    decide +kernel
  · have hsplit : l = ((start.after skipping).step (.hear ⟨Serial.ofNat 5, []⟩)).after
        [.hear ⟨Serial.ofNat 3, []⟩] := by
      simp only [l, after, List.foldl_append, List.foldl_cons, List.foldl_nil]
    obtain ⟨-, -, hnext⟩ := missing_reported_once hvalid 400 skipping hskipping
    rw [hsplit]
    exact hnext ⟨Serial.ofNat 5, []⟩ (Serial.ofNat 4) (by decide +kernel) (by decide +kernel)
      (by decide +kernel) (by decide +kernel) (by decide +kernel)
      [.hear ⟨Serial.ofNat 3, []⟩] (by decide +kernel) (by decide +kernel) 0 1
  · obtain ⟨hnever, -⟩ := missing_reported_once hvalid 400 _ hearly
    exact hnever 0 1 (Serial.ofNat 3) hmem (by decide +kernel)

end Link

end DatagramTransport

import DatagramTransport.Proofs.Assembly
import DatagramTransport.Proofs.Release
import DatagramTransport.Proofs.Window

/-!
# Reception — what a receiver has taken in of what was sent

The state of a receiver between two messages is a function of two things only: which indexes were
taken in, and in which order parcels were completed. The window holds the first, the assemblies are
the parcels of which a part is taken in, and the channels are what the completed parcels make of
them. **Taking in any message of any parcel keeps the three in step**, in whatever order and however
often messages come, and a parcel is completed once.

A parcel in more pieces than the receiver puts together is never completed.
-/

set_option autoImplicit false

namespace DatagramTransport

/-- The index of a message, if it has one, is below `n`. -/
def Message.Below (m : Message) (n : Nat) : Prop := ∀ s ∈ m.index, s.val < n

/-- What was accepted by a sender with these settings. -/
structure Manifest (settings : Settings) (ps : List Parcel) (t : Tally) : Prop where
  laid : Laid ps t
  few : (Laid.created ps).length < 8388608
  channel_lt : ∀ p ∈ ps, p.channel.toNat < settings.orderChannels
  pieces_le : ∀ p ∈ ps, p.isSplit = true → p.pieces.length ≤ settings.maxFragmentsPerSend

namespace Manifest

variable {settings : Settings} {ps : List Parcel} {t : Tally} {p q : Parcel} {i : Nat}

theorem index_le (h : Manifest settings ps t) : t.index ≤ 8388608 :=
  Nat.le_of_lt (Nat.lt_of_le_of_lt h.laid.index_le h.few)

theorem index_lt (h : Manifest settings ps t) (hp : p ∈ ps) (hr : p.isReliable = true)
    (hi : i < p.pieces.length) : p.first + i < t.index := by
  have hstop := (h.laid.past p hp).stop_le
  rw [Parcel.stop, Parcel.span_of_isReliable hr] at hstop
  omega

theorem length_lt (h : Manifest settings ps t) (hp : p ∈ ps) :
    p.pieces.length < 8388608 :=
  Nat.lt_of_le_of_lt (Laid.length_le_created hp) h.few

theorem place_lt (h : Manifest settings ps t) (hp : p ∈ ps) (ho : p.isOrdered = true) :
    p.place < 8388608 := by
  have hplace := (h.laid.past p hp).place_lt ho
  have hle := h.laid.ordered_le p.channel
  have hfew := h.few
  omega

theorem apart (h : Manifest settings ps t) (hp : p ∈ ps) (hpr : p.isReliable = true)
    (hi : i < p.pieces.length) (hq : q ∈ ps) (hqr : q.isReliable = true) (hne : q ≠ p)
    {j : Nat} (hj : j < q.pieces.length) : q.first + j ≠ p.first + i := by
  intro heq
  refine hne (h.laid.eq_of_index (k := p.first + i) hq hp ?_ ?_)
  · rw [Parcel.stop, Parcel.span_of_isReliable hqr]
    omega
  · rw [Parcel.stop, Parcel.span_of_isReliable hpr]
    omega

theorem below {m : Message} (hm : Manifest settings ps t) (hcreated : m ∈ Laid.created ps) :
    m.Below t.index := by
  obtain ⟨p, hp, hmem⟩ := List.mem_flatMap.1 hcreated
  obtain ⟨i, hi, rfl⟩ := Parcel.mem_messages.1 hmem
  intro s hs
  by_cases hr : p.isReliable = true
  · rw [Parcel.index_message hr, Option.mem_some_iff] at hs
    have hlt := hm.index_lt hp hr hi
    have hle := hm.index_le
    rwa [← hs, Serial.val_ofNat_of_lt (by omega)]
  · rw [show (p.message i p.pieces[i]).index = none from if_neg hr] at hs
    cases hs

end Manifest

namespace Receiver

variable {settings : Settings} {ps done : List Parcel} {t : Tally} {out : List Delivery}
  {r : Receiver} {p q : Parcel} {i k : Nat}

def Registered (r : Receiver) (k : Nat) : Prop := r.messages.Has k

/-- Every index of a parcel was taken in, and the receiver puts that many pieces together. -/
def Whole (settings : Settings) (r : Receiver) (p : Parcel) : Prop :=
  p.pieces.length ≤ settings.maxFragmentCount ∧
    ∀ i < p.pieces.length, r.Registered (p.first + i)

/-- The receiver after completing `done`, in this order, and delivering `out`. -/
structure Reception (settings : Settings) (ps : List Parcel) (t : Tally) (done : List Parcel)
    (out : List Delivery) (r : Receiver) : Prop where
  window : r.messages.Within t.index
  capacity_eq : r.messages.capacity = settings.receiveWindow
  maxFragmentCount_eq : r.assembler.maxFragmentCount = settings.maxFragmentCount
  maxAssemblies_eq : r.assembler.maxAssemblies = settings.maxAssemblies
  collects : r.assembler.Collects ps r.Registered
  yields : Yields done out r.channels settings.orderChannels settings.orderingWindow
  done_mem : ∀ p ∈ done, p ∈ ps
  nodup : (done.filter Parcel.isReliable).Nodup
  complete : ∀ p ∈ ps, p.isReliable = true → (p ∈ done ↔ r.Whole settings p)
  /-- What was taken in of an ordered parcel was not too far ahead. -/
  admitted : ∀ p ∈ ps, p.isOrdered = true → (∃ i < p.pieces.length, r.Registered (p.first + i)) →
    ∀ q ∈ ps, q.isOrderedOn p.channel = true → q.place + settings.orderingWindow ≤ p.place →
      q ∈ done

theorem reception_fresh (settings : Settings) (t : Tally) :
    Reception settings [] t [] [] (Receiver.fresh settings) where
  window := Window.within_fresh _
  capacity_eq := rfl
  maxFragmentCount_eq := rfl
  maxAssemblies_eq := rfl
  collects := Assembler.collects_fresh _ _ fun _ => Window.not_has_fresh _
  yields := yields_fresh _ _
  done_mem := fun p hp => hp
  nodup := List.nodup_nil
  complete := fun p hp => by cases hp
  admitted := fun p hp => by cases hp

/-- If no parcel is too long, a parcel is completed by taking in all of it. -/
theorem Reception.mem_done_iff (hm : Manifest settings ps t)
    (h : Reception settings ps t done out r) (hpos : 0 < settings.maxFragmentCount)
    (hfits : settings.maxFragmentsPerSend ≤ settings.maxFragmentCount) (hp : p ∈ ps)
    (hr : p.isReliable = true) :
    p ∈ done ↔ ∀ i < p.pieces.length, r.Registered (p.first + i) := by
  have hlength : p.pieces.length ≤ settings.maxFragmentCount := by
    by_cases hsplit : p.isSplit = true
    · exact Nat.le_trans (hm.pieces_le p hp hsplit) hfits
    · have hone : ¬ 1 < p.pieces.length := fun hlt => hsplit (decide_eq_true hlt)
      omega
  rw [h.complete p hp hr]
  exact ⟨And.right, fun hall => ⟨hlength, hall⟩⟩

/-! ## What is not taken in leaves no trace

Of a receiver, a message changes at most the window of messages, the assembler and the channels. The
frame lemmas say so once; whatever else a receiver knows of datagrams stays out of the invariant. -/

theorem register_frame (m : Message) (r : Receiver) :
    ∃ messages, r.register m = { r with messages := messages } := by
  unfold register
  split
  · exact ⟨r.messages, rfl⟩
  · exact ⟨_, rfl⟩

theorem process_frame (m : Message) (r : Receiver) : ∃ assembler channels,
    (r.process m).2 = { r with assembler := assembler, channels := channels } := by
  unfold process
  simp only
  split
  · exact ⟨_, r.channels, rfl⟩
  · exact ⟨_, r.channels, rfl⟩
  · split
    · exact ⟨_, r.channels, rfl⟩
    · exact ⟨_, _, rfl⟩

theorem take_frame (m : Message) (r : Receiver) : ∃ messages assembler channels,
    (r.take m).2
      = { r with messages := messages, assembler := assembler, channels := channels } := by
  unfold take
  split
  · exact ⟨r.messages, r.assembler, r.channels, rfl⟩
  · exact ⟨r.messages, r.assembler, r.channels, rfl⟩
  · obtain ⟨messages, hregister⟩ := register_frame m r
    obtain ⟨assembler, channels, hprocess⟩ := process_frame m (r.register m)
    exact ⟨messages, assembler, channels, by rw [hprocess, hregister]⟩

/-! ## Admission

What becomes of a message with an index is decided before anything is touched. Three questions are
asked in turn, whether the index was taken in, whether it is inside of the window, and whether there
is room, and only if the answers are no, yes and yes does the index go into the window. One lemma
for each outcome says what the receiver is then: a duplicate and a deferred message leave it as it
was. -/

theorem take_duplicate {m : Message} {s : Serial} (hindex : m.index = some s)
    (h : r.messages.check s = .duplicate) : r.take m = (.taken [], r) := by
  simp only [take, admission, hindex, h]

theorem take_fresh {m : Message} {s : Serial} (hindex : m.index = some s)
    (h : r.messages.check s = .fresh) (hroom : r.hasRoom m = true) :
    r.take m = { r with messages := (r.messages.insert s).2 }.process m := by
  simp only [take, admission, hindex, h, hroom, if_true, register]

theorem take_deferred {m : Message} {s : Serial} (hindex : m.index = some s)
    (hnot : r.messages.check s ≠ .duplicate)
    (hroom : ¬ (r.messages.check s = .fresh ∧ r.hasRoom m = true)) :
    r.take m = (.deferred, r) := by
  simp only [take, admission, hindex]
  cases h : r.messages.check s with
  | fresh => simp [show r.hasRoom m = false by simpa [h] using hroom]
  | duplicate => exact absurd h hnot
  | beyond => rfl

theorem take_partial {m : Message} {s : Serial} {assembler : Assembler}
    (hindex : m.index = some s) (hfresh : r.messages.check s = .fresh) (hroom : r.hasRoom m = true)
    (h : r.assembler.take m = (.ok none, assembler)) :
    r.take m
      = (.taken [], { r with messages := (r.messages.insert s).2, assembler := assembler }) := by
  rw [take_fresh hindex hfresh hroom]
  simp only [process, h]

theorem take_malformed {m : Message} {s : Serial} {assembler : Assembler} {cause : Malformation}
    (hindex : m.index = some s) (hfresh : r.messages.check s = .fresh) (hroom : r.hasRoom m = true)
    (h : r.assembler.take m = (.error cause, assembler)) :
    r.take m = (.malformed cause,
      { r with messages := (r.messages.insert s).2, assembler := assembler }) := by
  rw [take_fresh hindex hfresh hroom]
  simp only [process, h]

theorem take_complete {m whole : Message} {s : Serial} {assembler : Assembler}
    {channels : Channels} {deliveries : List Delivery} (hindex : m.index = some s)
    (hfresh : r.messages.check s = .fresh) (hroom : r.hasRoom m = true)
    (h : r.assembler.take m = (.ok (some whole), assembler))
    (hrelease : release whole r.channels = .ok (deliveries, channels)) :
    r.take m = (.taken deliveries,
      { r with
        messages := (r.messages.insert s).2
        assembler := assembler
        channels := channels }) := by
  rw [take_fresh hindex hfresh hroom]
  simp only [process, h, hrelease]

theorem hasRoom_iff {x : Octets} : r.hasRoom (p.message i x) = true
    ↔ r.assembler.accepts (p.message i x) = true ∧
      (p.isOrdered = true → r.channels.accepts ⟨Serial.ofNat p.place, p.channel⟩ = true) := by
  have horder : (p.message i x).order = p.mark? := rfl
  have hreliability : (p.message i x).reliability.isOrdered = p.isOrdered := p.isOrdered_sentAs
  simp only [hasRoom, horder, hreliability, Bool.and_eq_true]
  by_cases ho : p.isOrdered = true
  · simp [Parcel.mark?_of_isOrdered ho, ho]
  · cases hmark : p.mark? <;> simp [ho]

/-! ## Taking in a message

A message that is let in adds its index to the window, whatever the assembler makes of it. That one
step for all cases is `Reception.extend`: given an assembler and channels that go with one index
more, and whether its parcel is whole with it, all parts of the invariant are there again. The cases
only have to come up with these. A parcel that was not split goes to the channels at once, a
fragment to the assembler and to the channels if it was the last one, and a fragment of a parcel
that is too long is only registered.

For a fragment the assembler goes by a number of 16 bits, so it has to be shown that the assembly
under this number is that of the parcel (`Reception.alone`). Whatever is open has something missing
at or behind the base of the window and something in it before the end; the window is narrow
enough, or the parcels are few enough, that two such parcels have different numbers.

A message without an index cannot be told from its copies. It leaves window and assembler alone. -/

theorem Reception.has_insert (hm : Manifest settings ps t)
    (h : Reception settings ps t done out r) (hk : k < t.index)
    (hfresh : r.messages.check (Serial.ofNat k) = .fresh) :
    (r.messages.insert (Serial.ofNat k)).2.Within t.index ∧ ¬ r.Registered k ∧
      ∀ j, (r.messages.insert (Serial.ofNat k)).2.Has j ↔ r.Registered j ∨ j = k := by
  obtain ⟨hwithin, -, hhas⟩ := h.window.insert hm.index_le hk hfresh
  exact ⟨hwithin, ((h.window.check_eq_fresh_iff hm.index_le hk).1 hfresh).1, hhas⟩

/-- What was taken in of a parcel that has room is not too far ahead of what is complete. -/
theorem Reception.admitted_of_accepts (hm : Manifest settings ps t)
    (h : Reception settings ps t done out r) (hp : p ∈ ps) (ho : p.isOrdered = true)
    (haccepts : r.channels.accepts ⟨Serial.ofNat p.place, p.channel⟩ = true) :
    ∀ q ∈ ps, q.isOrderedOn p.channel = true → q.place + settings.orderingWindow ≤ p.place →
      q ∈ done := by
  intro q hq hon hle
  have hfilled := (h.yields.accepts_iff (hm.channel_lt p hp) (hm.place_lt hp ho)).1 haccepts
  obtain ⟨q', hq', hon', hplace⟩ := taken_isSome_iff.1 (hfilled q.place hle)
  rwa [← hm.laid.eq_of_place (h.done_mem q' hq') hq hon' hon hplace]

/-- With index `k` every index of a parcel is taken in, and the receiver puts that many pieces
together. -/
def WholeWith (settings : Settings) (r : Receiver) (p : Parcel) (k : Nat) : Prop :=
  p.pieces.length ≤ settings.maxFragmentCount ∧
    ∀ j < p.pieces.length, r.Registered (p.first + j) ∨ p.first + j = k

/-- What is complete after index `k` of a parcel: as much as before, and the parcel if it is whole
with this index. -/
inductive Completes (settings : Settings) (r : Receiver) (p : Parcel) (k : Nat)
    (done : List Parcel) : List Parcel → Prop where
  | partly (missing : ¬ r.WholeWith settings p k) : Completes settings r p k done done
  | wholly (whole : r.WholeWith settings p k) : Completes settings r p k done (done ++ [p])

namespace Completes

variable {done' : List Parcel} (h : Completes settings r p k done done')

include h

theorem mem_iff : q ∈ done' ↔ q ∈ done ∨ q = p ∧ r.WholeWith settings p k := by
  cases h with
  | partly missing => exact (or_iff_left fun hself => missing hself.2).symm
  | wholly whole => rw [List.mem_append, List.mem_singleton, and_iff_left whole]

theorem nodup (hnodup : (done.filter Parcel.isReliable).Nodup) (hnotin : p ∉ done) :
    (done'.filter Parcel.isReliable).Nodup := by
  cases h with
  | partly _ => exact hnodup
  | wholly _ =>
    rw [List.filter_append, List.nodup_append]
    refine ⟨hnodup, (List.nodup_singleton p).filter _, fun x hx y hy => ?_⟩
    rintro rfl
    rw [List.mem_singleton.1 (List.mem_filter.1 hy).1] at hx
    exact hnotin (List.mem_filter.1 hx).1

end Completes

/-- **One index more was taken in, and the parcel that it belongs to was completed if that was the
last one.** -/
theorem Reception.extend {done' : List Parcel} {out' : List Delivery} {assembler : Assembler}
    {channels : Channels} (hm : Manifest settings ps t)
    (h : Reception settings ps t done out r) (hp : p ∈ ps) (hr : p.isReliable = true)
    (hi : i < p.pieces.length)
    (hfresh : r.messages.check (Serial.ofNat (p.first + i)) = .fresh)
    (hroom : p.isOrdered = true →
      r.channels.accepts ⟨Serial.ofNat p.place, p.channel⟩ = true)
    (hmax : assembler.maxFragmentCount = settings.maxFragmentCount)
    (hmax' : assembler.maxAssemblies = settings.maxAssemblies)
    (hcollects : assembler.Collects ps fun k => r.Registered k ∨ k = p.first + i)
    (hyields : Yields done' out' channels settings.orderChannels settings.orderingWindow)
    (hdone : r.Completes settings p (p.first + i) done done') :
    Reception settings ps t done' out'
      { r with
        messages := (r.messages.insert (Serial.ofNat (p.first + i))).2
        assembler := assembler
        channels := channels } := by
  obtain ⟨hwithin, hnew, hhas⟩ := h.has_insert hm (hm.index_lt hp hr hi) hfresh
  -- this index was missing, so the parcel was not complete
  have hnotin : p ∉ done := fun hin => hnew (((h.complete p hp hr).1 hin).2 i hi)
  refine ⟨hwithin, ?_, hmax, hmax', ?_, hyields, fun q hq => ?_, hdone.nodup h.nodup hnotin,
    fun q hq hqr => ?_, fun q hq ho hstarted q' hq' hon hle => ?_⟩
  · rw [Window.capacity_insert, h.capacity_eq]
  · exact hcollects.congr fun q _ _ _ j _ => (hhas _).symm
  · rcases hdone.mem_iff.1 hq with hbefore | ⟨rfl, -⟩
    · exact h.done_mem q hbefore
    · exact hp
  · rw [hdone.mem_iff]
    unfold Whole Registered
    simp only [hhas]
    by_cases hqp : q = p
    · rw [hqp, or_iff_right hnotin, and_iff_right rfl]
      rfl
    · rw [or_iff_left fun hself => hqp hself.1, h.complete q hq hqr]
      refine and_congr_right fun _ => forall_congr' fun j => forall_congr' fun hj => ?_
      exact (or_iff_left (hm.apart hp hr hi hq hqr hqp hj)).symm
  · refine hdone.mem_iff.2 (Or.inl ?_)
    -- either it is the parcel that was let in now, or it was let in before
    by_cases hqp : q = p
    · subst hqp
      exact h.admitted_of_accepts hm hq ho (hroom ho) q' hq' hon hle
    · obtain ⟨j, hj, hstarted⟩ := hstarted
      have hqr := Parcel.isReliable_of_isOrdered ho
      refine h.admitted q hq ho ⟨j, hj, ?_⟩ q' hq' hon hle
      exact ((hhas _).1 hstarted).resolve_right (hm.apart hp hr hi hq hqr hqp hj)

theorem Reception.taken_eq_none (hm : Manifest settings ps t)
    (h : Reception settings ps t done out r) (hp : p ∈ ps) (ho : p.isOrdered = true)
    (hnotin : p ∉ done) : taken done p.channel p.place = none := by
  rw [← Option.not_isSome_iff_eq_none]
  intro hsome
  obtain ⟨q, hq, hon, hplace⟩ := taken_isSome_iff.1 hsome
  have hself : p.isOrderedOn p.channel = true := Parcel.isOrderedOn_iff.2 ⟨ho, rfl⟩
  rw [hm.laid.eq_of_place (h.done_mem q hq) hp hon hself hplace] at hq
  exact hnotin hq

/-- Something of an open parcel is missing, and something of it is inside of the window. -/
theorem Reception.open_bounds (h : Reception settings ps t done out r)
    (hopen : Assembler.Open p r.assembler.maxFragmentCount r.Registered) :
    r.messages.base.val < p.stop ∧ p.first < r.messages.base.val + settings.receiveWindow := by
  obtain ⟨i, hi, hhas⟩ := hopen.started
  obtain ⟨j, hj, hmissing⟩ := hopen.missing
  have hr := Parcel.isReliable_of_isSplit hopen.isSplit
  have hreach := h.window.has_lt hhas
  have hbase : r.messages.base.val ≤ p.first + j := Nat.le_of_not_lt fun hlt =>
    hmissing (Window.has_of_lt_base hlt)
  rw [h.capacity_eq] at hreach
  rw [Parcel.stop, Parcel.span_of_isReliable hr]
  omega

/-- A message that carries no index is delivered as often as it comes. -/
theorem Reception.take_unreliable (hm : Manifest settings ps t)
    (h : Reception settings ps t done out r) (hp : p ∈ ps) (hr : p.isReliable = false) :
    ∃ done', Reception settings ps t done' (out ++ (r.take p.whole).1.deliveries)
      (r.take p.whole).2 := by
  have ho : ¬ p.isOrdered = true := by
    intro ho
    rw [Parcel.isReliable_of_isOrdered ho] at hr
    cases hr
  have hindex : p.whole.index = none := if_neg (by simp [hr])
  obtain ⟨more, channels, hrelease, hyields⟩ := h.yields.release (hm.channel_lt p hp)
    (fun hordered => absurd hordered ho) (fun hordered => absurd hordered ho)
  have htake : r.take p.whole = (.taken more, { r with channels := channels }) := by
    have hfragment : p.whole.fragment = none := rfl
    simp only [Receiver.take, admission, register, hindex, process, Assembler.take, hfragment,
      hrelease]
  rw [htake]
  refine ⟨done ++ [p], h.window, h.capacity_eq, h.maxFragmentCount_eq, h.maxAssemblies_eq,
    h.collects, hyields, fun q hq => ?_, ?_, fun q hq hqr => ?_,
    fun q hq ho hstarted q' hq' hon hle => ?_⟩
  · rcases List.mem_append.1 hq with hq | hq
    · exact h.done_mem q hq
    · rwa [List.mem_singleton.1 hq]
  · rw [List.filter_append, List.filter_cons_of_neg (by simp [hr]), List.filter_nil,
      List.append_nil]
    exact h.nodup
  · have hne : q ≠ p := by
      rintro rfl
      rw [hqr] at hr
      cases hr
    rw [List.mem_append, List.mem_singleton, or_iff_left hne]
    exact h.complete q hq hqr
  · exact List.mem_append_left _ (h.admitted q hq ho hstarted q' hq' hon hle)

theorem Reception.alone (hm : Manifest settings ps t)
    (spaced : settings.receiveWindow ≤ 131071 ∨ t.cuts ≤ 65536)
    (h : Reception settings ps t done out r) (hp : p ∈ ps) (hs : p.isSplit = true)
    (hi : i < p.pieces.length)
    (hfresh : r.messages.check (Serial.ofNat (p.first + i)) = .fresh) :
    ∀ q ∈ ps, Assembler.Open q r.assembler.maxFragmentCount r.Registered →
      UInt16.ofNat q.cut = UInt16.ofNat p.cut → q = p := by
  intro q hq hopen hid
  have hr := Parcel.isReliable_of_isSplit hs
  obtain ⟨hnew, hreach⟩ :=
    (h.window.check_eq_fresh_iff hm.index_le (hm.index_lt hp hr hi)).1 hfresh
  obtain ⟨hqbase, hqreach⟩ := h.open_bounds hopen
  have hbase : r.messages.base.val ≤ p.first + i := Nat.le_of_not_lt fun hlt =>
    hnew (Window.has_of_lt_base hlt)
  have hstop : p.stop = p.first + p.pieces.length := by
    rw [Parcel.stop, Parcel.span_of_isReliable hr]
  rw [h.capacity_eq] at hreach
  exact hm.laid.eq_of_id spaced hq hp hopen.isSplit hs hid hqbase hqreach (by omega) (by omega)

/-- An index of a parcel that is not put together does not matter to the assembler. -/
theorem Reception.collects_other (hm : Manifest settings ps t)
    (h : Reception settings ps t done out r) (hp : p ∈ ps) (hr : p.isReliable = true)
    (hi : i < p.pieces.length)
    (hother : ¬ (p.isSplit = true ∧ p.pieces.length ≤ settings.maxFragmentCount)) :
    r.assembler.Collects ps fun k => r.Registered k ∨ k = p.first + i := by
  refine h.collects.congr fun q hq hqs hqfits j hj => (or_iff_left ?_).symm
  have hne : q ≠ p := by
    rintro rfl
    rw [h.maxFragmentCount_eq] at hqfits
    exact hother ⟨hqs, hqfits⟩
  exact hm.apart hp hr hi hq (Parcel.isReliable_of_isSplit hqs) hne hj

theorem Reception.release (hm : Manifest settings ps t) (h : Reception settings ps t done out r)
    (hp : p ∈ ps) (hr : p.isReliable = true) (hi : i < p.pieces.length)
    (hfresh : r.messages.check (Serial.ofNat (p.first + i)) = .fresh) :
    ∃ more channels, Receiver.release p.whole r.channels = .ok (more, channels) ∧
      Yields (done ++ [p]) (out ++ more) channels settings.orderChannels
        settings.orderingWindow := by
  obtain ⟨-, hnew, -⟩ := h.has_insert hm (hm.index_lt hp hr hi) hfresh
  have hnotin : p ∉ done := fun hin => hnew (((h.complete p hp hr).1 hin).2 i hi)
  exact h.yields.release (hm.channel_lt p hp) (hm.place_lt hp)
    fun ho => h.taken_eq_none hm hp ho hnotin

theorem Reception.take_fragment (hm : Manifest settings ps t)
    (spaced : settings.receiveWindow ≤ 131071 ∨ t.cuts ≤ 65536)
    (h : Reception settings ps t done out r) (hp : p ∈ ps) (hs : p.isSplit = true)
    (hfits : p.pieces.length ≤ settings.maxFragmentCount) (hi : i < p.pieces.length)
    (hfresh : r.messages.check (Serial.ofNat (p.first + i)) = .fresh)
    (hroom : r.hasRoom (p.message i p.pieces[i]) = true) :
    ∃ done', Reception settings ps t done'
      (out ++ (r.take (p.message i p.pieces[i])).1.deliveries)
      (r.take (p.message i p.pieces[i])).2 := by
  have hr := Parcel.isReliable_of_isSplit hs
  have hindex := Parcel.index_message hr i p.pieces[i]
  obtain ⟨hsplits, hordering⟩ := hasRoom_iff.1 hroom
  obtain ⟨-, hnew, -⟩ := h.has_insert hm (hm.index_lt hp hr hi) hfresh
  have hlength : p.pieces.length < 4294967296 := Nat.lt_trans (hm.length_lt hp) (by decide)
  obtain ⟨result, assembler, htake, hmax, hmax', hcollects, hresult⟩ :=
    h.collects.take hp hs (by rwa [h.maxFragmentCount_eq]) hlength hi hnew hsplits
      (h.alone hm spaced hp hs hi hfresh)
      fun q hq hqs hne j hj => hm.apart hp hr hi hq (Parcel.isReliable_of_isSplit hqs) hne hj
  rw [h.maxFragmentCount_eq] at hmax
  rw [h.maxAssemblies_eq] at hmax'
  rcases hresult with ⟨hall, rfl⟩ | ⟨hsome, rfl⟩
  · obtain ⟨more, channels, hrelease, hyields⟩ := h.release hm hp hr hi hfresh
    rw [take_complete hindex hfresh hroom htake hrelease]
    exact ⟨_, h.extend hm hp hr hi hfresh hordering hmax hmax' hcollects hyields
      (.wholly ⟨hfits, hall⟩)⟩
  · rw [take_partial hindex hfresh hroom htake]
    refine ⟨done, h.extend hm hp hr hi hfresh hordering hmax hmax' hcollects ?_
      (.partly fun hall => ?_)⟩
    · rw [show (Intake.taken []).deliveries = [] from rfl, List.append_nil]
      exact h.yields
    · obtain ⟨j, hj, hmissing⟩ := hsome
      exact hmissing (hall.2 j hj)

/-- A fragment of a parcel that is too long is registered and thrown away. -/
theorem Reception.take_overlong (hm : Manifest settings ps t)
    (h : Reception settings ps t done out r) (hp : p ∈ ps) (hs : p.isSplit = true)
    (hfits : ¬ p.pieces.length ≤ settings.maxFragmentCount) (hi : i < p.pieces.length)
    (hfresh : r.messages.check (Serial.ofNat (p.first + i)) = .fresh)
    (hroom : r.hasRoom (p.message i p.pieces[i]) = true) :
    ∃ done', Reception settings ps t done'
      (out ++ (r.take (p.message i p.pieces[i])).1.deliveries)
      (r.take (p.message i p.pieces[i])).2 := by
  have hr := Parcel.isReliable_of_isSplit hs
  have hlength : p.pieces.length < 4294967296 := Nat.lt_trans (hm.length_lt hp) (by decide)
  have hlong : ¬ p.pieces.length ≤ r.assembler.maxFragmentCount := by
    rwa [h.maxFragmentCount_eq]
  obtain ⟨cause, htake⟩ := Assembler.take_of_not_fits hs hlength hi hlong
  rw [take_malformed (Parcel.index_message hr i p.pieces[i]) hfresh hroom htake]
  refine ⟨done, h.extend hm hp hr hi hfresh (hasRoom_iff.1 hroom).2 h.maxFragmentCount_eq
    h.maxAssemblies_eq (h.collects_other hm hp hr hi fun hboth => hfits hboth.2) ?_
    (.partly fun hall => hfits hall.1)⟩
  rw [show (Intake.malformed cause).deliveries = [] from rfl, List.append_nil]
  exact h.yields

/-- A parcel that was not split is complete when its one message comes. -/
theorem Reception.take_unsplit (hm : Manifest settings ps t)
    (hpos : 0 < settings.maxFragmentCount) (h : Reception settings ps t done out r)
    (hp : p ∈ ps) (hr : p.isReliable = true) (hs : p.isSplit = false) (hi : i < p.pieces.length)
    (hfresh : r.messages.check (Serial.ofNat (p.first + i)) = .fresh)
    (hroom : r.hasRoom (p.message i p.pieces[i]) = true) :
    ∃ done', Reception settings ps t done'
      (out ++ (r.take (p.message i p.pieces[i])).1.deliveries)
      (r.take (p.message i p.pieces[i])).2 := by
  obtain ⟨rfl, hwhole⟩ := Parcel.message_eq_whole hs hi
  have hone : p.pieces.length = 1 := by
    rw [Parcel.pieces_of_not_isSplit hs]
    rfl
  have htake : r.assembler.take (p.message 0 p.pieces[0]) = (.ok (some p.whole), r.assembler) := by
    have hfragment : p.whole.fragment = none := rfl
    simp only [hwhole, Assembler.take, hfragment]
  obtain ⟨more, channels, hrelease, hyields⟩ := h.release hm hp hr hi hfresh
  rw [take_complete (Parcel.index_message hr 0 p.pieces[0]) hfresh hroom htake hrelease]
  refine ⟨_, h.extend hm hp hr hi hfresh (hasRoom_iff.1 hroom).2 h.maxFragmentCount_eq
    h.maxAssemblies_eq (h.collects_other hm hp hr hi fun hboth => ?_) hyields
    (.wholly ⟨by omega, fun j hj => Or.inr ?_⟩)⟩
  · rw [hs] at hboth
    cases hboth.1
  · rw [show j = 0 by omega]

theorem Reception.take_new (hm : Manifest settings ps t)
    (spaced : settings.receiveWindow ≤ 131071 ∨ t.cuts ≤ 65536)
    (hpos : 0 < settings.maxFragmentCount) (h : Reception settings ps t done out r)
    (hp : p ∈ ps) (hr : p.isReliable = true) (hi : i < p.pieces.length)
    (hfresh : r.messages.check (Serial.ofNat (p.first + i)) = .fresh)
    (hroom : r.hasRoom (p.message i p.pieces[i]) = true) :
    ∃ done', Reception settings ps t done'
      (out ++ (r.take (p.message i p.pieces[i])).1.deliveries)
      (r.take (p.message i p.pieces[i])).2 := by
  cases hs : p.isSplit with
  | false => exact h.take_unsplit hm hpos hp hr hs hi hfresh hroom
  | true =>
    by_cases hfits : p.pieces.length ≤ settings.maxFragmentCount
    · exact h.take_fragment hm spaced hp hs hfits hi hfresh hroom
    · exact h.take_overlong hm hp hs hfits hi hfresh hroom

/-- **Whatever message of a parcel comes, it leaves the receiver in step.** -/
theorem Reception.take (hm : Manifest settings ps t)
    (spaced : settings.receiveWindow ≤ 131071 ∨ t.cuts ≤ 65536)
    (hpos : 0 < settings.maxFragmentCount) (h : Reception settings ps t done out r)
    (hp : p ∈ ps) (hi : i < p.pieces.length) :
    ∃ done', Reception settings ps t done'
      (out ++ (r.take (p.message i p.pieces[i])).1.deliveries)
      (r.take (p.message i p.pieces[i])).2 := by
  by_cases hr : p.isReliable = true
  · have hindex := Parcel.index_message hr i p.pieces[i]
    by_cases hduplicate : r.messages.check (Serial.ofNat (p.first + i)) = .duplicate
    · rw [take_duplicate hindex hduplicate]
      exact ⟨done, by simpa [Intake.deliveries] using h⟩
    · by_cases hadmitted : r.messages.check (Serial.ofNat (p.first + i)) = .fresh ∧
          r.hasRoom (p.message i p.pieces[i]) = true
      · exact h.take_new hm spaced hpos hp hr hi hadmitted.1 hadmitted.2
      · rw [take_deferred hindex hduplicate hadmitted]
        exact ⟨done, by simpa [Intake.deliveries] using h⟩
  · have hs : p.isSplit = false := by
      rw [Bool.eq_false_iff]
      exact fun hs => hr (Parcel.isReliable_of_isSplit hs)
    rw [(Parcel.message_eq_whole hs hi).2]
    exact h.take_unreliable hm hp (by simpa using hr)

/-! ## What else may happen

The sender accepts another parcel while the receiver stands still. The invariant has to take it in
as well: it is about all parcels so far, and of the new one nothing has come yet, as its indexes lie
behind all that the window has. -/

/-- Nothing of a parcel that is only now accepted was taken in. -/
theorem Reception.accept (numbered : p.NumberedFrom t) (before : Laid ps t)
    (h : Reception settings ps t done out r) :
    Reception settings (ps ++ [p]) (t.after p) done out r := by
  -- its indexes begin where the window has not been
  have hnone : ∀ i, ¬ r.Registered (p.first + i) := by
    intro i hhas
    have := h.window.below _ hhas
    have := numbered.first_eq
    omega
  have hnotin : p.isReliable = true → p ∉ done := by
    intro hr hin
    have hstop := (before.past p (h.done_mem p hin)).stop_le
    have hfirst := numbered.first_eq
    have hpos := p.length_pos
    rw [Parcel.stop, Parcel.span_of_isReliable hr] at hstop
    omega
  have hsplit : ∀ q ∈ ps ++ [p], q ∈ ps ∨ q = p := by
    intro q hq
    rcases List.mem_append.1 hq with hq | hq
    · exact Or.inl hq
    · exact Or.inr (List.mem_singleton.1 hq)
  refine ⟨h.window.mono (Nat.le_add_right _ _), h.capacity_eq, h.maxFragmentCount_eq,
    h.maxAssemblies_eq, ⟨fun q hq hopen => ?_, fun id hid => ?_⟩, h.yields,
    fun q hq => List.mem_append_left _ (h.done_mem q hq), h.nodup, fun q hq hqr => ?_,
    fun q hq ho hstarted q' hq' hon hle => ?_⟩
  · rcases hsplit q hq with hq | rfl
    · exact h.collects.gathered q hq hopen
    · obtain ⟨i, -, hhas⟩ := hopen.started
      exact absurd hhas (hnone i)
  · obtain ⟨q, hq, hopen, heq⟩ := h.collects.only id hid
    exact ⟨q, List.mem_append_left _ hq, hopen, heq⟩
  · rcases hsplit q hq with hq | rfl
    · exact h.complete q hq hqr
    · exact iff_of_false (hnotin hqr) fun hwhole => hnone 0 (hwhole.2 0 q.length_pos)
  · obtain ⟨i, hi, hhas⟩ := hstarted
    rcases hsplit q hq with hqps | rfl
    · rcases hsplit q' hq' with hqps' | rfl
      · exact h.admitted q hqps ho ⟨i, hi, hhas⟩ q' hqps' hon hle
      · obtain ⟨ho', hchannel⟩ := Parcel.isOrderedOn_iff.1 hon
        have hlt := (before.past q hqps).place_lt ho
        have heq := numbered.ordered_eq ho'
        rw [hchannel] at heq
        omega
    · exact absurd hhas (hnone i)

theorem Reception.congr {r' : Receiver} (h : Reception settings ps t done out r)
    (hmessages : r'.messages = r.messages) (hassembler : r'.assembler = r.assembler)
    (hchannels : r'.channels = r.channels) : Reception settings ps t done out r' := by
  have hregistered : r'.Registered = r.Registered := by
    funext k
    rw [Registered, Registered, hmessages]
  have hwhole : ∀ p, r'.Whole settings p ↔ r.Whole settings p := by
    intro p
    rw [Whole, Whole, hregistered]
  exact ⟨by rw [hmessages]; exact h.window, by rw [hmessages]; exact h.capacity_eq,
    by rw [hassembler]; exact h.maxFragmentCount_eq,
    by rw [hassembler]; exact h.maxAssemblies_eq,
    by rw [hassembler, hregistered]; exact h.collects, by rw [hchannels]; exact h.yields,
    h.done_mem, h.nodup, fun p hp hr => (h.complete p hp hr).trans (hwhole p).symm,
    by rw [hregistered]; exact h.admitted⟩

/-! ## What came out

From here on no step is taken. A channel has brought out the places that were filled without a gap
from zero on, and the layout says to which parcels these belong: the first of the channel, in the
order in which they were accepted. With nothing missing they are all of them. -/

def orderedInput (c : UInt8) (ps : List Parcel) : List Octets :=
  (ps.filter (Parcel.isOrderedOn c)).map Parcel.payload

/-- The places before `n` belong to the first `n` parcels of the channel. -/
theorem between_taken (hm : Manifest settings ps t) (hmem : ∀ p ∈ done, p ∈ ps) {c : UInt8}
    {n : Nat} (hfilled : ∀ k < n, (taken done c k).isSome) :
    Channel.between (taken done c) 0 n = (orderedInput c ps).take n := by
  have hplaces := hm.laid.places c
  have hn : n ≤ t.ordered c := Nat.le_of_not_lt fun hlt => by
    obtain ⟨p, hp, hon, hplace⟩ := taken_isSome_iff.1 (hfilled (t.ordered c) hlt)
    obtain ⟨ho, hc⟩ := Parcel.isOrderedOn_iff.1 hon
    have := (hm.laid.past p (hmem p hp)).place_lt ho
    rw [hc] at this
    omega
  -- the places are counted up, so the first `n` of them belong to the first `n` parcels
  have hrange : List.range' 0 (n - 0)
      = ((ps.filter (Parcel.isOrderedOn c)).take n).map Parcel.place := by
    rw [List.map_take, hplaces, List.take_range, Nat.min_eq_left hn, List.range_eq_range',
      Nat.sub_zero]
  have htaken : ∀ p ∈ (ps.filter (Parcel.isOrderedOn c)).take n,
      (taken done c ∘ Parcel.place) p = some p.payload := by
    intro p hp
    obtain ⟨hpmem, hpon⟩ := List.mem_filter.1 (List.mem_of_mem_take hp)
    have hlt : p.place < n := by
      have hin : p.place ∈ List.range' 0 (n - 0) := hrange ▸ List.mem_map_of_mem hp
      rw [List.mem_range'_1] at hin
      omega
    obtain ⟨x, hx⟩ := Option.isSome_iff_exists.1 (hfilled p.place hlt)
    obtain ⟨q, hfind, rfl⟩ := Option.map_eq_some_iff.1 hx
    have hq := List.find?_some hfind
    rw [Bool.and_eq_true, beq_iff_eq] at hq
    rw [Function.comp_apply, hx,
      hm.laid.eq_of_place (hmem q (List.mem_of_find?_eq_some hfind)) hpmem hq.1 hpon hq.2]
  rw [Channel.between, hrange, List.filterMap_map, orderedInput, ← List.map_take,
    List.filterMap_congr htaken, ← List.filterMap_eq_map]
  rfl

/-- **What came out in the order of a channel is the beginning of what was accepted in it.** -/
theorem Reception.output_prefix (hm : Manifest settings ps t)
    (h : Reception settings ps t done out r) (c : UInt8) :
    orderedOutput c out <+: orderedInput c ps := by
  by_cases hc : c.toNat < settings.orderChannels
  · obtain ⟨channel, next, -, hreads, hout⟩ := h.yields.reads c hc
    rw [hout, between_taken hm h.done_mem hreads.filled]
    exact List.take_prefix _ _
  · -- nothing comes out of a channel that there is not
    have hnone : orderedOutput c out = [] := by
      rw [orderedOutput, List.map_eq_nil_iff, List.filter_eq_nil_iff]
      intro d hd hon
      rw [Delivery.isOrderedOn, Bool.and_eq_true, beq_iff_eq] at hon
      have hlt := h.yields.channel_lt d hd hon.1
      rw [hon.2] at hlt
      exact hc hlt
    rw [hnone]
    exact List.nil_prefix

theorem Reception.output_eq (hm : Manifest settings ps t)
    (h : Reception settings ps t done out r) (c : UInt8)
    (hall : ∀ p ∈ ps, p.isOrderedOn c = true → p ∈ done) :
    orderedOutput c out = orderedInput c ps := by
  obtain ⟨rest, hrest⟩ := h.output_prefix hm c
  by_cases hc : c.toNat < settings.orderChannels
  · obtain ⟨channel, next, -, hreads, hout⟩ := h.yields.reads c hc
    rw [hout, between_taken hm h.done_mem hreads.filled, List.take_of_length_le]
    have hlength : (orderedInput c ps).length = t.ordered c := by
      have := congrArg List.length (hm.laid.places c)
      rwa [List.length_map, List.length_range, ← List.length_map (f := Parcel.payload)] at this
    rw [hlength]
    by_contra hlt
    obtain ⟨p, hp, hon, hplace⟩ := hm.laid.placed (c := c) (k := next) (by omega)
    have hsome := taken_isSome_iff.2 ⟨p, hall p hp hon, hon, hplace⟩
    rw [hreads.missing] at hsome
    cases hsome
  · have hnone : orderedInput c ps = [] := by
      rw [orderedInput, List.map_eq_nil_iff, List.filter_eq_nil_iff]
      intro p hp hon
      have hlt := hm.channel_lt p hp
      rw [(Parcel.isOrderedOn_iff.1 hon).2] at hlt
      exact hc hlt
    rw [hnone] at hrest ⊢
    exact (List.append_eq_nil_iff.1 hrest).1

/-- With every reliable parcel complete, the plain ones among them came out once each. -/
theorem Reception.plain_perm (hm : Manifest settings ps t)
    (h : Reception settings ps t done out r)
    (hall : ∀ p ∈ ps, p.isReliable = true → p ∈ done) :
    (out.filter fun d => d.reliability.isReliable && d.isPlain).Perm
      ((ps.filter fun p => p.isPlain && p.isReliable).map Parcel.delivery) := by
  have hout : (out.filter fun d => d.reliability.isReliable && d.isPlain)
      = (done.filter fun p => p.isPlain && p.isReliable).map Parcel.delivery := by
    rw [← List.filter_filter, h.yields.plain, List.filter_map, List.filter_filter]
    refine congrArg (List.map _) (List.filter_congr fun p _ => ?_)
    exact Bool.and_comm _ _
  rw [hout]
  refine List.Perm.map _ ((List.perm_ext_iff_of_nodup ?_ ?_).2 fun p => ?_)
  · rw [← List.filter_filter]
    exact h.nodup.filter _
  · rw [← List.filter_filter]
    exact hm.laid.nodup_reliable.filter _
  · simp only [List.mem_filter, Bool.and_eq_true]
    constructor
    · rintro ⟨hp, hplain, hr⟩
      exact ⟨h.done_mem p hp, hplain, hr⟩
    · rintro ⟨hp, hplain, hr⟩
      exact ⟨hall p hp hr, hplain, hr⟩

end Receiver

end DatagramTransport

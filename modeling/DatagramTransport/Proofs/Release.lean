import DatagramTransport.Proofs.Channel
import DatagramTransport.Proofs.Parcel
import DatagramTransport.Receiver.Basic

/-!
# What comes out of complete parcels

Parcels are completed one after the other, and each is released into the channels at that moment.
Whatever the order of completion, **an ordered channel brings out the payloads from place zero as
far as they are complete**, and a parcel without a place in an order comes out at once and as
itself. The sequenced parcels in between disturb neither.
-/

set_option autoImplicit false

namespace DatagramTransport

namespace Delivery

def isOrderedOn (channel : UInt8) (d : Delivery) : Bool :=
  d.reliability.isOrdered && d.channel == channel

def isPlain (d : Delivery) : Bool := !d.reliability.hasOrder

end Delivery

namespace Parcel

def isPlain (p : Parcel) : Bool := !p.reliability.hasOrder

def delivery (p : Parcel) : Delivery := ⟨p.sentAs, 0, p.payload⟩

/-- Payloads that come out with an ordered parcel, under its guarantee and on its channel. -/
def deliveries (p : Parcel) (payloads : List Octets) : List Delivery :=
  payloads.map fun payload => ⟨p.reliability, p.channel, payload⟩

@[simp] theorem isSequenced_sentAs (p : Parcel) :
    p.sentAs.isSequenced = p.reliability.isSequenced := by
  unfold sentAs
  split <;> simp

@[simp] theorem hasOrder_sentAs (p : Parcel) : p.sentAs.hasOrder = p.reliability.hasOrder := by
  simp only [Reliability.hasOrder, isOrdered_sentAs, isSequenced_sentAs]
  rfl

end Parcel

namespace Receiver

variable {done : List Parcel} {out : List Delivery} {cs : Channels} {p : Parcel}
  {count window : Nat} {c : UInt8}

/-! ## Payloads by their places

For an ordered channel the complete parcels are a map from places to payloads, with holes. What the
channel does with such a map is known (`Channel.Reads`): it has brought out the places up to the
first hole, and holds those behind it. Here it is only said how the map grows with a parcel. -/

/-- The payloads of complete parcels by their places on a channel. -/
def taken (done : List Parcel) (c : UInt8) (k : Nat) : Option Octets :=
  (done.find? fun p => p.isOrderedOn c && p.place == k).map Parcel.payload

theorem taken_isSome_iff {k : Nat} :
    (taken done c k).isSome ↔ ∃ p ∈ done, p.isOrderedOn c = true ∧ p.place = k := by
  simp [taken]

theorem taken_append_of_not (h : p.isOrderedOn c = false) :
    taken (done ++ [p]) c = taken done c := by
  funext k
  simp [taken, List.find?_append, h]

theorem taken_append (h : p.isOrderedOn c = true) (hnew : taken done c p.place = none) :
    taken (done ++ [p]) c = Channel.fill (taken done c) p.place p.payload := by
  funext k
  unfold taken at hnew ⊢
  rw [List.find?_append]
  by_cases hk : k = p.place
  · subst hk
    rw [Option.map_eq_none_iff] at hnew
    rw [hnew, Channel.fill_self]
    simp [h]
  · have hne : (p.place == k) = false := beq_eq_false_iff_ne.2 fun heq => hk heq.symm
    rw [Channel.fill_of_ne _ hk]
    simp [h, hne]

def orderedOutput (c : UInt8) (out : List Delivery) : List Octets :=
  (out.filter (Delivery.isOrderedOn c)).map Delivery.payload

theorem orderedOutput_append (c : UInt8) (out more : List Delivery) :
    orderedOutput c (out ++ more) = orderedOutput c out ++ orderedOutput c more := by
  simp [orderedOutput]

theorem orderedOutput_of_not {more : List Delivery}
    (h : ∀ d ∈ more, d.reliability.isOrdered = false) : orderedOutput c more = [] := by
  rw [orderedOutput, List.map_eq_nil_iff, List.filter_eq_nil_iff]
  intro d hd
  simp [Delivery.isOrderedOn, h d hd]

theorem orderedOutput_deliveries (ho : p.isOrdered = true) (payloads : List Octets) :
    orderedOutput c (p.deliveries payloads) = if p.channel = c then payloads else [] := by
  have hr : p.reliability.isOrdered = true := ho
  unfold orderedOutput Parcel.deliveries
  split
  next hc =>
    rw [List.filter_eq_self.2, List.map_map]
    · exact List.map_id _
    · intro d hd
      obtain ⟨payload, -, rfl⟩ := List.mem_map.1 hd
      simp [Delivery.isOrderedOn, hr, hc]
  next hc =>
    rw [List.map_eq_nil_iff, List.filter_eq_nil_iff]
    intro d hd
    obtain ⟨payload, -, rfl⟩ := List.mem_map.1 hd
    simp [Delivery.isOrderedOn, hc]

/-! ## What comes out

The invariant says of each channel how far it has read the map of its payloads, and that all that
came out in order there are the payloads up to that point. It speaks of what came out in order and
of what is plain, and is silent on the sequenced parcels, of which an outdated one is dropped. -/

/-- The channels, and what was delivered, after some parcels were completed in this order. -/
structure Yields (done : List Parcel) (out : List Delivery) (cs : Channels)
    (count window : Nat) : Prop where
  count_eq : cs.channels.length = count
  window_eq : cs.window = window
  reads : ∀ c : UInt8, c.toNat < count → ∃ channel next, cs.get? c = some channel ∧
    channel.Reads (taken done c) next ∧
    orderedOutput c out = Channel.between (taken done c) 0 next
  channel_lt : ∀ d ∈ out, d.reliability.isOrdered = true → d.channel.toNat < count
  plain : out.filter Delivery.isPlain = (done.filter Parcel.isPlain).map Parcel.delivery

theorem get?_fresh_of_lt (window : Nat) (hc : c.toNat < count) :
    (Channels.fresh count window).get? c = some Channel.fresh := by
  simp [Channels.get?, Channels.fresh, hc]

theorem yields_fresh (count window : Nat) :
    Yields [] [] (Channels.fresh count window) count window where
  count_eq := List.length_replicate
  window_eq := rfl
  reads := fun c hc => ⟨Channel.fresh, 0, get?_fresh_of_lt window hc, Channel.reads_fresh, rfl⟩
  channel_lt := fun d hd => by cases hd
  plain := rfl

/-- An ordered message has room if every place that is a window or more behind it was taken in. -/
theorem Yields.accepts_iff (h : Yields done out cs count window) (hc : c.toNat < count) {k : Nat}
    (hk : k < 8388608) : cs.accepts ⟨Serial.ofNat k, c⟩ = true
      ↔ ∀ j, j + window ≤ k → (taken done c j).isSome := by
  obtain ⟨channel, next, hget, hreads, -⟩ := h.reads c hc
  have hnext := hreads.next_le
  have haccepts : cs.accepts ⟨Serial.ofNat k, c⟩ = true ↔ k < next + window := by
    simp only [Channels.accepts, hget, hreads.standing, h.window_eq, Bool.or_eq_true,
      decide_eq_true_eq, Serial.half]
    rcases Nat.lt_or_ge k next with hlt | hge
    · rw [Serial.distanceFrom_ofNat_of_lt hlt (by omega)]
      omega
    · rw [Serial.distanceFrom_ofNat_of_le hge (by omega)]
      omega
  rw [haccepts]
  constructor
  · intro hlt j hj
    exact hreads.filled j (by omega)
  · intro hfilled
    by_contra hge
    have := hfilled next (by omega)
    rw [hreads.missing] at this
    cases this

/-! ## One more parcel

A parcel touches the channel that it is on, if any. On all others the map of payloads stays as it
is, and nothing is added to what came out in order (`Yields.reads_other`); so for each of the three
kinds of parcels there is only its own channel left to look at. -/

theorem lt_length_of_get? {channel : Channel} (h : cs.get? c = some channel) :
    c.toNat < cs.channels.length :=
  (List.getElem?_eq_some_iff.1 h).1

theorem get?_set {channel : Channel} (hc : c.toNat < cs.channels.length) (c' : UInt8) :
    (cs.set c channel).get? c' = if c = c' then some channel else cs.get? c' := by
  simp only [Channels.set, Channels.get?]
  by_cases hcc : c = c'
  · rw [if_pos hcc, ← hcc, List.getElem?_set_self hc]
  · rw [if_neg hcc, List.getElem?_set_ne fun heq => hcc (UInt8.toNat_inj.1 heq)]

/-- A channel where nothing was put and nothing came out in order reads as before. -/
theorem Yields.reads_other (h : Yields done out cs count window) {cs' : Channels}
    {more : List Delivery} (hc : c.toNat < count) (hget : cs'.get? c = cs.get? c)
    (hon : p.isOrderedOn c = false) (hmore : orderedOutput c more = []) :
    ∃ channel next, cs'.get? c = some channel ∧ channel.Reads (taken (done ++ [p]) c) next ∧
      orderedOutput c (out ++ more) = Channel.between (taken (done ++ [p]) c) 0 next := by
  rw [hget, taken_append_of_not hon, orderedOutput_append, hmore, List.append_nil]
  exact h.reads c hc

/-- A parcel that is not plain brings out nothing that is. -/
theorem Yields.plain_append (h : Yields done out cs count window) {more : List Delivery}
    (hp : p.isPlain = false) (hmore : ∀ d ∈ more, d.isPlain = false) :
    (out ++ more).filter Delivery.isPlain
      = ((done ++ [p]).filter Parcel.isPlain).map Parcel.delivery := by
  have hnone : more.filter Delivery.isPlain = [] := by
    rw [List.filter_eq_nil_iff]
    intro d hd
    rw [hmore d hd]
    exact Bool.false_ne_true
  rw [List.filter_append, List.filter_append, List.map_append, h.plain, hnone]
  simp [hp]

theorem Yields.release_plain (h : Yields done out cs count window) (hp : p.isPlain = true) :
    release p.whole cs = .ok ([p.delivery], cs) ∧
      Yields (done ++ [p]) (out ++ [p.delivery]) cs count window := by
  have horder : p.reliability.hasOrder = false := by simpa [Parcel.isPlain] using hp
  have hordered : p.isOrdered = false := by
    simp only [Reliability.hasOrder, Bool.or_eq_false_iff] at horder
    exact horder.1
  have hon : ∀ c, p.isOrderedOn c = false := fun c => by simp [Parcel.isOrderedOn, hordered]
  have hmark : p.whole.order = none := if_neg (by simp [horder])
  constructor
  · unfold release
    simp only [hmark, Message.channel]
    rfl
  · refine ⟨h.count_eq, h.window_eq, fun c hc => ?_, fun d hd ho => ?_, ?_⟩
    · refine h.reads_other hc rfl (hon c) (orderedOutput_of_not fun d hd => ?_)
      rw [List.mem_singleton.1 hd, Parcel.delivery, Parcel.isOrdered_sentAs, hordered]
    · rcases List.mem_append.1 hd with hd | hd
      · exact h.channel_lt d hd ho
      · rw [List.mem_singleton.1 hd] at ho
        simp [Parcel.delivery, hordered] at ho
    · rw [List.filter_append, List.filter_append, List.map_append, h.plain]
      simp [Delivery.isPlain, Parcel.delivery, hp, horder]

/-- A sequenced parcel comes out or not, and nothing else does. -/
theorem release_of_isSequenced {channel : Channel} (hordered : p.isOrdered = false)
    (hsequenced : p.reliability.isSequenced = true) (hget : cs.get? p.channel = some channel) :
    ∃ more, Receiver.release p.whole cs
        = .ok (more, cs.set p.channel (channel.takeSequenced (Serial.ofNat p.place)).2) ∧
      ∀ d ∈ more, d.reliability.isOrdered = false ∧ d.isPlain = false := by
  have hmark : p.whole.order = some ⟨Serial.ofNat p.place, p.channel⟩ :=
    if_pos (by simp [Reliability.hasOrder, hsequenced])
  have hordered' : p.whole.reliability.isOrdered = false := by
    rw [← hordered, ← Parcel.isOrdered_sentAs]
    rfl
  have hsequenced' : p.whole.reliability.isSequenced = true := by
    rw [← hsequenced, ← Parcel.isSequenced_sentAs]
    rfl
  unfold Receiver.release
  simp only [hmark, hordered', hsequenced', Channels.takeSequenced, hget, if_true,
    Bool.false_eq_true, if_false]
  refine ⟨_, rfl, fun d hd => ?_⟩
  split at hd
  · rw [List.mem_singleton.1 hd]
    exact ⟨hordered', by simp [Delivery.isPlain, Reliability.hasOrder, hsequenced']⟩
  · cases hd

/-- A sequenced parcel does not show in what comes out in order. -/
theorem Yields.release_sequenced (h : Yields done out cs count window)
    (hchannel : p.channel.toNat < count) (hordered : p.isOrdered = false)
    (hsequenced : p.reliability.isSequenced = true) :
    ∃ more cs', release p.whole cs = .ok (more, cs') ∧
      Yields (done ++ [p]) (out ++ more) cs' count window := by
  have hon : ∀ c, p.isOrderedOn c = false := fun c => by simp [Parcel.isOrderedOn, hordered]
  obtain ⟨channel, next, hget, hreads, hout⟩ := h.reads p.channel hchannel
  have hlength : p.channel.toNat < cs.channels.length := by rwa [h.count_eq]
  obtain ⟨more, hrelease, hmore⟩ := release_of_isSequenced hordered hsequenced hget
  refine ⟨_, _, hrelease, ?_, h.window_eq, fun c hc => ?_, fun d hd ho => ?_,
    h.plain_append ?_ fun d hd => (hmore d hd).2⟩
  · simp [Channels.set, h.count_eq]
  · have hnone : orderedOutput c more = [] := orderedOutput_of_not fun d hd => (hmore d hd).1
    by_cases hpc : p.channel = c
    · subst hpc
      rw [get?_set hlength, if_pos rfl, taken_append_of_not (hon _), orderedOutput_append, hnone,
        List.append_nil]
      exact ⟨_, next, rfl, hreads.takeSequenced _, hout⟩
    · exact h.reads_other hc (by rw [get?_set hlength, if_neg hpc]) (hon c) hnone
  · rcases List.mem_append.1 hd with hd | hd
    · exact h.channel_lt d hd ho
    · rw [(hmore d hd).1] at ho
      cases ho
  · simp [Parcel.isPlain, Reliability.hasOrder, hsequenced]

/-- What an ordered parcel brings out comes with its guarantee and on its channel. -/
theorem release_of_isOrdered {channel : Channel} (ho : p.isOrdered = true)
    (hget : cs.get? p.channel = some channel) :
    Receiver.release p.whole cs
      = .ok (p.deliveries (channel.takeOrdered (Serial.ofNat p.place) p.payload).1,
        cs.set p.channel (channel.takeOrdered (Serial.ofNat p.place) p.payload).2) := by
  have hmark : p.whole.order = some ⟨Serial.ofNat p.place, p.channel⟩ :=
    Parcel.mark?_of_isOrdered ho
  have hreliability : p.whole.reliability = p.reliability := Parcel.sentAs_of_isOrdered ho
  have ho' : p.reliability.isOrdered = true := ho
  simp only [Receiver.release, hmark, hreliability, ho', Channels.takeOrdered, hget, if_true,
    Message.channel]
  rfl

/-- A place that was empty is none of those that came out before. -/
theorem between_fill {channel : Channel} {next k : Nat} (hreads : channel.Reads (taken done c) next)
    (hnew : taken done c k = none) (x : Octets) :
    Channel.between (Channel.fill (taken done c) k x) 0 next
      = Channel.between (taken done c) 0 next := by
  refine Channel.between_congr fun j _ hj => ?_
  rw [Channel.fill_of_ne]
  rintro rfl
  have hfilled := hreads.filled _ hj
  rw [hnew] at hfilled
  cases hfilled

/-- **An ordered parcel comes out when all before it are complete, and takes with it those behind
it that waited.** -/
theorem Yields.release_ordered (h : Yields done out cs count window)
    (hchannel : p.channel.toNat < count) (hordered : p.isOrdered = true)
    (hplace : p.place < 8388608) (hnew : taken done p.channel p.place = none) :
    ∃ more cs', release p.whole cs = .ok (more, cs') ∧
      Yields (done ++ [p]) (out ++ more) cs' count window := by
  have hr : p.reliability.isOrdered = true := hordered
  obtain ⟨channel, next, hget, hreads, hout⟩ := h.reads p.channel hchannel
  have hlength : p.channel.toNat < cs.channels.length := by rwa [h.count_eq]
  have hself : p.isOrderedOn p.channel = true := Parcel.isOrderedOn_iff.2 ⟨hordered, rfl⟩
  obtain ⟨next', hle, hreads', hpayloads⟩ := hreads.take (x := p.payload) hplace hnew
  refine ⟨_, _, release_of_isOrdered hordered hget, ?_, h.window_eq, fun c hc => ?_,
    fun d hd ho => ?_, h.plain_append ?_ fun d hd => ?_⟩
  · simp [Channels.set, h.count_eq]
  · by_cases hpc : p.channel = c
    · subst hpc
      rw [get?_set hlength, if_pos rfl, taken_append hself hnew, orderedOutput_append,
        orderedOutput_deliveries hordered, if_pos rfl]
      refine ⟨_, next', rfl, hreads', ?_⟩
      rw [hout, hpayloads, ← between_fill hreads hnew p.payload,
        Channel.between_append _ (Nat.zero_le _) hle]
    · refine h.reads_other hc (by rw [get?_set hlength, if_neg hpc]) ?_ ?_
      · simp [Parcel.isOrderedOn, hpc]
      · rw [orderedOutput_deliveries hordered, if_neg hpc]
  · rcases List.mem_append.1 hd with hd | hd
    · exact h.channel_lt d hd ho
    · obtain ⟨payload, -, rfl⟩ := List.mem_map.1 hd
      exact hchannel
  · simp [Parcel.isPlain, Reliability.hasOrder, hr]
  · obtain ⟨payload, -, rfl⟩ := List.mem_map.1 hd
    simp [Delivery.isPlain, Reliability.hasOrder, hr]

theorem Yields.release (h : Yields done out cs count window) (hchannel : p.channel.toNat < count)
    (hplace : p.isOrdered = true → p.place < 8388608)
    (hnew : p.isOrdered = true → taken done p.channel p.place = none) :
    ∃ more cs', release p.whole cs = .ok (more, cs') ∧
      Yields (done ++ [p]) (out ++ more) cs' count window := by
  by_cases hordered : p.isOrdered = true
  · exact h.release_ordered hchannel hordered (hplace hordered) (hnew hordered)
  · rw [Bool.not_eq_true] at hordered
    by_cases hsequenced : p.reliability.isSequenced = true
    · exact h.release_sequenced hchannel hordered hsequenced
    · have hplain : p.isPlain = true := by
        have hr : p.reliability.isOrdered = false := hordered
        simp [Parcel.isPlain, Reliability.hasOrder, hr, hsequenced]
      obtain ⟨hrelease, hyields⟩ := h.release_plain hplain
      exact ⟨_, _, hrelease, hyields⟩

end Receiver

end DatagramTransport

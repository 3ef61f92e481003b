import DatagramTransport.Proofs.Completion
import DatagramTransport.Proofs.Fragments

/-!
# Fleeting messages — what comes out as often as it is taken in

A message that is neither reliable nor in any order carries no number of its own, so a receiver
cannot tell whether it saw it before. **It comes out each time that its datagram is looked at**, and
nothing else comes out with such a guarantee: fragments are reliable, and what is put together of
them is what its first fragment was.
-/

set_option autoImplicit false

namespace DatagramTransport

namespace Reliability

/-- Neither sent again nor in any order. -/
def isFleeting (r : Reliability) : Bool := !r.isReliable && !r.hasOrder

end Reliability

def Delivery.isFleeting (d : Delivery) : Bool := d.reliability.isFleeting

/-- What comes out of a message for its guarantee alone. -/
def Message.fleeting (m : Message) : List Delivery :=
  if m.reliability.isFleeting then [⟨m.reliability, 0, m.payload⟩] else []

def Datagram.fleeting (d : Datagram) : List Delivery := d.messages.flatMap Message.fleeting

namespace Receiver

namespace Assembler

variable {a : Assembler} {m : Message}

/-- Whatever is put together is reliable. -/
def HeadsReliable (a : Assembler) : Prop :=
  ∀ (id : UInt16) (assembly : Assembly), a.assemblies[id]? = some assembly →
    ∀ head ∈ assembly.head, head.reliability.isReliable = true

theorem headsReliable_fresh (maxFragmentCount maxAssemblies : Nat) :
    (fresh maxFragmentCount maxAssemblies).HeadsReliable := by
  intro id assembly hget
  simp [fresh] at hget

/-- A message that is complete is the one that came, or it is reliable. -/
theorem HeadsReliable.take (h : a.HeadsReliable)
    (hm : m.fragment.isSome = true → m.reliability.isReliable = true) :
    (a.take m).2.HeadsReliable ∧ ∀ whole, (a.take m).1 = .ok (some whole) →
      whole = m ∨ whole.reliability.isReliable = true := by
  have hput : ∀ mark ∈ m.fragment, ∀ assembly, a.Joins m mark assembly →
      ∀ head ∈ (assembly.put mark.index m).head, head.reliability.isReliable = true := by
    intro mark hmark assembly joins head hhead
    rcases joins.mem_head_put hhead with ⟨-, rfl⟩ | ⟨hget, hhead⟩
    · exact hm (by rw [hmark]; rfl)
    · exact h mark.id assembly hget head hhead
  have hevery : a.Every fun assembly =>
      ∀ head ∈ assembly.head, head.reliability.isReliable = true := h
  refine ⟨hevery.take fun mark hmark assembly joins _ _ => hput mark hmark assembly joins,
    fun whole hwhole => ?_⟩
  rcases take_eq_ok_some hwhole with ⟨-, heq⟩ | ⟨mark, hmark, assembly, joins, hmessage⟩
  · exact Or.inl heq
  · obtain ⟨head, hhead, rfl⟩ := Option.map_eq_some_iff.1 hmessage
    exact Or.inr (hput mark hmark assembly joins head hhead)

end Assembler

variable {ps : List Parcel} {r : Receiver} {p : Parcel} {ms : List Message} {d : Datagram}

theorem assembler_take_cases (m : Message) (r : Receiver) :
    (r.take m).2.assembler = r.assembler ∨ (r.take m).2.assembler = (r.assembler.take m).2 := by
  cases h : r.admission m with
  | fresh => exact Or.inr (take_of_admission h).2
  | duplicate | beyond =>
    refine Or.inl ?_
    rw [Receiver.take, h]

theorem isFleeting_eq_false {r : Reliability} (h : r.isReliable = true) :
    r.isFleeting = false := by
  rw [Reliability.isFleeting, h]
  rfl

/-- What is fleeting is taken in whatever was taken in before. -/
theorem deliveries_take_of_fleeting (hp : p.sentAs.isFleeting = true) (i : Nat) (x : Octets)
    (r : Receiver) : (r.take (p.message i x)).1.deliveries = [⟨p.sentAs, 0, x⟩] := by
  rw [Reliability.isFleeting, Bool.and_eq_true, Bool.not_eq_true', Bool.not_eq_true'] at hp
  have hr : ¬ p.isReliable = true := by
    rw [Parcel.isReliable, hp.1]
    exact Bool.false_ne_true
  have hindex : (p.message i x).index = none := if_neg hr
  have horder : (p.message i x).order = none := by
    refine if_neg ?_
    rw [← Parcel.hasOrder_sentAs, hp.2]
    exact Bool.false_ne_true
  have hfragment : (p.message i x).fragment = none :=
    if_neg fun hs => hr (Parcel.isReliable_of_isSplit hs)
  simp only [take_of_index_eq_none hindex, process, Assembler.take, hfragment, release, horder,
    Intake.deliveries, Message.channel]
  rfl

/-- **What a message brings out that is fleeting is itself or nothing.** -/
theorem fleeting_take (h : r.assembler.HeadsReliable) (p : Parcel) (i : Nat) (x : Octets) :
    (r.take (p.message i x)).1.deliveries.filter Delivery.isFleeting
        = (p.message i x).fleeting ∧
      (r.take (p.message i x)).2.assembler.HeadsReliable := by
  have hfragment : (p.message i x).fragment.isSome = true →
      (p.message i x).reliability.isReliable = true := by
    intro hsome
    by_cases hs : p.isSplit = true
    · exact Parcel.isReliable_of_isSplit hs
    · rw [show (p.message i x).fragment = none from if_neg hs] at hsome
      cases hsome
  obtain ⟨hheads, hwhole⟩ := h.take hfragment
  have hreliability : (p.message i x).reliability = p.sentAs := rfl
  have hpayload : (p.message i x).payload = x := rfl
  refine ⟨?_, ?_⟩
  · rw [Message.fleeting, hreliability, hpayload]
    by_cases hp : p.sentAs.isFleeting = true
    · rw [deliveries_take_of_fleeting hp, if_pos hp]
      exact List.filter_cons_of_pos hp
    · rw [if_neg hp, List.filter_eq_nil_iff]
      intro d hd
      rcases take_cases (p.message i x) r with ⟨hnone, -⟩ | ⟨whole, hcompleted, hrelease⟩
      · rw [hnone] at hd
        cases hd
      · rw [Delivery.isFleeting, reliability_of_release hrelease d hd]
        rcases hwhole whole (completed?_eq_some_iff.1 hcompleted).2 with rfl | hreliable
        · exact hp
        · rw [isFleeting_eq_false hreliable]
          exact Bool.false_ne_true
  · rcases assembler_take_cases (p.message i x) r with heq | heq
    · rwa [heq]
    · rwa [heq]

theorem fleeting_collect (h : r.assembler.HeadsReliable) (hms : ∀ m ∈ ms, m ∈ Laid.created ps) :
    ((Stepwise.collect take ms r).1.flatMap Intake.deliveries).filter Delivery.isFleeting
        = ms.flatMap Message.fleeting ∧
      (Stepwise.collect take ms r).2.assembler.HeadsReliable := by
  induction ms generalizing r with
  | nil => exact ⟨rfl, h⟩
  | cons m ms ih =>
    obtain ⟨p, -, hmem⟩ := List.mem_flatMap.1 (hms m List.mem_cons_self)
    obtain ⟨i, hi, rfl⟩ := Parcel.mem_messages.1 hmem
    obtain ⟨htake, hheads⟩ := fleeting_take h p i p.pieces[i]
    obtain ⟨hcollect, hheads'⟩ := ih hheads fun m' hm' => hms m' (List.mem_cons_of_mem _ hm')
    rw [Stepwise.collect_cons, List.flatMap_cons, List.flatMap_cons, List.filter_append, htake,
      hcollect]
    exact ⟨rfl, hheads'⟩

/-- **A datagram that is looked at brings out everything fleeting in it, and any other nothing.** -/
theorem fleeting_receive (h : r.assembler.HeadsReliable)
    (hd : ∀ m ∈ d.messages, m ∈ Laid.created ps) :
    (r.receive d).2.assembler.HeadsReliable ∧
      (r.receive d).2.datagrams = (r.datagrams.slide d.sequence).2 ∧
      ((((r.datagrams.slide d.sequence).1 = true ∨ d.sequence ∈ r.deferred) ∧
          (r.receive d).1.filter Delivery.isFleeting = d.fleeting ∧
          ∀ s ∈ (r.receive d).2.deferred, s = d.sequence ∨ s ∈ r.deferred) ∨
        (((r.datagrams.slide d.sequence).1 = false ∧ d.sequence ∉ r.deferred) ∧
          (r.receive d).1 = [] ∧ (r.receive d).2.deferred = r.deferred)) := by
  -- the two branches that look at it
  have hlooked : ∀ r₀, r.receive d = r₀.unpack d → r.Alike r₀ →
      r₀.datagrams = (r.datagrams.slide d.sequence).2 → (∀ s ∈ r₀.deferred, s ∈ r.deferred) →
      (r.receive d).2.assembler.HeadsReliable ∧
        (r.receive d).2.datagrams = (r.datagrams.slide d.sequence).2 ∧
        (r.receive d).1.filter Delivery.isFleeting = d.fleeting ∧
        ∀ s ∈ (r.receive d).2.deferred, s = d.sequence ∨ s ∈ r.deferred := by
    intro r₀ heq halike hdatagrams hdeferred
    rw [← halike.assembler_eq] at h
    obtain ⟨hcollect, hheads⟩ := fleeting_collect h hd
    obtain ⟨r', hunpack, -, hassembler, -, hsame, -, -, hacks⟩ := unpack_eq d r₀
    rw [heq, hunpack, hassembler, hsame]
    refine ⟨hheads, hdatagrams, hcollect, fun s hs => ?_⟩
    split at hacks
    · rw [hacks.2] at hs
      exact (List.mem_cons.1 hs).imp_right fun hs => hdeferred s (List.mem_filter.1 hs).1
    · rw [hacks.2] at hs
      exact Or.inr (hdeferred s hs)
  cases hslide : (r.datagrams.slide d.sequence).1 with
  | true =>
    obtain ⟨r₀, heq, halike, hdatagrams, hdeferred, -⟩ := receive_new hslide
    obtain ⟨hheads, hdatagrams', hrest⟩ :=
      hlooked r₀ heq halike hdatagrams fun s hs => by rwa [hdeferred] at hs
    exact ⟨hheads, hdatagrams', Or.inl ⟨Or.inl rfl, hrest⟩⟩
  | false =>
    by_cases hdeferred : d.sequence ∈ r.deferred
    · obtain ⟨r₀, heq, halike, hdatagrams, hremaining, -⟩ := receive_deferred hslide hdeferred
      obtain ⟨hheads, hdatagrams', hrest⟩ := hlooked r₀ heq halike hdatagrams fun s hs => by
        rw [hremaining] at hs
        exact (List.mem_filter.1 hs).1
      exact ⟨hheads, hdatagrams', Or.inl ⟨Or.inr hdeferred, hrest⟩⟩
    · obtain ⟨r', heq, halike, hdatagrams, hremaining, -⟩ := receive_duplicate hslide hdeferred
      rw [heq]
      refine ⟨?_, hdatagrams, Or.inr ⟨⟨rfl, hdeferred⟩, rfl, hremaining⟩⟩
      show r'.assembler.HeadsReliable
      rwa [halike.assembler_eq]

end Receiver

end DatagramTransport

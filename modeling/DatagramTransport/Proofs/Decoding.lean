import DatagramTransport.Datagram

/-!
# Decoding — what can come off the wire

A peer may send any octets, but not everything that a message could be is the reading of some
octets. **A message that was read has the parts that its guarantee asks for and no others**, and a
fragment among them is one of those it announces. In particular, what comes in an order and is
reliable has an index, so that it can be turned away.
-/

set_option autoImplicit false

namespace DatagramTransport

namespace Message

theorem isSome_of_optionalReader {α : Type} {present : Bool} {r : Reader α} {bs rest : Octets}
    {a : Option α} (h : optionalReader present r bs = .ok (a, rest)) : a.isSome = present := by
  cases present with
  | false =>
    cases h
    rfl
  | true =>
    obtain ⟨b, mid, -, hpure⟩ := Reader.bind_eq_ok.1 h
    cases hpure
    rfl

theorem mem_of_optionalReader {α : Type} {present : Bool} {r : Reader α} {bs rest : Octets}
    {a : Option α} (h : optionalReader present r bs = .ok (a, rest)) :
    ∀ b ∈ a, r bs = .ok (b, rest) := by
  cases present with
  | false =>
    cases h
    exact fun b hb => nomatch hb
  | true =>
    obtain ⟨b, mid, hread, hpure⟩ := Reader.bind_eq_ok.1 h
    cases hpure
    intro b' hb'
    rwa [← Option.some.inj hb']

theorem index_lt_of_fragmentReader {bs rest : Octets} {mark : FragmentMark}
    (h : fragmentReader bs = .ok (mark, rest)) : mark.index < mark.count := by
  obtain ⟨count, _, -, h⟩ := Reader.bind_eq_ok.1 h
  obtain ⟨id, _, -, h⟩ := Reader.bind_eq_ok.1 h
  obtain ⟨index, _, -, h⟩ := Reader.bind_eq_ok.1 h
  split at h
  · cases h
  · rename_i hinside
    cases h
    exact UInt32.not_le.1 fun hle => hinside (Or.inr hle)

/-- The parts of a message are read one after the other. -/
theorem parts_of_reader {bs rest : Octets} {m : Message} (h : reader bs = .ok (m, rest)) :
    ∃ flags bits s₁ s₂ s₃ s₄ s₅ s₆, Reader.u8 bs = .ok (flags, s₁) ∧
      reliabilityReader (flags / 32) s₁ = .ok (m.reliability, s₂) ∧
      Reader.u16 s₂ = .ok (bits, s₃) ∧
      optionalReader m.reliability.isReliable Reader.serial s₃ = .ok (m.index, s₄) ∧
      optionalReader m.reliability.hasOrder orderReader s₄ = .ok (m.order, s₅) ∧
      optionalReader (flags / 16 % 2 == 1) fragmentReader s₅ = .ok (m.fragment, s₆) ∧
      payloadReader ((bits.toNat + 7) / 8) s₆ = .ok (m.payload, rest) := by
  obtain ⟨flags, s₁, hflags, h⟩ := Reader.bind_eq_ok.1 h
  obtain ⟨reliability, s₂, hreliability, h⟩ := Reader.bind_eq_ok.1 h
  obtain ⟨bits, s₃, hbits, h⟩ := Reader.bind_eq_ok.1 h
  obtain ⟨index, s₄, hindex, h⟩ := Reader.bind_eq_ok.1 h
  obtain ⟨order, s₅, horder, h⟩ := Reader.bind_eq_ok.1 h
  obtain ⟨fragment, s₆, hfragment, h⟩ := Reader.bind_eq_ok.1 h
  obtain ⟨payload, s₇, hpayload, h⟩ := Reader.bind_eq_ok.1 h
  cases h
  exact ⟨flags, bits, s₁, s₂, s₃, s₄, s₅, s₆, hflags, hreliability, hbits, hindex, horder,
    hfragment, hpayload⟩

theorem wellFormed_of_reader {bs rest : Octets} {m : Message}
    (h : reader bs = .ok (m, rest)) : m.WellFormed := by
  obtain ⟨_, _, _, _, _, _, _, _, -, -, -, hindex, horder, hfragment, -⟩ := parts_of_reader h
  exact ⟨isSome_of_optionalReader hindex, isSome_of_optionalReader horder,
    fun mark hmark => index_lt_of_fragmentReader (mem_of_optionalReader hfragment mark hmark)⟩

/-- What is ordered is reliable. -/
theorem WellFormed.index_isSome {m : Message} (h : m.WellFormed)
    (hordered : m.reliability.isOrdered = true) : m.index.isSome = true := by
  rw [h.index]
  generalize m.reliability = r at hordered
  cases r <;> first | rfl | cases hordered

end Message

namespace Datagram

/-- The datagram is the reading of some octets. -/
def Decoded (d : Datagram) : Prop := ∃ bs rest, reader bs = .ok (d, rest)

theorem wellFormed_of_messagesReader {read ms : List Message} {bs rest : Octets}
    (hread : ∀ m ∈ read, m.WellFormed) (h : messagesReader read bs = .ok (ms, rest)) :
    ∀ m ∈ ms, m.WellFormed := by
  fun_induction messagesReader read bs with
  | case1 read bs hlong m rest' hm ih =>
    refine ih (fun m' hm' => ?_) h
    rcases List.mem_cons.1 hm' with rfl | hold
    · exact Message.wellFormed_of_reader hm
    · exact hread m' hold
  | case2 read bs hlong fault hfault => cases h
  | case3 read bs hshort =>
    cases h
    exact fun m hm => hread m (List.mem_reverse.1 hm)

/-- **All messages of a datagram that was read are well-formed.** -/
theorem Decoded.wellFormed {d : Datagram} (h : d.Decoded) : ∀ m ∈ d.messages, m.WellFormed := by
  obtain ⟨bs, rest, h⟩ := h
  obtain ⟨id, _, -, h⟩ := Reader.bind_eq_ok.1 h
  split at h
  · obtain ⟨sequence, _, -, h⟩ := Reader.bind_eq_ok.1 h
    obtain ⟨messages, _, hmessages, h⟩ := Reader.bind_eq_ok.1 h
    cases h
    exact wellFormed_of_messagesReader (fun _ hm => absurd hm List.not_mem_nil) hmessages
  · cases h

end Datagram

end DatagramTransport

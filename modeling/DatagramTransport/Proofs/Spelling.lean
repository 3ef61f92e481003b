import DatagramTransport.Proofs.Encoding
import DatagramTransport.Proofs.Fields
import Mathlib.Data.List.Forall2

/-!
# Spelling — how many ways there are to write a datagram

What is written is read back. The other direction holds up to spelling, as a packet has places that
nobody looks at, and a length in bits says more than the octets that it is rounded up to. **What was
read is written again as it was, up to these**: the low half of the packet's first octet and of each
message's flags, lengths that are not whole octets, and up to two octets behind the last message.

So a relay that reads a packet and writes it again changes nothing that a reader can see, and a
message that follows another is found where it was.
-/

set_option autoImplicit false

namespace DatagramTransport

namespace Reliability

theorem id_of_ofId? {n : UInt8} {r : Reliability} (h : ofId? n = some r) : r.id = n := by
  unfold ofId? at h
  repeat' split at h
  all_goals first | (cases h; symm; assumption) | cases h

end Reliability

namespace Message

variable {m : Message}

/-- The octets say the message: they are its encoding but for the low half of the flags, which no
reader looks at beyond its mark of a fragment, and for a length in bits that is not rounded up. -/
def SpelledBy (m : Message) (spelling : Octets) : Prop :=
  ∃ (flags : UInt8) (bits whole : UInt16) (body : Octets),
    whole.toNat = (bits.toNat + 7) / 8 * 8 ∧
    spelling = Octets.u8 flags ++ Octets.u16 bits ++ body ∧
    m.encode = Octets.u8 (flags / 16 * 16) ++ Octets.u16 whole ++ body

/-- The high half of the flags is made of the two numbers that are read from it. -/
theorem flags_of_parts (flags : UInt8) :
    (flags / 32 * 32 + if flags / 16 % 2 == 1 then 16 else 0) = flags / 16 * 16 := by
  have hmark : (flags / 16 % 2 == 1) = true ↔ flags.toNat / 16 % 2 = 1 := by
    rw [beq_iff_eq, ← UInt8.toNat_inj]
    rfl
  have := flags.toNat_lt
  apply UInt8.toNat_inj.1
  simp only [hmark]
  split
  all_goals
    simp only [UInt8.toNat_add, UInt8.toNat_mul, UInt8.toNat_div, UInt8.toNat_ofNat,
      Nat.reducePow, Nat.reduceMod]
    omega

theorem id_of_reliabilityReader {id : UInt8} {r : Reliability} {bs rest : Octets}
    (h : reliabilityReader id bs = .ok (r, rest)) : r.id = id ∧ bs = rest := by
  unfold reliabilityReader Reliability.ofId at h
  cases hid : Reliability.ofId? id with
  | none =>
    rw [hid] at h
    cases h
  | some r' =>
    rw [hid] at h
    cases h
    exact ⟨Reliability.id_of_ofId? hid, rfl⟩

theorem optionalReader_eq_ok {α : Type} {present : Bool} {r : Reader α} {write : α → Octets}
    {bs rest : Octets} {a : Option α} (default : α)
    (hexact : ∀ {b bs rest}, r bs = .ok (b, rest) → bs = write b ++ rest)
    (h : optionalReader present r bs = .ok (a, rest)) :
    bs = (if present then write (a.getD default) else []) ++ rest := by
  cases present with
  | false =>
    cases h
    rfl
  | true =>
    obtain ⟨b, mid, hread, hpure⟩ := Reader.bind_eq_ok.1 h
    cases hpure
    exact hexact hread

theorem orderReader_eq_ok {order : OrderMark} {bs rest : Octets}
    (h : orderReader bs = .ok (order, rest)) : bs = orderFields order ++ rest := by
  obtain ⟨index, _, hindex, h⟩ := Reader.bind_eq_ok.1 h
  obtain ⟨channel, _, hchannel, h⟩ := Reader.bind_eq_ok.1 h
  cases h
  rw [Reader.serial_eq_ok.1 hindex, Reader.u8_eq_ok.1 hchannel, orderFields, List.append_assoc]

theorem fragmentReader_eq_ok {mark : FragmentMark} {bs rest : Octets}
    (h : fragmentReader bs = .ok (mark, rest)) : bs = fragmentFields mark ++ rest := by
  obtain ⟨count, _, hcount, h⟩ := Reader.bind_eq_ok.1 h
  obtain ⟨id, _, hid, h⟩ := Reader.bind_eq_ok.1 h
  obtain ⟨index, _, hindex, h⟩ := Reader.bind_eq_ok.1 h
  split at h
  · cases h
  · cases h
    rw [Reader.u32_eq_ok.1 hcount, Reader.u16_eq_ok.1 hid, Reader.u32_eq_ok.1 hindex,
      fragmentFields, List.append_assoc, List.append_assoc]

theorem payloadReader_eq_ok {declared : Nat} {payload bs rest : Octets}
    (h : payloadReader declared bs = .ok (payload, rest)) :
    bs = payload ++ rest ∧ payload.length = declared := by
  unfold payloadReader at h
  split at h
  next henough =>
    cases h
    exact ⟨(List.take_append_drop declared bs).symm,
      List.length_take_of_le (Octets.atLeast_iff.1 henough)⟩
  next => cases h

/-- **A message that was read is spelled by what was taken for it.** -/
theorem spelledBy_of_reader {bs rest : Octets} (h : reader bs = .ok (m, rest))
    (hm : m.Encodable) : ∃ spelling, bs = spelling ++ rest ∧ m.SpelledBy spelling := by
  obtain ⟨flags, bits, s₁, s₂, s₃, s₄, s₅, s₆, hflags, hreliability, hbits, hindex, horder,
    hfragment, hpayload⟩ := parts_of_reader h
  obtain ⟨hid, rfl⟩ := id_of_reliabilityReader hreliability
  obtain ⟨rfl, hlength⟩ := payloadReader_eq_ok hpayload
  have hmark := isSome_of_optionalReader hfragment
  have hindex := optionalReader_eq_ok Serial.zero Reader.serial_eq_ok.1 hindex
  have horder := optionalReader_eq_ok ⟨Serial.zero, 0⟩ orderReader_eq_ok horder
  have hfragment := optionalReader_eq_ok ⟨0, 0, 0⟩ fragmentReader_eq_ok hfragment
  have hwhole : (UInt16.ofNat (m.payload.length * 8)).toNat = (bits.toNat + 7) / 8 * 8 := by
    have : m.payload.length < 8192 := hm
    rw [UInt16.toNat_ofNat_of_lt' (show m.payload.length * 8 < 65536 by omega), hlength]
  -- what stands behind the length is read and written in one way only
  obtain ⟨body, hbody, hencode⟩ : ∃ body, s₃ = body ++ rest ∧
      m.encode = Octets.u8 (flags / 16 * 16)
        ++ (Octets.u16 (UInt16.ofNat (m.payload.length * 8)) ++ body) := by
    rw [encode_eq, Message.flags, hid, hmark, flags_of_parts]
    refine ⟨_, ?_, rfl⟩
    rw [hindex, horder, hfragment]
    simp only [List.append_assoc]
  refine ⟨Octets.u8 flags ++ Octets.u16 bits ++ body, ?_, flags, bits, _, body, hwhole, rfl, ?_⟩
  · rw [Reader.u8_eq_ok.1 hflags, Reader.u16_eq_ok.1 hbits, hbody]
    simp only [List.append_assoc]
  · rw [hencode, List.append_assoc]

end Message

namespace Datagram

/-- The identifiers of datagrams are those with one high half. -/
theorem id_of_isId {n : UInt8} (h : isId n = true) : id = n / 16 * 16 + 4 := by
  simp only [isId, Bool.and_eq_true, decide_eq_true_eq, UInt8.le_iff_toNat_le] at h
  have hleast : 128 ≤ n.toNat := h.1
  have hgreatest : n.toNat ≤ 143 := h.2
  apply UInt8.toNat_inj.1
  simp only [UInt8.toNat_add, UInt8.toNat_mul, UInt8.toNat_div, UInt8.toNat_ofNat,
    Nat.reducePow, Nat.reduceMod]
  show 132 = _
  omega

/-- Messages that were read are spelled one after the other, behind those that were there already,
and too little for one more is left. -/
theorem spelledBy_of_messagesReader {read ms : List Message} {bs rest : Octets}
    (h : messagesReader read bs = .ok (ms, rest)) (hms : ∀ m ∈ ms, m.Encodable) :
    rest.length ≤ 2 ∧ ∃ (more : List Message) (spellings : List Octets),
      ms = read.reverse ++ more ∧ bs = spellings.flatten ++ rest ∧
        List.Forall₂ Message.SpelledBy more spellings := by
  fun_induction messagesReader read bs with
  | case1 read bs hlong m behind hm ih =>
    obtain ⟨hrest, more, spellings, rfl, rfl, hmore⟩ := ih h
    have hencodable : m.Encodable := hms m (by simp)
    obtain ⟨spelling, rfl, hspelling⟩ := Message.spelledBy_of_reader hm hencodable
    refine ⟨hrest, m :: more, spelling :: spellings, ?_, ?_, hmore.cons hspelling⟩
    · rw [List.reverse_cons, List.append_assoc, List.singleton_append]
    · rw [List.flatten_cons, List.append_assoc]
  | case2 read bs hlong fault hfault => cases h
  | case3 read bs hshort =>
    cases h
    rw [Octets.atLeast_iff, Message.minHeaderLength] at hshort
    exact ⟨by omega, [], [], (List.append_nil _).symm, rfl, List.Forall₂.nil⟩

/-- **The format of datagrams, both ways.** A datagram of messages that can be sent is read back
from its encoding, which is used up and has the length that was announced. What was read from a
packet, if its payloads can be written at all, consists of well-formed messages, each spelled by its
part of the packet. So writing it again gives the packet but for the low half of its first octet,
the freedom of `Message.SpelledBy`, and the last two octets at most. -/
theorem round_trip :
    (∀ d : Datagram, (∀ m ∈ d.messages, m.Sendable) →
      d.encode? = some d.encode ∧ reader d.encode = .ok (d, []) ∧
        d.encode.length = d.encodedLength) ∧
    (∀ (bs rest : Octets) (d : Datagram), reader bs = .ok (d, rest) → d.Encodable →
      (∀ m ∈ d.messages, m.WellFormed) ∧ rest.length ≤ 2 ∧
        ∃ (n : UInt8) (spellings : List Octets),
          bs = Octets.u8 n ++ Octets.serial d.sequence ++ spellings.flatten ++ rest ∧
          d.encode? = some (Octets.u8 (n / 16 * 16 + 4) ++ Octets.serial d.sequence
            ++ (d.messages.map Message.encode).flatten) ∧
          List.Forall₂ Message.SpelledBy d.messages spellings) := by
  constructor
  · intro d hd
    exact ⟨if_pos fun m hm => (hd m hm).encodable, reader_encode hd, d.length_encode⟩
  · intro bs rest d h hd
    have hwellFormed := Decoded.wellFormed ⟨bs, rest, h⟩
    obtain ⟨n, _, hn, h⟩ := Reader.bind_eq_ok.1 h
    split at h
    next hid =>
      obtain ⟨sequence, _, hsequence, h⟩ := Reader.bind_eq_ok.1 h
      obtain ⟨messages, _, hmessages, h⟩ := Reader.bind_eq_ok.1 h
      cases h
      obtain ⟨hrest, more, spellings, rfl, hspelled, hmore⟩ :=
        spelledBy_of_messagesReader hmessages hd
      refine ⟨hwellFormed, hrest, n, spellings, ?_, ?_, hmore⟩
      · rw [Reader.u8_eq_ok.1 hn, Reader.serial_eq_ok.1 hsequence, hspelled]
        simp only [List.append_assoc]
      · rw [encode?, if_pos hd, encode, id_of_isId hid, List.flatMap_def]
    next => cases h

/-- A fragment of an ordered message. Its packet may begin with another identifier, its flags may
say more than they have to, its length may be nine bits, and two octets may be left over. -/
theorem round_trip_spelled_loosely :
    let fragment : Message := ⟨.reliableOrdered, some (Serial.ofNat 1),
      some ⟨Serial.ofNat 2, 3⟩, some ⟨2, 7, 1⟩, [9, 9]⟩
    let d : Datagram := ⟨Serial.ofNat 5, [fragment]⟩
    let loose : Octets := [0x8d, 5, 0, 0, 0x7f, 0, 9, 1, 0, 0, 2, 0, 0, 3,
      0, 0, 0, 2, 0, 7, 0, 0, 0, 1, 9, 9, 0, 255]
    reader d.encode = .ok (d, []) ∧ reader loose = .ok (d, [0, 255]) ∧
      ∃ (n : UInt8) (spellings : List Octets),
        loose = Octets.u8 n ++ Octets.serial d.sequence ++ spellings.flatten ++ [0, 255] ∧
        d.encode? = some (Octets.u8 (n / 16 * 16 + 4) ++ Octets.serial d.sequence
          ++ (d.messages.map Message.encode).flatten) ∧
        List.Forall₂ Message.SpelledBy d.messages spellings := by
  intro fragment d loose
  have hd : ∀ m ∈ d.messages, m.Sendable := by
    intro m hm
    cases List.mem_singleton.1 hm
    refine ⟨⟨rfl, rfl, ?_⟩, by decide⟩
    rintro mark ⟨⟩
    decide
  have hread : reader loose = .ok (d, [0, 255]) := by decide +kernel
  obtain ⟨-, hback, -⟩ := round_trip.1 d hd
  obtain ⟨-, -, hspelled⟩ := round_trip.2 loose [0, 255] d hread (by decide)
  exact ⟨hback, hread, hspelled⟩

end Datagram

end DatagramTransport

import DatagramTransport.ControlMessage.Basic
import DatagramTransport.Link
import DatagramTransport.Proofs.Decoding

/-!
# Encoding — what is written is read back

A writer and a reader that belong together agree on a form, and for the packets of two peers that is
all their understanding rests on. **A datagram of well-formed messages is read as what was
written.** The field for a payload's length and the one octet of flags are where this could fail: the
length is written in bits, and the guarantee shares its octet with the mark of a fragment.

Of the other sort of packet, and of control messages, no more is shown here than that they are what
their first octet says: an acknowledgement is never read as a datagram, and a control message begins
with its identifier, whether it is written or read.
-/

set_option autoImplicit false

namespace DatagramTransport

namespace Message

variable {m : Message}

/-- The message can be written without losing anything of it. -/
structure Sendable (m : Message) : Prop where
  wellFormed : m.WellFormed
  encodable : m.Encodable

/-- The flags are two numbers in one octet, and both come back. -/
theorem flags_parts (r : Reliability) (isFragment : Bool) :
    (r.id * 32 + if isFragment then 16 else 0) / 32 = r.id ∧
      ((r.id * 32 + if isFragment then 16 else 0) / 16 % 2 == 1) = isFragment := by
  cases r <;> cases isFragment <;> decide

/-- Each part is written or not, by a question that the reader can answer. -/
theorem encode_eq (m : Message) : m.encode
    = Octets.u8 m.flags ++ (Octets.u16 (UInt16.ofNat (m.payload.length * 8))
      ++ ((if m.reliability.isReliable then Octets.serial (m.index.getD Serial.zero) else [])
      ++ ((if m.reliability.hasOrder then orderFields (m.order.getD ⟨Serial.zero, 0⟩) else [])
      ++ ((if m.fragment.isSome then fragmentFields (m.fragment.getD ⟨0, 0, 0⟩) else [])
      ++ m.payload)))) := by
  obtain ⟨r, index, order, fragment, payload⟩ := m
  simp only [encode, List.append_assoc]
  cases fragment <;> rfl

theorem reliabilityReader_id (r : Reliability) (rest : Octets) :
    reliabilityReader r.id rest = .ok (r, rest) := by
  rw [reliabilityReader, Reliability.ofId, Reliability.ofId?_id]
  rfl

/-- A part that is written when it should be there is read back, and so is one that is not there. -/
theorem optionalReader_append {α : Type} {present : Bool} {a : Option α} (r : Reader α)
    (field : Octets) (hpresent : a.isSome = present)
    (hread : ∀ b ∈ a, ∀ rest, r (field ++ rest) = .ok (b, rest)) (rest : Octets) :
    optionalReader present r ((if present then field else []) ++ rest) = .ok (a, rest) := by
  subst hpresent
  cases a with
  | none => rfl
  | some b =>
    show ((do return some (← r)) : Reader (Option α)) (field ++ rest) = _
    rw [Reader.bind_of_ok (hread b rfl rest)]
    rfl

theorem orderReader_append (order : OrderMark) (rest : Octets) :
    orderReader (orderFields order ++ rest) = .ok (order, rest) := by
  rw [orderReader, orderFields, List.append_assoc, Reader.bind_of_ok (Reader.serial_append _ _),
    Reader.bind_of_ok (Reader.u8_append _ _)]
  rfl

theorem fragmentReader_append {mark : FragmentMark} (h : mark.index < mark.count)
    (rest : Octets) : fragmentReader (fragmentFields mark ++ rest) = .ok (mark, rest) := by
  have hinside : ¬(mark.count = 0 ∨ mark.count ≤ mark.index) := by
    rintro (hzero | hle)
    · rw [hzero] at h
      exact UInt32.not_lt_zero h
    · exact UInt32.not_le.2 h hle
  rw [fragmentReader, fragmentFields, List.append_assoc, List.append_assoc,
    Reader.bind_of_ok (Reader.u32_append _ _), Reader.bind_of_ok (Reader.u16_append _ _),
    Reader.bind_of_ok (Reader.u32_append _ _), if_neg hinside]
  rfl

/-- The length comes back, as it is a whole number of octets that fits when given in bits. -/
theorem payloadReader_append {payload : Octets} (h : payload.length < 8192) (rest : Octets) :
    payloadReader (((UInt16.ofNat (payload.length * 8)).toNat + 7) / 8) (payload ++ rest)
      = .ok (payload, rest) := by
  have hdeclared : ((UInt16.ofNat (payload.length * 8)).toNat + 7) / 8 = payload.length := by
    rw [UInt16.toNat_ofNat_of_lt' (show payload.length * 8 < 65536 by omega)]
    omega
  have henough : (payload ++ rest).atLeast payload.length = true :=
    Octets.atLeast_iff.2 (by rw [List.length_append]; omega)
  rw [hdeclared, payloadReader, if_pos henough, List.take_left, List.drop_left]

/-- **A message is read back**, and what follows it is left. -/
theorem reader_append (h : m.Sendable) (rest : Octets) :
    reader (m.encode ++ rest) = .ok (m, rest) := by
  obtain ⟨hguarantee, hmark⟩ := flags_parts m.reliability m.fragment.isSome
  have hindex := optionalReader_append Reader.serial (Octets.serial (m.index.getD Serial.zero))
    h.wellFormed.index fun index hmem => by
      rw [hmem]
      exact Reader.serial_append index
  have horder := optionalReader_append orderReader (orderFields (m.order.getD ⟨Serial.zero, 0⟩))
    h.wellFormed.order fun order hmem => by
      rw [hmem]
      exact orderReader_append order
  have hfragment := optionalReader_append (a := m.fragment) fragmentReader
    (fragmentFields (m.fragment.getD ⟨0, 0, 0⟩)) rfl fun mark hmem => by
      rw [hmem]
      exact fragmentReader_append (h.wellFormed.fragment mark hmem)
  rw [encode_eq]
  simp only [List.append_assoc]
  rw [reader, Reader.bind_of_ok (Reader.u8_append _ _), flags, hguarantee,
    Reader.bind_of_ok (reliabilityReader_id _ _), Reader.bind_of_ok (Reader.u16_append _ _),
    Reader.bind_of_ok (hindex _), Reader.bind_of_ok (horder _), hmark,
    Reader.bind_of_ok (hfragment _), Reader.bind_of_ok (payloadReader_append h.encodable _)]
  rfl

end Message

namespace Datagram

/-- Messages one after the other are read one after the other, to the end. -/
theorem messagesReader_flatMap {ms : List Message} (h : ∀ m ∈ ms, m.Sendable)
    (read : List Message) :
    messagesReader read (ms.flatMap Message.encode) = .ok (read.reverse ++ ms, []) := by
  induction ms generalizing read with
  | nil =>
    rw [messagesReader, List.flatMap_nil, if_neg (by decide), List.append_nil]
  | cons m ms ih =>
    have hm := Message.reader_append (h m List.mem_cons_self) (ms.flatMap Message.encode)
    have hlong :
        (m.encode ++ ms.flatMap Message.encode).atLeast Message.minHeaderLength = true := by
      have := m.three_le_encodedLength
      rw [Octets.atLeast_iff, List.length_append, Message.length_encode, Message.minHeaderLength]
      omega
    rw [List.flatMap_cons, messagesReader, if_pos hlong]
    split
    next hread =>
      rw [hm] at hread
      cases hread
      rw [ih (fun m' hm' => h m' (List.mem_cons_of_mem m hm')), List.reverse_cons,
        List.append_assoc]
      rfl
    next hread =>
      rw [hm] at hread
      cases hread

theorem reader_encode {d : Datagram} (h : ∀ m ∈ d.messages, m.Sendable) :
    reader d.encode = .ok (d, []) := by
  rw [reader, encode, List.append_assoc, Reader.bind_of_ok (Reader.u8_append _ _),
    if_pos (by decide), Reader.bind_of_ok (Reader.serial_append _ _),
    Reader.bind_of_ok (messagesReader_flatMap h [])]
  rfl

end Datagram

namespace Packet

/-- **A datagram is read back.** -/
theorem reader_datagram {d : Datagram} (h : ∀ m ∈ d.messages, m.Sendable) :
    reader (datagram d).encode = .ok (datagram d, []) := by
  show (do return datagram (← Datagram.reader) : Reader Packet) d.encode = _
  rw [Reader.bind_of_ok (Datagram.reader_encode h)]
  rfl

/-- An acknowledgement may be too long to be read back, but it is not taken for anything else. -/
theorem isDatagram_of_acknowledgement {a : Acknowledgement} {p : Packet} {rest : Octets}
    (h : reader (acknowledgement a).encode = .ok (p, rest)) : p.isDatagram = false := by
  have hhead : ((acknowledgement a).encode.head?.bind AckKind.ofId?) = some a.kind :=
    AckKind.ofId?_id a.kind
  unfold reader at h
  rw [hhead] at h
  obtain ⟨a', mid, -, hpure⟩ := Reader.bind_eq_ok.1 h
  cases hpure
  rfl

end Packet

/-! ## Control messages -/

namespace Reader

variable {α β : Type} {P : α → Prop} {Q : β → Prop}

/-- Whatever the reader returns has a property. -/
def Yields (r : Reader α) (P : α → Prop) : Prop :=
  ∀ ⦃bs : Octets⦄ ⦃a : α⦄ ⦃rest : Octets⦄, r bs = .ok (a, rest) → P a

theorem yields_pure {a : α} (h : P a) : Yields (pure a) P := by
  intro bs b rest hread
  cases hread
  exact h

theorem yields_fail (fault : Fault) : Yields (fail fault : Reader α) P := nofun

theorem yields_bind {r : Reader α} {f : α → Reader β} (h : ∀ a, Yields (f a) Q) :
    Yields (r >>= f) Q := by
  intro bs b rest hread
  obtain ⟨a, mid, -, hrest⟩ := bind_eq_ok.1 hread
  exact h a hrest

theorem yields_ite {c : Prop} [Decidable c] {r r' : Reader α} (h : c → Yields r P)
    (h' : ¬c → Yields r' P) : Yields (if c then r else r') P := by
  split
  next hc => exact h hc
  next hc => exact h' hc

end Reader

namespace Address

theorem length_of_encode {a : Address} {bs : Octets} (h : a.encode = .ok bs) :
    bs.length = recordLength := by
  unfold encode at h
  split at h
  · cases h
    simp only [List.length_append, Octets.length_u8, Octets.length_u32, Octets.length_u16,
      recordLength]
  · cases h

end Address

namespace ControlMessage

variable {m : ControlMessage} {payload fields : Octets}

theorem encode_eq_ok (h : m.encode = .ok payload) :
    ∃ fields, m.fields = .ok fields ∧ payload = m.id :: fields := by
  unfold encode at h
  cases hfields : m.fields with
  | error fault =>
    rw [hfields] at h
    cases h
  | ok fields =>
    rw [hfields] at h
    cases h
    exact ⟨fields, rfl, rfl⟩

theorem length_systemAddresses : ∃ bs, systemAddresses = .ok bs ∧ bs.length = 70 :=
  ⟨_, rfl, rfl⟩

/-- A message for use in a connection is short. The longest has an address record of its own and
the ten that nobody looks at. -/
theorem length_fields_le (h : m.fields = .ok fields) (hm : ControlId.isConnected m.id = true) :
    fields.length ≤ 95 := by
  obtain ⟨system, hsystem, hlength⟩ := length_systemAddresses
  have hhead {a : Address} {more : Octets → Octets} {bound : Nat}
      (h : (do let record ← a.encode; return more record) = Except.ok (ε := EncodeFault) fields)
      (hmore : ∀ record, record.length = 7 → (more record).length ≤ bound) :
      fields.length ≤ bound := by
    cases hrecord : a.encode with
    | error fault =>
      rw [hrecord] at h
      cases h
    | ok record =>
      rw [hrecord] at h
      cases h
      exact hmore record (Address.length_of_encode hrecord)
  cases m with
  | connectedPing | connectedPong | connectionRequest | detectLostConnections
  | connectionAttemptFailed | disconnectionNotification | connectionLost =>
    cases h
    simp
  | connectionRequestAccepted address index requested accepted =>
    simp only [ControlMessage.fields, hsystem] at h
    refine hhead h fun record hrecord => ?_
    simp [hrecord, hlength]
  | newIncomingConnection address server client =>
    simp only [ControlMessage.fields, hsystem] at h
    refine hhead h fun record hrecord => ?_
    simp [hrecord, hlength]
  | unconnectedPing _ _ openConnectionsOnly => cases openConnectionsOnly <;> cases hm
  | _ => cases hm

/-- **What is read is a message of the kind that the first octet says.** -/
theorem yields_fieldsReader (n : UInt8) : (fieldsReader n).Yields fun m => m.id = n := by
  unfold fieldsReader unconnectedPingReader openConnectionRequest1Reader
  repeat' refine Reader.yields_ite (fun hn => ?_) fun _ => ?_
  -- each branch is a row of fields, and then the message with the identifier that was asked for
  all_goals
    repeat refine Reader.yields_bind fun _ => ?_
    first
      | exact Reader.yields_fail _
      | exact Reader.yields_pure hn.symm

theorem reader_cons (n : UInt8) (fields : Octets) :
    reader (n :: fields) = fieldsReader n fields := by
  have hid : Reader.u8 (n :: fields) = .ok (n, fields) := Reader.u8_append n fields
  rw [reader, Reader.bind_of_ok hid]

theorem id_of_reader {n : UInt8} {bs rest : Octets} (h : reader (n :: bs) = .ok (m, rest)) :
    m.id = n := by
  rw [reader_cons] at h
  exact yields_fieldsReader n h

end ControlMessage

end DatagramTransport

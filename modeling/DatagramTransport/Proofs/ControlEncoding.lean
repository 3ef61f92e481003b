import DatagramTransport.Proofs.Encoding
import DatagramTransport.Proofs.Fields

/-!
# Encoding of control messages

Nineteen identifiers, each with a row of fields of its own, are written by one function and read by
another, and nothing but this correspondence holds the two together: **a message that can be sent is
read back**. What stands in the way of a message is an address of the long family, a string of
64 KiB, or a first request for a packet that is smaller than the request itself; and no message that
has been read is one of these (`yields_sendable`).

For most messages, fields end where they end, and octets behind them change nothing (`Reader.Gets`).
Three are `OpenEnded`: the length of the first request is its content, and in the two messages that
end the login the timestamps are found from the end of the packet.
-/

set_option autoImplicit false

namespace DatagramTransport

namespace Address

theorem gets_of_isV4 {a : Address} (h : a.IsV4) :
    ∃ record, a.encode = .ok record ∧ reader.Gets record a := by
  obtain ⟨bits, hbits⟩ := h
  obtain ⟨host, port⟩ := a
  cases hbits
  refine ⟨Octets.u8 recordVersion ++ (Octets.u32 (~~~bits) ++ Octets.u16 port), ?_, ?_⟩
  · show Except.ok (Octets.u8 recordVersion ++ Octets.u32 (~~~bits) ++ Octets.u16 port) = _
    rw [List.append_assoc]
  · intro rest
    rw [reader, List.append_assoc, Reader.bind_of_ok (Reader.u8_append _ _), if_pos rfl]
    have hbits : ~~~(~~~bits) = bits := UInt32.not_not
    have hensure : Reader.ensure (recordLength - 1)
        ((Octets.u32 (~~~bits) ++ Octets.u16 port) ++ rest)
          = .ok ((), (Octets.u32 (~~~bits) ++ Octets.u16 port) ++ rest) := by
      refine if_pos (Octets.atLeast_iff.2 ?_)
      simp only [List.length_append, Octets.length_u32, Octets.length_u16, recordLength]
      omega
    rw [Reader.bind_of_ok hensure, List.append_assoc, Reader.bind_of_ok (Reader.u32_append _ _),
      Reader.bind_of_ok (Reader.u16_append _ _), hbits]
    rfl

/-- A host of the long family that has a short form is written as that one. -/
theorem encode_of_toV4? {a : Address} {bits : UInt32} (h : a.host.toV4? = some bits) :
    a.encode = encode ⟨.v4 bits, a.port⟩ := by
  rw [encode, h]
  rfl

end Address

namespace Reader

theorem fromUTF8?_octets (s : String) :
    String.fromUTF8? ⟨s.toUTF8.data.toList.toArray⟩ = some s := by
  rw [Array.toArray_toList]
  show String.fromUTF8? s.toByteArray = some s
  rw [String.fromUTF8?, dif_pos s.isValidUTF8]
  rfl

/-- A string that is not too long is read back. -/
theorem gets_text {s : String} (h : s.utf8ByteSize ≤ 65535) :
    ∃ field, Octets.text s = .ok field ∧ text.Gets field s := by
  have hlength : s.toUTF8.data.toList.length = s.utf8ByteSize := Array.length_toList
  refine ⟨Octets.u16 (UInt16.ofNat s.toUTF8.data.toList.length) ++ s.toUTF8.data.toList,
    if_pos (by omega), ?_⟩
  refine Gets.bind (u16_append _) fun rest => ?_
  have hcount : (UInt16.ofNat s.toUTF8.data.toList.length).toNat
      = s.toUTF8.data.toList.length :=
    UInt16.toNat_ofNat_of_lt' (show s.toUTF8.data.toList.length < 65536 by omega)
  rw [hcount, bind_of_ok (octets_append rest rfl), fromUTF8?_octets]
  rfl

theorem Yields.bind {α β : Type} {P : α → Prop} {Q : β → Prop} {r : Reader α}
    {f : α → Reader β} (h : r.Yields P) (h' : ∀ a, P a → (f a).Yields Q) :
    (r >>= f).Yields Q := by
  intro bs b rest hread
  obtain ⟨a, mid, ha, hb⟩ := bind_eq_ok.1 hread
  exact h' a (h ha) hb

theorem yields_text : text.Yields fun s => s.utf8ByteSize ≤ 65535 := by
  intro bs s rest hread
  obtain ⟨length, _, -, hread⟩ := bind_eq_ok.1 hread
  obtain ⟨raw, mid, hraw, hread⟩ := bind_eq_ok.1 hread
  obtain ⟨-, hlength⟩ := octets_eq_ok.1 hraw
  have := length.toNat_lt
  cases hs : String.fromUTF8? ⟨raw.toArray⟩ with
  | none =>
    rw [hs] at hread
    cases hread
  | some s' =>
    rw [hs] at hread
    cases hread
    unfold String.fromUTF8? at hs
    split at hs
    · cases hs
      show raw.toArray.size ≤ 65535
      rw [List.size_toArray]
      omega
    · cases hs

end Reader

theorem Address.yields_isV4 : Address.reader.Yields Address.IsV4 := by
  refine Reader.yields_bind fun version => Reader.yields_ite (fun _ => ?_) fun _ => ?_
  · exact Reader.yields_bind fun _ => Reader.yields_bind fun bits => Reader.yields_bind fun port =>
      Reader.yields_pure ⟨~~~bits, rfl⟩
  · exact Reader.yields_fail _

namespace ControlMessage

theorem gets_magicReader : magicReader.Gets magic () := by
  intro rest
  rw [magicReader, Reader.bind_of_ok (Reader.octets_append rest rfl), if_pos rfl]
  rfl

/-- However many address records there are, all of them are skipped. -/
theorem skipAddresses_records {records : List Octets} {tail : Octets}
    (hrecords : ∀ record ∈ records, ∃ a, Address.reader.Gets record a)
    (htail : tail.length = loginTimestampsLength) :
    skipAddresses (records.flatten ++ tail) = .ok ((), tail) := by
  induction records with
  | nil =>
    have hend : ¬tail.atLeast (loginTimestampsLength + 1) = true := by
      rw [Octets.atLeast_iff]
      omega
    rw [List.flatten_nil, List.nil_append, skipAddresses, if_neg hend]
  | cons record records ih =>
    obtain ⟨a, ha⟩ := hrecords record List.mem_cons_self
    have hread := ha (records.flatten ++ tail)
    have hmore : (record ++ (records.flatten ++ tail)).atLeast (loginTimestampsLength + 1)
        = true := by
      have := Address.consumes_reader hread
      simp only [Octets.atLeast_iff, List.length_append] at this ⊢
      omega
    rw [List.flatten_cons, List.append_assoc, skipAddresses, if_pos hmore]
    split
    next hnext =>
      rw [hread] at hnext
      cases hnext
      exact ih fun r hr => hrecords r (List.mem_cons_of_mem record hr)
    next hnext =>
      rw [hread] at hnext
      cases hnext

theorem skipAddresses_systemAddresses : ∃ system, systemAddresses = .ok system ∧
    ∀ tail : Octets, tail.length = loginTimestampsLength →
      skipAddresses (system ++ tail) = .ok ((), tail) := by
  obtain ⟨record, hrecord, hread⟩ := Address.gets_of_isV4 (a := .unspecified) ⟨0, rfl⟩
  refine ⟨(List.replicate systemAddressCount record).flatten, ?_, fun tail htail => ?_⟩
  · rw [systemAddresses, hrecord]
    rfl
  · refine skipAddresses_records (fun r hr => ?_) htail
    rw [List.eq_of_mem_replicate hr]
    exact ⟨_, hread⟩

/-- The message has an encoding that says all of it. -/
def Sendable : ControlMessage → Prop
  | openConnectionRequest1 _ mtu => requestOverhead ≤ mtu.toNat
  | openConnectionRequest2 serverAddress _ _ => serverAddress.IsV4
  | openConnectionReply2 _ clientAddress _ _ => clientAddress.IsV4
  | connectionRequestAccepted clientAddress _ _ _ => clientAddress.IsV4
  | newIncomingConnection serverAddress _ _ => serverAddress.IsV4
  | unconnectedPong _ _ identifier => identifier.utf8ByteSize ≤ 65535
  | _ => True

/-- The length of the packet says something, so nothing may be put behind the message. -/
def OpenEnded : ControlMessage → Prop
  | openConnectionRequest1 .. | connectionRequestAccepted .. | newIncomingConnection .. => True
  | _ => False

variable {m : ControlMessage}

/-- The fields of a message that is not open-ended are read whatever comes behind. -/
theorem gets_fieldsReader (hm : m.Sendable) (hclosed : ¬m.OpenEnded) :
    ∃ fields, m.fields = .ok fields ∧ (fieldsReader m.id).Gets fields m := by
  cases m with
  | connectedPing timestamp =>
    exact ⟨_, rfl, .map (Reader.i64_append timestamp) connectedPing⟩
  | unconnectedPing timestamp clientGuid openConnectionsOnly =>
    refine ⟨_, rfl, ?_⟩
    rw [List.append_assoc]
    cases openConnectionsOnly <;>
      exact .bind (Reader.i64_append timestamp)
        (.bind gets_magicReader (.map (Reader.u64_append clientGuid) _))
  | connectedPong pingTimestamp pongTimestamp =>
    exact ⟨_, rfl, .bind (Reader.i64_append pingTimestamp)
      (.map (Reader.i64_append pongTimestamp) _)⟩
  | openConnectionReply1 serverGuid useSecurity mtu =>
    refine ⟨_, rfl, ?_⟩
    simp only [List.append_assoc]
    exact .bind gets_magicReader (.bind (Reader.u64_append serverGuid)
      (.bind (Reader.bool_append useSecurity) (.map (Reader.u16_append mtu) _)))
  | openConnectionRequest2 serverAddress mtu clientGuid =>
    obtain ⟨record, hrecord, hread⟩ := Address.gets_of_isV4 hm
    refine ⟨magic ++ (record ++ (Octets.u16 mtu ++ Octets.u64 clientGuid)), ?_, ?_⟩
    · simp only [ControlMessage.fields, hrecord, ← List.append_assoc]
      rfl
    · exact .bind gets_magicReader (.bind hread
        (.bind (Reader.u16_append mtu) (.map (Reader.u64_append clientGuid) _)))
  | openConnectionReply2 serverGuid clientAddress mtu useEncryption =>
    obtain ⟨record, hrecord, hread⟩ := Address.gets_of_isV4 hm
    refine ⟨magic ++ (Octets.u64 serverGuid
      ++ (record ++ (Octets.u16 mtu ++ Octets.bool useEncryption))), ?_, ?_⟩
    · simp only [ControlMessage.fields, hrecord, ← List.append_assoc]
      rfl
    · exact .bind gets_magicReader (.bind (Reader.u64_append serverGuid)
        (.bind hread (.bind (Reader.u16_append mtu) (.map (Reader.bool_append useEncryption) _))))
  | connectionRequest clientGuid timestamp useSecurity =>
    refine ⟨_, rfl, ?_⟩
    rw [List.append_assoc]
    exact .bind (Reader.u64_append clientGuid) (.bind (Reader.i64_append timestamp)
      (.map (Reader.bool_append useSecurity) _))
  | alreadyConnected serverGuid =>
    exact ⟨_, rfl, .bind gets_magicReader (.map (Reader.u64_append serverGuid) _)⟩
  | noFreeIncomingConnections serverGuid =>
    exact ⟨_, rfl, .bind gets_magicReader (.map (Reader.u64_append serverGuid) _)⟩
  | incompatibleProtocolVersion version serverGuid =>
    refine ⟨_, rfl, ?_⟩
    rw [List.append_assoc]
    exact .bind (Reader.u8_append version) (.bind gets_magicReader
      (.map (Reader.u64_append serverGuid) _))
  | unconnectedPong timestamp serverGuid identifier =>
    obtain ⟨field, hfield, hread⟩ := Reader.gets_text hm
    refine ⟨Octets.i64 timestamp ++ (Octets.u64 serverGuid ++ (magic ++ field)), ?_, ?_⟩
    · simp only [ControlMessage.fields, hfield, ← List.append_assoc]
      rfl
    · exact .bind (Reader.i64_append timestamp) (.bind (Reader.u64_append serverGuid)
        (.bind gets_magicReader (.map hread _)))
  | detectLostConnections | connectionAttemptFailed | disconnectionNotification
  | connectionLost => exact ⟨[], rfl, fun rest => rfl⟩
  | openConnectionRequest1 | connectionRequestAccepted | newIncomingConnection =>
    exact absurd trivial hclosed

/-- The padding of the first request makes its packet as long as it says. -/
theorem openConnectionRequest1Reader_padding (version : UInt8) {mtu : UInt16}
    (hroom : requestOverhead ≤ mtu.toNat) :
    openConnectionRequest1Reader
        (magic ++ Octets.u8 version ++ List.replicate (mtu.toNat - requestOverhead) 0)
      = .ok (openConnectionRequest1 version mtu, []) := by
  have hmtu : UInt16.ofNat (min (requestOverhead + (mtu.toNat - requestOverhead)) 65535)
      = mtu := by
    have := mtu.toNat_lt
    rw [Nat.add_sub_cancel' hroom, Nat.min_eq_left (by omega), UInt16.ofNat_toNat]
  have hrest (padding : Octets) : Reader.rest padding = .ok (padding, []) := rfl
  rw [openConnectionRequest1Reader, List.append_assoc, Reader.bind_of_ok (gets_magicReader _),
    Reader.bind_of_ok (Reader.u8_append _ _), Reader.bind_of_ok (hrest _), List.length_replicate,
    hmtu, Reader.pure_apply]

/-- The timestamps of the login are what is left when the addresses are skipped. -/
theorem timestamps_behind_addresses (system : Octets)
    (hskip : ∀ tail : Octets, tail.length = loginTimestampsLength →
      skipAddresses (system ++ tail) = .ok ((), tail))
    (message : Int64 → Int64 → ControlMessage) (first second : Int64) :
    (do
      skipAddresses
      let first ← Reader.i64
      let second ← Reader.i64
      return message first second : Reader ControlMessage)
        (system ++ (Octets.i64 first ++ Octets.i64 second)) = .ok (message first second, []) := by
  have htail : (Octets.i64 first ++ Octets.i64 second).length = loginTimestampsLength := by
    rw [List.length_append, Octets.length_i64, Octets.length_i64, loginTimestampsLength]
  refine (Reader.bind_of_ok (hskip _ htail)).trans ?_
  exact (Reader.Gets.bind (Reader.i64_append first)
    (.map (Reader.i64_append second) (message first))).eq_ok

/-- The fields of any message are read back from a packet that ends with them. -/
theorem fieldsReader_fields (hm : m.Sendable) :
    ∃ fields, m.fields = .ok fields ∧ fieldsReader m.id fields = .ok (m, []) := by
  have hclosed (h : ¬m.OpenEnded) :
      ∃ fields, m.fields = .ok fields ∧ fieldsReader m.id fields = .ok (m, []) := by
    obtain ⟨fields, hfields, hread⟩ := gets_fieldsReader hm h
    exact ⟨fields, hfields, hread.eq_ok⟩
  obtain ⟨system, hsystem, hskip⟩ := skipAddresses_systemAddresses
  cases m with
  | openConnectionRequest1 version mtu =>
    exact ⟨_, rfl, openConnectionRequest1Reader_padding version hm⟩
  | connectionRequestAccepted clientAddress systemIndex requestTimestamp acceptedTimestamp =>
    obtain ⟨record, hrecord, hread⟩ := Address.gets_of_isV4 hm
    refine ⟨record ++ (Octets.u16 systemIndex ++ (system ++ (Octets.i64 requestTimestamp
      ++ Octets.i64 acceptedTimestamp))), ?_, ?_⟩
    · simp only [ControlMessage.fields, hrecord, hsystem, ← List.append_assoc]
      rfl
    · refine (Reader.bind_of_ok (hread _)).trans ?_
      refine (Reader.bind_of_ok (Reader.u16_append systemIndex _)).trans ?_
      exact timestamps_behind_addresses system hskip
        (connectionRequestAccepted clientAddress systemIndex) requestTimestamp acceptedTimestamp
  | newIncomingConnection serverAddress serverTimestamp clientTimestamp =>
    obtain ⟨record, hrecord, hread⟩ := Address.gets_of_isV4 hm
    refine ⟨record ++ (system ++ (Octets.i64 serverTimestamp ++ Octets.i64 clientTimestamp)),
      ?_, ?_⟩
    · simp only [ControlMessage.fields, hrecord, hsystem, ← List.append_assoc]
      rfl
    · refine (Reader.bind_of_ok (hread _)).trans ?_
      exact timestamps_behind_addresses system hskip (newIncomingConnection serverAddress)
        serverTimestamp clientTimestamp
  | _ => exact hclosed fun h => h

theorem reader_encode (hm : m.Sendable) :
    ∃ fields, m.encode = .ok (m.id :: fields) ∧ reader (m.id :: fields) = .ok (m, []) := by
  obtain ⟨fields, hfields, hread⟩ := fieldsReader_fields hm
  refine ⟨fields, ?_, (reader_cons m.id fields).trans hread⟩
  rw [encode, hfields]
  rfl

/-- **A control message is read back.** One that can be sent has an encoding, which begins with the
message's identifier and is used up when it is read. Unless the message is open-ended, it is also
read back from a longer packet, of which it leaves the rest. -/
theorem read_back (m : ControlMessage) (hm : m.Sendable) :
    ∃ bs, m.encode = .ok bs ∧ bs.head? = some m.id ∧ reader bs = .ok (m, []) ∧
      (¬m.OpenEnded → ∀ rest, reader (bs ++ rest) = .ok (m, rest)) := by
  obtain ⟨fields, hencode, hread⟩ := reader_encode hm
  refine ⟨m.id :: fields, hencode, rfl, hread, fun hclosed rest => ?_⟩
  obtain ⟨fields', hfields', hgets⟩ := gets_fieldsReader hm hclosed
  obtain ⟨_, hfields, heq⟩ := encode_eq_ok hencode
  cases heq
  obtain rfl : fields = fields' := Except.ok.inj (hfields.symm.trans hfields')
  rw [List.cons_append, reader_cons, hgets rest]

/-- The smallest request there is has no padding at all, and its end is its length. The end of a
name is where its own length says. -/
theorem read_back_request_and_pong :
    let request := openConnectionRequest1 9 46
    let pong := unconnectedPong 1 2 "here;å"
    (∃ bs, request.encode = .ok bs ∧ bs.length = 18 ∧ reader bs = .ok (request, [])) ∧
      ∃ bs, pong.encode = .ok bs ∧ ∀ rest, reader (bs ++ rest) = .ok (pong, rest) := by
  intro request pong
  obtain ⟨bs, hencode, -, hread, -⟩ := read_back request (show 46 ≤ 46 from Nat.le_refl _)
  obtain ⟨bs', hencode', -, -, hrest⟩ := read_back pong
    (show "here;å".utf8ByteSize ≤ 65535 by decide)
  refine ⟨⟨bs, hencode, ?_, hread⟩, bs', hencode', hrest fun h => h⟩
  cases hencode
  rfl

/-! ## What was read can be sent -/

/-- The size of packet that a first request is read with has room for the request. -/
theorem requestOverhead_le (padding : Octets) : requestOverhead
    ≤ (UInt16.ofNat (min (requestOverhead + padding.length) 65535)).toNat := by
  have hfits : min (requestOverhead + padding.length) 65535 < 65536 := by omega
  have hoverhead : requestOverhead = 46 := rfl
  rw [UInt16.toNat_ofNat_of_lt' hfits]
  omega

/-- **A message that was read can be sent**, so nothing that can arrive is out of reach of an
encoding. -/
theorem yields_sendable (n : UInt8) : (fieldsReader n).Yields Sendable := by
  unfold fieldsReader unconnectedPingReader openConnectionRequest1Reader
  repeat' refine Reader.yields_ite (fun _ => ?_) fun _ => ?_
  -- a row of fields of which an address or a string counts, and then the message
  all_goals
    repeat first
      | refine Address.yields_isV4.bind fun _ haddress => ?_
      | refine Reader.yields_text.bind fun _ htext => ?_
      | refine Reader.yields_bind fun _ => ?_
    first
      | exact Reader.yields_fail _
      | exact Reader.yields_pure (requestOverhead_le _)
      | exact Reader.yields_pure (by assumption)
      | exact Reader.yields_pure trivial

end ControlMessage

end DatagramTransport

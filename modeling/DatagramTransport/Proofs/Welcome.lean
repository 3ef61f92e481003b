import DatagramTransport.Proofs.ControlEncoding
import DatagramTransport.Proofs.Directory

/-!
# Welcome — who is let in, and who is told so

A peer that asks to be let in gets a session and an answer, and the two are meant to go together: a
session without an answer is one whose peer knows nothing of it. But the session enters the table
before the answer is encoded, and the answer repeats the peer's address. **The two go together
unless the address has no record**, that is, unless it is one of the long family without a short
form: then there is a session, and nothing is sent.

Such a peer is not let in by asking again either, as by then it has a session.
-/

set_option autoImplicit false

namespace DatagramTransport

namespace EndPoint

variable {e : EndPoint} {now : Nanoseconds} {source : Address} {m reply : ControlMessage}

/-- The peer is sent the acceptance of its request, with this size of packet. -/
def Welcomed (source : Address) (mtu : UInt16) (effects : Effects) : Prop :=
  ∃ packet guid address encryption rest, (source, packet) ∈ effects.packets ∧
    ControlMessage.reader packet
      = .ok (.openConnectionReply2 guid address mtu encryption, rest)

/-- Either the peer gets a session that it did not have and is told its size of packet, or nothing
changes and nothing of that kind is sent. -/
def Candid (source : Address) (before : EndPoint) (done : Effects × EndPoint) : Prop :=
  (∃ s, before.sessions.has source = false ∧
      done.2 = { before with sessions := before.sessions.insert source s } ∧
      Welcomed source s.link.mtu done.1) ∨
    done.2 = before ∧ ∀ mtu, ¬Welcomed source mtu done.1

/-! ## What an answer is -/

theorem welcomed_ofPeer {mtu : UInt16} {packet : Octets} :
    Welcomed source mtu (.ofPeer source [packet] []) ↔
      ∃ guid address encryption rest, ControlMessage.reader packet
        = .ok (.openConnectionReply2 guid address mtu encryption, rest) := by
  constructor
  · rintro ⟨packet', guid, address, encryption, rest, hmem, hread⟩
    cases List.mem_singleton.1 hmem
    exact ⟨guid, address, encryption, rest, hread⟩
  · rintro ⟨guid, address, encryption, rest, hread⟩
    exact ⟨packet, guid, address, encryption, rest, List.mem_singleton.2 rfl, hread⟩

theorem not_welcomed_none {mtu : UInt16} : ¬Welcomed source mtu .none := by
  rintro ⟨packet, guid, address, encryption, rest, hmem, -⟩
  exact absurd hmem List.not_mem_nil

/-- Only an acceptance is read as one. -/
theorem not_welcomed_of_id {mtu : UInt16} {packet : Octets} (hencode : reply.encode = .ok packet)
    (hid : reply.id ≠ ControlId.openConnectionReply2) :
    ¬Welcomed source mtu (.ofPeer source [packet] []) := by
  rw [welcomed_ofPeer]
  rintro ⟨guid, address, encryption, rest, hread⟩
  obtain ⟨fields, -, rfl⟩ := ControlMessage.encode_eq_ok hencode
  exact hid (ControlMessage.id_of_reader hread).symm

/-- An acceptance that has an encoding is read as what it says of the size of packet. -/
theorem welcomed_of_toV4? {bits : UInt32} (h : source.host.toV4? = some bits) (guid : UInt64)
    (mtu : UInt16) :
    ∃ packet, (ControlMessage.openConnectionReply2 guid source mtu false).encode = .ok packet ∧
      Welcomed source mtu (.ofPeer source [packet] []) := by
  obtain ⟨fields, hencode, hread⟩ := ControlMessage.reader_encode
    (m := .openConnectionReply2 guid ⟨.v4 bits, source.port⟩ mtu false) ⟨bits, rfl⟩
  refine ⟨_, ?_, welcomed_ofPeer.2 ⟨guid, _, false, [], hread⟩⟩
  rw [← hencode]
  simp only [ControlMessage.encode, ControlMessage.fields, Address.encode_of_toV4? h]
  rfl

theorem encode_of_not_toV4? (h : source.host.toV4? = none) (guid : UInt64) (mtu : UInt16) :
    (ControlMessage.openConnectionReply2 guid source mtu false).encode
      = .error (.addressVersion 6) := by
  have hrecord : source.encode = .error (.addressVersion 6) := by
    rw [Address.encode, h]
  simp only [ControlMessage.encode, ControlMessage.fields, hrecord]
  rfl

/-! ## What is answered -/

/-- The message asks to be let in, and there is a place for its sender. -/
def Admits (e : EndPoint) (source : Address) : ControlMessage → Prop
  | .openConnectionRequest2 .. => e.rejection? source = none
  | _ => False

/-- One sort of message changes something, and it is answered by an acceptance; no other is. -/
theorem answer?_cases (now : Nanoseconds) (source : Address) (m : ControlMessage) (e : EndPoint) :
    (e.Admits source m ∧ ∃ guid mtu, e.answer? now source m
      = (some (.openConnectionReply2 e.settings.guid source mtu false),
          e.admitted now source guid mtu)) ∨
    ¬e.Admits source m ∧ (e.answer? now source m).2 = e ∧
      ∀ reply ∈ (e.answer? now source m).1, reply.id ≠ ControlId.openConnectionReply2 := by
  have hrejection : ∀ reply ∈ e.rejection? source, reply.id ≠ ControlId.openConnectionReply2 := by
    intro reply hreply
    unfold rejection? at hreply
    split at hreply
    · cases hreply
      exact (by decide : ControlId.alreadyConnected ≠ ControlId.openConnectionReply2)
    · split at hreply <;> cases hreply
      exact (by decide : ControlId.noFreeIncomingConnections ≠ ControlId.openConnectionReply2)
  cases m with
  | openConnectionRequest2 server mtu guid =>
    cases hplace : e.rejection? source with
    | none =>
      refine Or.inl ⟨hplace, guid, e.negotiateMtu mtu, ?_⟩
      simp only [answer?, answerRequest2, hplace]
      rfl
    | some rejection =>
      refine Or.inr ⟨fun hnone => ?_, ?_⟩
      · rw [Admits, hplace] at hnone
        cases hnone
      · simp only [answer?, answerRequest2, hplace]
        exact ⟨trivial, fun reply hreply => hrejection reply (hplace ▸ hreply)⟩
  | openConnectionRequest1 version mtu =>
    refine Or.inr ⟨fun h => h, rfl, fun reply hreply => ?_⟩
    cases hreply
    unfold answerRequest1
    split
    · cases hplace : e.rejection? source with
      | none => exact (by decide : ControlId.openConnectionReply1 ≠ ControlId.openConnectionReply2)
      | some rejection => exact hrejection rejection hplace
    · exact (by decide :
        ControlId.incompatibleProtocolVersion ≠ ControlId.openConnectionReply2)
  | unconnectedPing timestamp guid openConnectionsOnly =>
    refine Or.inr ⟨fun h => h, rfl, fun reply hreply => ?_⟩
    simp only [answer?] at hreply
    split at hreply <;> cases hreply
    exact (by decide : ControlId.unconnectedPong ≠ ControlId.openConnectionReply2)
  | _ => exact Or.inr ⟨fun h => h, rfl, fun reply hreply => by cases hreply⟩

/-! ## Both together -/

theorem has_eq_false_of_admits (h : e.Admits source m) : e.sessions.has source = false := by
  cases m with
  | openConnectionRequest2 => exact (rejection?_eq_none_iff.1 h).1
  | _ => exact h.elim

/-- A peer whose address has no record is let in and hears nothing. -/
theorem receiveOffline_unheard {packet left : Octets} {server : Address} {mtu : UInt16}
    {guid : UInt64} (now : Nanoseconds)
    (hread : ControlMessage.reader packet = .ok (.openConnectionRequest2 server mtu guid, left))
    (hplace : e.rejection? source = none) (hrecord : source.host.toV4? = none) :
    e.receiveOffline now source packet
      = (.none, e.admitted now source guid (e.negotiateMtu mtu)) := by
  simp only [receiveOffline, hread, answer?, answerRequest2, hplace, encode_of_not_toV4? hrecord]
  rfl

theorem not_candid_unheard {guid : UInt64} {mtu : UInt16} (hnew : e.sessions.has source = false) :
    ¬Candid source e (.none, e.admitted now source guid mtu) := by
  rintro (⟨s, -, -, hwelcomed⟩ | ⟨hsame, -⟩)
  · exact not_welcomed_none hwelcomed
  · have hsame : e.admitted now source guid mtu = e := hsame
    have hin : (e.admitted now source guid mtu).sessions.has source = true := by
      rw [Table.has, admitted, Table.get?_insert_self]
      rfl
    rw [hsame, hnew] at hin
    cases hin

/-- Otherwise, what becomes of the packet is seen by its sender. -/
theorem candid_receiveOffline {packet left : Octets} (now : Nanoseconds)
    (hread : ControlMessage.reader packet = .ok (m, left))
    (hheard : ¬(e.Admits source m ∧ source.host.toV4? = none)) :
    Candid source e (e.receiveOffline now source packet) := by
  rw [receiveOffline, hread]
  simp only
  rcases answer?_cases now source m e with ⟨hadmits, guid, mtu, hanswer⟩ | ⟨-, hsame, hother⟩
  · obtain ⟨bits, hbits⟩ := Option.ne_none_iff_exists'.1 fun hnone => hheard ⟨hadmits, hnone⟩
    obtain ⟨packet', hencode, hwelcomed⟩ := welcomed_of_toV4? hbits e.settings.guid mtu
    rw [hanswer]
    simp only [hencode]
    exact Or.inl ⟨_, has_eq_false_of_admits hadmits, rfl, hwelcomed⟩
  · generalize e.answer? now source m = answered at hsame hother
    obtain ⟨reply?, e'⟩ := answered
    cases hsame
    cases reply? with
    | none => exact Or.inr ⟨rfl, fun mtu => not_welcomed_none⟩
    | some reply =>
      cases hencode : reply.encode with
      | ok packet' =>
        simp only [hencode]
        exact Or.inr ⟨rfl, fun mtu => not_welcomed_of_id hencode (hother reply rfl)⟩
      | error fault =>
        simp only [hencode]
        exact Or.inr ⟨rfl, fun mtu => not_welcomed_none⟩

/-- **Who is let in is told so, if the address can be written.** A packet from without a connection
gives its sender a session and the acceptance with that session's size of packet, or neither of the
two, with one exception: a request that there is a place for, from an address without a record. Its
sender gets the session, and nothing is sent. -/
theorem welcome_iff {id : UInt8} (hid : ControlId.isOffline id = true) (e : EndPoint)
    (now : Nanoseconds) (source : Address) (rest : Octets) :
    (Candid source e (e.receive now source (id :: rest)) ↔
      ¬∃ server mtu guid left, ControlMessage.reader (id :: rest)
          = .ok (.openConnectionRequest2 server mtu guid, left) ∧
        e.rejection? source = none ∧ source.host.toV4? = none) ∧
    ∀ server mtu guid left, ControlMessage.reader (id :: rest)
        = .ok (.openConnectionRequest2 server mtu guid, left) →
      e.rejection? source = none → source.host.toV4? = none →
      e.receive now source (id :: rest)
        = (.none, e.admitted now source guid (e.negotiateMtu mtu)) := by
  have hreceive : e.receive now source (id :: rest)
      = e.receiveOffline now source (id :: rest) := if_pos hid
  rw [hreceive]
  refine ⟨⟨?_, fun hheard => ?_⟩, fun server mtu guid left hread hplace hrecord =>
    receiveOffline_unheard now hread hplace hrecord⟩
  · rintro hcandid ⟨server, mtu, guid, left, hread, hplace, hrecord⟩
    rw [receiveOffline_unheard now hread hplace hrecord] at hcandid
    exact not_candid_unheard (rejection?_eq_none_iff.1 hplace).1 hcandid
  · cases hread : ControlMessage.reader (id :: rest) with
    | error fault =>
      rw [receiveOffline, hread]
      exact Or.inr ⟨rfl, fun mtu => not_welcomed_none⟩
    | ok result =>
      obtain ⟨m, left⟩ := result
      refine candid_receiveOffline now hread fun ⟨hadmits, hrecord⟩ => hheard ?_
      cases m with
      | openConnectionRequest2 server mtu guid =>
        exact ⟨server, mtu, guid, left, hread, hadmits, hrecord⟩
      | _ => exact hadmits.elim

/-- With the settings that nobody changed, a peer at `[::1]:5` asks to be let in. -/
theorem welcome_withheld :
    let e : EndPoint := ⟨{}, []⟩
    let source : Address := ⟨.v6 1 0, 5⟩
    let request : Octets := [0x07, 0x00, 0xff, 0xff, 0x00, 0xfe, 0xfe, 0xfe, 0xfe, 0xfd, 0xfd, 0xfd,
      0xfd, 0x12, 0x34, 0x56, 0x78, 0x04, 0x80, 0xff, 0xff, 0xfe, 0x4a, 0xbc, 0x05, 0xb8,
      0, 0, 0, 0, 0, 0, 0, 42]
    EndPoint.create {} = .ok e ∧ ¬Candid source e (e.receive 0 source request) ∧
      e.receive 0 source request = (.none, e.admitted 0 source 42 1464) := by
  intro e source request
  have hread : ControlMessage.reader request
      = .ok (.openConnectionRequest2 ⟨.ofQuad 127 0 0 1, 19132⟩ 1464 42, []) := by
    decide +kernel
  have hid : ControlId.isOffline 0x07 = true := by decide
  obtain ⟨hcandid, hunheard⟩ := welcome_iff hid e 0 source request.tail
  refine ⟨rfl, fun h => hcandid.1 h ⟨_, _, _, _, hread, rfl, by decide⟩, ?_⟩
  exact hunheard _ _ _ _ hread rfl (by decide)

end EndPoint

end DatagramTransport

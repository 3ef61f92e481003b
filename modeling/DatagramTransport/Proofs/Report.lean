import DatagramTransport.Proofs.Canonical
import DatagramTransport.Proofs.Envelope
import DatagramTransport.Proofs.Fields
import Mathlib.Data.List.Forall2

/-!
# Reports — acknowledgements on their way to the other end

Numbers are condensed to ranges, the ranges distributed over packets, and at the other end the
packets are read. A reader refuses a packet as a whole for a single range that is too long, and
nothing on the way there has looked at how long ranges get: what is built is the canonical form of
the set. So **the numbers get through exactly if there is no row of more than 65536 of them**, and
with a longer row everything is lost that shares a packet with it.
-/

set_option autoImplicit false

namespace DatagramTransport

namespace SerialRange

/-- A range of either form is read back, before its length is looked at. -/
theorem encode_eq (r : SerialRange) :
    ∃ type fields, r.encode = Octets.u8 type ++ fields ∧ (endsReader type).Gets fields r := by
  obtain ⟨first, last⟩ := r
  by_cases heq : first = last
  · subst heq
    refine ⟨singleType, Octets.serial first, if_pos (decide_eq_true rfl), ?_⟩
    exact Reader.Gets.map (Reader.serial_append first) single
  · refine ⟨rangeType, Octets.serial first ++ Octets.serial last, ?_, ?_⟩
    · rw [encode, if_neg (by simpa [isSingle] using heq), List.append_assoc]
    · exact Reader.Gets.bind (Reader.serial_append first)
        (Reader.Gets.map (Reader.serial_append last) (SerialRange.mk first))

theorem reader_append (r : SerialRange) (rest : Octets) :
    reader (r.encode ++ rest) = if maxLength < r.length
      then .error (.malformed (.recordTooLong r.first r.last)) else .ok (r, rest) := by
  obtain ⟨type, fields, hencode, hfields⟩ := r.encode_eq
  rw [hencode, List.append_assoc, reader, Reader.bind_of_ok (Reader.u8_append _ _),
    Reader.bind_of_ok (hfields rest)]
  split <;> rfl

end SerialRange

namespace Acknowledgement

variable {kind : AckKind} {a : Acknowledgement} {ranges : List SerialRange} {limit : Nat}

theorem rangesReader_flatMap (h : ∀ r ∈ ranges, r.length ≤ SerialRange.maxLength)
    (read : List SerialRange) (rest : Octets) :
    rangesReader ranges.length read (ranges.flatMap SerialRange.encode ++ rest)
      = .ok (read.reverse ++ ranges, rest) := by
  induction ranges generalizing read with
  | nil => rw [List.flatMap_nil, List.append_nil]; rfl
  | cons r ranges ih =>
    have hr := Nat.not_lt.2 (h r List.mem_cons_self)
    rw [List.flatMap_cons, List.append_assoc, List.length_cons, rangesReader,
      r.reader_append, if_neg hr]
    simp only
    rw [ih (fun q hq => h q (List.mem_cons_of_mem r hq)), List.reverse_cons, List.append_assoc,
      List.singleton_append]

/-- The first range that is too long is as far as a reader gets. -/
theorem rangesReader_refuses (h : ∃ r ∈ ranges, SerialRange.maxLength < r.length)
    (read : List SerialRange) (rest : Octets) :
    ∃ r ∈ ranges, SerialRange.maxLength < r.length ∧
      rangesReader ranges.length read (ranges.flatMap SerialRange.encode ++ rest)
        = .error (.malformed (.recordTooLong r.first r.last)) := by
  induction ranges generalizing read with
  | nil =>
    obtain ⟨r, hr, -⟩ := h
    exact absurd hr List.not_mem_nil
  | cons q ranges ih =>
    rw [List.flatMap_cons, List.append_assoc, List.length_cons, rangesReader, q.reader_append]
    by_cases hq : SerialRange.maxLength < q.length
    · exact ⟨q, List.mem_cons_self, hq, by rw [if_pos hq]⟩
    · obtain ⟨r, hr, hlong⟩ := h
      have hr : r ∈ ranges := by
        rcases List.mem_cons.1 hr with rfl | hr
        · exact absurd hlong hq
        · exact hr
      obtain ⟨r, hr, hlong, hrefuses⟩ := ih ⟨r, hr, hlong⟩ (q :: read)
      exact ⟨r, List.mem_cons_of_mem q hr, hlong, by rw [if_neg hq]; exact hrefuses⟩

/-- **A packet is read back, or refused for one of its ranges.** -/
theorem reader_encode_cases (ha : a.Encodable) :
    ((∀ r ∈ a.ranges, r.length ≤ SerialRange.maxLength) ∧ reader a.encode = .ok (a, [])) ∨
      ∃ r ∈ a.ranges, SerialRange.maxLength < r.length ∧
        reader a.encode = .error (.malformed (.recordTooLong r.first r.last)) := by
  have hcount : (UInt16.ofNat a.ranges.length).toNat = a.ranges.length :=
    UInt16.toNat_ofNat_of_lt' ha
  -- up to the ranges, every packet is read in the same way
  have hread : reader a.encode = (do
      let ranges ← rangesReader a.ranges.length []
      return ⟨a.kind, ranges⟩ : Reader Acknowledgement)
        (a.ranges.flatMap SerialRange.encode ++ []) := by
    rw [reader, encode, List.append_assoc, Reader.bind_of_ok (Reader.u8_append _ _),
      AckKind.ofId?_id]
    simp only
    rw [Reader.bind_of_ok (Reader.u16_append _ _), hcount, List.append_nil]
  by_cases h : ∃ r ∈ a.ranges, SerialRange.maxLength < r.length
  · obtain ⟨r, hr, hlong, hrefuses⟩ := rangesReader_refuses h [] []
    exact Or.inr ⟨r, hr, hlong, by rw [hread, Reader.bind_of_error hrefuses]⟩
  · have hshort : ∀ r ∈ a.ranges, r.length ≤ SerialRange.maxLength := fun r hr =>
      Nat.not_lt.1 fun hlong => h ⟨r, hr, hlong⟩
    refine Or.inl ⟨hshort, ?_⟩
    rw [hread, Reader.bind_of_ok (rangesReader_flatMap hshort [] [])]
    rfl

/-! ## What is built -/

theorem flatMap_ranges_build (kind : AckKind) (ranges : List SerialRange) (limit : Nat) :
    (build kind ranges limit).flatMap Acknowledgement.ranges = SerialRange.condense ranges := by
  rw [build, List.flatMap_map, List.flatMap_id', Packing.flatten_groups]

/-- The packets list the numbers of the ranges in the canonical form, one after the other. -/
theorem flatMap_numbers_build (kind : AckKind) (ranges : List SerialRange) (limit : Nat) :
    (build kind ranges limit).flatMap numbers
      = (SerialRange.condense ranges).flatMap SerialRange.toList := by
  rw [← flatMap_ranges_build kind ranges limit, List.flatMap_assoc]
  rfl

theorem encodable_of_mem_build (hleast : 10 ≤ limit) (hmost : limit ≤ 1472)
    (ha : a ∈ build kind ranges limit) : a.Encodable := by
  have hlength := encodedLength_le_of_mem_build hleast ha
  exact Packet.encodable_of_encodedLength_le (p := .acknowledgement a) (by
    show a.encodedLength ≤ 8192
    omega)

/-! ## What arrives -/

/-- The packets report the numbers: each can be read from what is written for it, and together those
that were read list exactly these numbers, each of them once. -/
def Reports (packets : List Acknowledgement) (reported : List Serial) : Prop :=
  ∃ received : List Acknowledgement,
    List.Forall₂ (fun sent a => reader sent.encode = .ok (a, [])) packets received ∧
      (received.flatMap numbers).Nodup ∧ ∀ s, s ∈ received.flatMap numbers ↔ s ∈ reported

theorem reader_encode_eq_ok {a b : Acknowledgement} (ha : a.Encodable) :
    reader a.encode = .ok (b, []) ↔ b = a ∧ ∀ r ∈ a.ranges, r.length ≤ SerialRange.maxLength := by
  rcases reader_encode_cases ha with ⟨hshort, hread⟩ | ⟨r, hr, hlong, hrefuses⟩
  · rw [hread]
    constructor
    · rintro ⟨⟩
      exact ⟨rfl, hshort⟩
    · rintro ⟨rfl, -⟩
      rfl
  · rw [hrefuses]
    constructor
    · rintro ⟨⟩
    · rintro ⟨-, hshort⟩
      exact absurd hlong (Nat.not_lt.2 (hshort r hr))

/-- Packets that are all read are read as what was sent, and none of their ranges is too long. -/
theorem forall₂_reader_iff {packets received : List Acknowledgement}
    (h : ∀ a ∈ packets, a.Encodable) :
    List.Forall₂ (fun sent a => reader sent.encode = .ok (a, [])) packets received
      ↔ received = packets ∧
        ∀ r ∈ packets.flatMap Acknowledgement.ranges, r.length ≤ SerialRange.maxLength := by
  induction packets generalizing received with
  | nil => simp
  | cons a packets ih =>
    have hothers (others : List Acknowledgement) := @ih others fun b hb =>
      h b (List.mem_cons_of_mem a hb)
    have hfirst (b : Acknowledgement) := @reader_encode_eq_ok a b (h a List.mem_cons_self)
    simp only [List.forall₂_cons_left_iff, hothers, hfirst, List.flatMap_cons]
    constructor
    · rintro ⟨b, others, ⟨rfl, ha⟩, ⟨rfl, hpackets⟩, rfl⟩
      exact ⟨rfl, List.forall_mem_append.2 ⟨ha, hpackets⟩⟩
    · rintro ⟨rfl, hshort⟩
      obtain ⟨ha, hpackets⟩ := List.forall_mem_append.1 hshort
      exact ⟨a, packets, ⟨rfl, ha⟩, ⟨rfl, hpackets⟩, rfl⟩

/-- **What becomes of a report.** All packets can be written. Each is read back, or refused as a
whole for a range that is too long; and the numbers arrive, each once, exactly if there is a gap in
every row of 65537 numbers. -/
theorem reports_iff (kind : AckKind) (reported : List Serial) (hleast : 10 ≤ limit)
    (hmost : limit ≤ 1472) :
    (∀ a ∈ build kind (reported.map SerialRange.single) limit,
      a.encode? = some a.encode ∧
        (reader a.encode = .ok (a, []) ∨
          ∃ r ∈ a.ranges, SerialRange.maxLength < r.length ∧
            reader a.encode = .error (.malformed (.recordTooLong r.first r.last)))) ∧
    (Reports (build kind (reported.map SerialRange.single) limit) reported
      ↔ ∀ s : Serial, s.val + 65536 < 16777216 → ∃ k ≤ 65536, s.plus k ∉ reported) := by
  have hencodable : ∀ a ∈ build kind (reported.map SerialRange.single) limit, a.Encodable :=
    fun a ha => encodable_of_mem_build hleast hmost ha
  constructor
  · intro a ha
    exact ⟨if_pos (hencodable a ha), (reader_encode_cases (hencodable a ha)).imp_left And.right⟩
  have hcanonical := SerialRange.canonical_condense (reported.map SerialRange.single)
  -- they arrive if no range is too long, and the rest is about the lengths of ranges
  have hshort : Reports (build kind (reported.map SerialRange.single) limit) reported
      ↔ ∀ r ∈ SerialRange.condense (reported.map SerialRange.single),
          r.length ≤ SerialRange.maxLength := by
    unfold Reports
    simp only [forall₂_reader_iff hencodable, flatMap_ranges_build]
    constructor
    · rintro ⟨received, ⟨-, hshort⟩, -⟩
      exact hshort
    · intro hshort
      refine ⟨_, ⟨rfl, hshort⟩, ?_⟩
      rw [flatMap_numbers_build]
      exact ⟨hcanonical.nodup_numbers, fun s => SerialRange.mem_numbers_condense_single⟩
  have hcover (s : Serial) : SerialRange.Cover (SerialRange.condense
      (reported.map SerialRange.single)) s ↔ s ∈ reported :=
    hcanonical.mem_numbers.symm.trans SerialRange.mem_numbers_condense_single
  have hlonger := hcanonical.exists_longer_iff SerialRange.maxLength
  simp only [hcover] at hlonger
  rw [hshort]
  constructor
  · intro hranges s hbelow
    by_contra hrow
    push Not at hrow
    obtain ⟨r, hr, hlong⟩ := hlonger.2 ⟨s, hbelow, hrow⟩
    exact Nat.not_lt.2 (hranges r hr) hlong
  · intro hgaps r hr
    by_contra hlong
    obtain ⟨s, hbelow, hrow⟩ := hlonger.1 ⟨r, hr, Nat.not_le.1 hlong⟩
    obtain ⟨k, hk, hgap⟩ := hgaps s hbelow
    exact hgap (hrow k hk)

/-- Of the first 65536 numbers a report arrives. One number more, and the only range of the only
packet is refused. -/
theorem reports_row_but_not_longer :
    let row (count : Nat) : List Serial := (List.range count).map Serial.ofNat
    Reports (build .nack ((row 65536).map SerialRange.single) 1472) (row 65536) ∧
      ¬Reports (build .nack ((row 65537).map SerialRange.single) 1472) (row 65537) := by
  intro row
  have hmem (count : Nat) (hcount : count ≤ 16777216) (s : Serial) :
      s ∈ row count ↔ s.val < count := by
    simp only [row, List.mem_map, List.mem_range]
    constructor
    · rintro ⟨n, hn, rfl⟩
      rw [Serial.val_ofNat]
      omega
    · intro hs
      exact ⟨s.val, hs, s.ofNat_val⟩
  constructor
  · refine (reports_iff .nack (row 65536) (by decide) (by decide)).2.2 fun s hbelow => ?_
    refine ⟨65536, Nat.le_refl _, ?_⟩
    rw [hmem 65536 (by decide), Serial.val_plus]
    omega
  · intro hreports
    obtain ⟨k, hk, hgap⟩ := (reports_iff .nack (row 65537) (by decide) (by decide)).2.1 hreports
      Serial.zero (by decide)
    refine hgap ((hmem 65537 (by decide) _).2 ?_)
    have hzero : Serial.zero.val = 0 := rfl
    rw [Serial.val_plus, hzero]
    omega

end Acknowledgement

end DatagramTransport

import DatagramTransport.Proofs.Report

/-!
# Listings — the format of acknowledgements, both ways

A range has more than one spelling: whatever its type octet is, but for one, it may give both of its
ends, and these may be equal. Writing knows a single form of each range. **So reading goes through
whatever is written, and what was read from any octets is read again from its one form**: nothing
that a reader lets pass is too long to be written, or written as something else.

`CountsUp` says what the numbers of a range are without computing an offset. It is counted in single
steps, and a range across the wrap-around is not a case of its own.
-/

set_option autoImplicit false

namespace DatagramTransport

namespace Serial

/-- Counting up from one number to another, which stops as soon as it is reached. -/
inductive CountsUp : Serial → Serial → List Serial → Prop
  | done (s : Serial) : CountsUp s s [s]
  | step {s t : Serial} {row : List Serial} :
      s ≠ t → CountsUp s.next t row → CountsUp s t (s :: row)

theorem countsUp_of_distanceFrom (n : Nat) (s t : Serial) (h : t.distanceFrom s = n) :
    CountsUp s t ((List.range (n + 1)).map s.plus) := by
  induction n generalizing s with
  | zero =>
    obtain rfl := distanceFrom_eq_zero_iff.1 h
    have hrow : (List.range (0 + 1)).map t.plus = [t] := by simp [plus]
    rw [hrow]
    exact CountsUp.done t
  | succ n ih =>
    have hne : s ≠ t := by
      rintro rfl
      rw [distanceFrom_self] at h
      cases h
    have hnext : t.distanceFrom s.next = n := by
      have := t.distanceFrom_lt s
      rw [next, distanceFrom_plus_right t s (by decide), h]
      omega
    have hrow : (List.range (n + 1 + 1)).map s.plus
        = s :: (List.range (n + 1)).map s.next.plus := by
      rw [List.range_succ_eq_map, List.map_cons, List.map_map]
      congr 1
      · simp [plus]
      · refine List.map_congr_left fun k _ => Serial.ext ?_
        simp only [Function.comp_apply, val_plus, val_next]
        omega
    rw [hrow]
    exact CountsUp.step hne (ih s.next hnext)

end Serial

namespace SerialRange

variable {r : SerialRange} {bs rest : Octets}

theorem countsUp_toList (r : SerialRange) : Serial.CountsUp r.first r.last r.toList :=
  Serial.countsUp_of_distanceFrom _ r.first r.last rfl

theorem length_le_of_reader (h : reader bs = .ok (r, rest)) : r.length ≤ maxLength := by
  obtain ⟨type, _, -, h⟩ := Reader.bind_eq_ok.1 h
  obtain ⟨ends, _, -, h⟩ := Reader.bind_eq_ok.1 h
  split at h
  next => cases h
  next hlong =>
    cases h
    exact Nat.not_lt.1 hlong

end SerialRange

namespace Acknowledgement

variable {a : Acknowledgement} {read ranges : List SerialRange} {count : Nat} {bs rest : Octets}

/-- As many ranges are read as were asked for, and none of them is too long. -/
theorem eq_append_of_rangesReader (h : rangesReader count read bs = .ok (ranges, rest)) :
    ∃ more, ranges = read.reverse ++ more ∧ more.length = count ∧
      ∀ r ∈ more, r.length ≤ SerialRange.maxLength := by
  fun_induction rangesReader count read bs with
  | case1 read bs =>
    cases h
    exact ⟨[], (List.append_nil _).symm, rfl, by simp⟩
  | case2 read bs count r behind hr ih =>
    obtain ⟨more, rfl, rfl, hmore⟩ := ih h
    refine ⟨r :: more, ?_, rfl, List.forall_mem_cons.2 ⟨?_, hmore⟩⟩
    · rw [List.reverse_cons, List.append_assoc, List.singleton_append]
    · exact SerialRange.length_le_of_reader hr
  | case3 read bs count fault hfault => cases h

/-- What the front of a packet demands of the ranges that are read from it. -/
theorem readable_of_reader (h : reader bs = .ok (a, rest)) :
    a.Encodable ∧ ∀ r ∈ a.ranges, r.length ≤ SerialRange.maxLength := by
  obtain ⟨n, _, -, h⟩ := Reader.bind_eq_ok.1 h
  cases hkind : AckKind.ofId? n with
  | none =>
    rw [hkind] at h
    cases h
  | some kind =>
    rw [hkind] at h
    obtain ⟨count, _, -, h⟩ := Reader.bind_eq_ok.1 h
    obtain ⟨ranges, _, hranges, h⟩ := Reader.bind_eq_ok.1 h
    cases h
    obtain ⟨more, rfl, hcount, hmore⟩ := eq_append_of_rangesReader hranges
    refine ⟨?_, hmore⟩
    show ranges.length < 65536
    rw [hcount]
    exact count.toNat_lt

theorem gets_encode (ha : a.Encodable) (hshort : ∀ r ∈ a.ranges, r.length ≤ SerialRange.maxLength) :
    reader.Gets a.encode a := by
  intro rest
  have hcount : (UInt16.ofNat a.ranges.length).toNat = a.ranges.length :=
    UInt16.toNat_ofNat_of_lt' ha
  rw [reader, encode, List.append_assoc, List.append_assoc,
    Reader.bind_of_ok (Reader.u8_append _ _), AckKind.ofId?_id]
  simp only
  rw [Reader.bind_of_ok (Reader.u16_append _ _), hcount,
    Reader.bind_of_ok (rangesReader_flatMap hshort [] rest)]
  rfl

/-- **The format of acknowledgements, both ways.** A packet of up to 65535 ranges, none of which
holds more than 65536 numbers, is read back from its encoding, which has the length that was
announced, and what comes behind is left alone. Whatever octets a packet was read from, none of its
ranges holds more numbers than that, the numbers of the packet are those that each range counts up
from its first to its last, and the packet is read again from its own encoding. -/
theorem encode_reader_round_trip :
    (∀ a : Acknowledgement, a.ranges.length ≤ 65535 → (∀ r ∈ a.ranges, r.length ≤ 65536) →
      a.encode? = some a.encode ∧ a.encode.length = a.encodedLength ∧
        ∀ rest : Octets, reader (a.encode ++ rest) = .ok (a, rest)) ∧
    (∀ (bs rest : Octets) (a : Acknowledgement), reader bs = .ok (a, rest) →
      (∃ rows : List (List Serial), a.numbers = rows.flatten ∧
        List.Forall₂ (fun r row => Serial.CountsUp r.first r.last row ∧ row.length ≤ 65536)
          a.ranges rows) ∧
      a.encode? = some a.encode ∧ reader a.encode = .ok (a, [])) := by
  constructor
  · intro a hcount hshort
    have ha : a.Encodable := Nat.lt_succ_of_le hcount
    exact ⟨if_pos ha, a.length_encode, gets_encode ha hshort⟩
  · intro bs rest a h
    obtain ⟨ha, hshort⟩ := readable_of_reader h
    refine ⟨⟨a.ranges.map SerialRange.toList, List.flatMap_def, ?_⟩, if_pos ha,
      (gets_encode ha hshort).eq_ok⟩
    rw [List.forall₂_map_right_iff, List.forall₂_same]
    exact fun r hr => ⟨r.countsUp_toList, by rw [r.length_toList]; exact hshort r hr⟩

/-- A range across the wrap-around that is spelled with an odd type octet, and one that is spelled
with equal ends. Written again, the one gets its type octet and the other its short form. -/
theorem encode_reader_round_trip_spelled_loosely :
    let a : Acknowledgement :=
      ⟨.nack, [⟨Serial.ofNat 16777214, Serial.ofNat 1⟩, ⟨Serial.ofNat 7, Serial.ofNat 7⟩]⟩
    let loose : Octets := [0xa0, 0, 2, 9, 0xfe, 0xff, 0xff, 1, 0, 0, 0, 7, 0, 0, 7, 0, 0]
    reader loose = .ok (a, []) ∧ a.encode.length + 3 = loose.length ∧
      (∃ rows : List (List Serial), a.numbers = rows.flatten ∧
        List.Forall₂ (fun r row => Serial.CountsUp r.first r.last row ∧ row.length ≤ 65536)
          a.ranges rows) ∧
      reader a.encode = .ok (a, []) ∧ ∀ rest : Octets, reader (a.encode ++ rest) = .ok (a, rest) := by
  intro a loose
  have hloose : reader loose = .ok (a, []) := by decide +kernel
  obtain ⟨-, hlength, hback⟩ := encode_reader_round_trip.1 a (by decide) (by decide)
  obtain ⟨hrows, -, hagain⟩ := encode_reader_round_trip.2 loose [] a hloose
  exact ⟨hloose, by rw [hlength]; decide, hrows, hagain, hback⟩

end Acknowledgement

end DatagramTransport

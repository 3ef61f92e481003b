import DatagramTransport.Proofs.ControlEncoding

/-!
# Layout — what the messages that end the login look like

The two messages that end the login hold a number of addresses that no field tells, as peers of
different versions send different numbers of them. They are skipped until no more than sixteen
octets are left, which could be a place in the middle of a record, or in the middle of the
timestamps behind the last one.

Nothing of the kind happens: **the octets that are read are exactly those of the layout**, which is
an address, any number of address records, and two timestamps. Skipping ends with sixteen octets or
less (`skipped_of_skipAddresses`) and the timestamps take sixteen, so what was skipped are whole
records and what is left are whole timestamps.

The layout itself is given octet by octet and does not mention any reader.
-/

set_option autoImplicit false

namespace DatagramTransport

namespace Octets

/-- The number that octets stand for in two's complement, most significant first. -/
def signedValue (bs : Octets) : Int :=
  if 2 * bs.bigValue < values bs.length then bs.bigValue else bs.bigValue - values bs.length

/-- The number that eight octets stand for. -/
def signed64 (field : Octets) : Int64 := Int64.ofInt field.signedValue

theorem toInt64_bigValue {field : Octets} (h : field.length = 8) :
    (UInt64.ofNat field.bigValue).toInt64 = field.signed64 := by
  have hvalues : (values field.length : Int) = Int64.size := by rw [h]; rfl
  rw [UInt64.toInt64_ofNat', ← Int64.ofInt_eq_ofNat, signed64, signedValue]
  split
  · rfl
  · apply Int64.toInt_inj.1
    rw [Int64.toInt_ofInt, Int64.toInt_ofInt, hvalues, Int.sub_bmod_right]

theorem bigValue_pair (high low : UInt8) :
    bigValue [high, low] = high.toNat * 256 + low.toNat := by
  simp [bigValue, values]

/-- A number and its complement add up to the largest one. -/
theorem bigValue_complement (bs : Octets) :
    bigValue (bs.map fun b => ~~~b) + bs.bigValue + 1 = values bs.length := by
  induction bs with
  | nil => rfl
  | cons b rest ih =>
    have hb : (~~~b).toNat + b.toNat = 255 := by
      have := b.toNat_lt
      rw [UInt8.toNat_not]
      show 256 - 1 - b.toNat + b.toNat = 255
      omega
    have hsum := congrArg (· * values rest.length) hb
    simp only [Nat.add_mul] at hsum
    simp only [List.map_cons, bigValue, List.length_map, List.length_cons, values]
    omega

end Octets

namespace Reader

/-- A number is read from as many octets as its width, whatever they are. -/
theorem number_eq_ok {α : Type} {width : Nat} {f : Nat → α} {bs rest : Octets} {a : α} :
    (do return f (← natural width) : Reader α) bs = .ok (a, rest)
      ↔ ∃ field : Octets, field.length = width ∧ bs = field ++ rest ∧ a = f field.bigValue := by
  constructor
  · intro h
    obtain ⟨n, mid, hn, ha⟩ := bind_eq_ok.1 h
    obtain ⟨field, mid', hfield, hvalue⟩ := bind_eq_ok.1 hn
    obtain ⟨hbs, hlength⟩ := octets_eq_ok.1 hfield
    cases hvalue
    cases ha
    exact ⟨field, hlength, hbs, rfl⟩
  · rintro ⟨field, hlength, rfl, rfl⟩
    have hread : natural width (field ++ rest) = .ok (field.bigValue, rest) :=
      (bind_of_ok (octets_append rest hlength)).trans rfl
    rw [bind_of_ok hread]
    rfl

theorem i64_eq_ok {bs rest : Octets} {t : Int64} :
    i64 bs = .ok (t, rest)
      ↔ ∃ field : Octets, field.length = 8 ∧ bs = field ++ rest ∧ t = field.signed64 := by
  constructor
  · intro h
    obtain ⟨n, mid, hn, ht⟩ := bind_eq_ok.1 h
    obtain ⟨field, hlength, hbs, rfl⟩ := number_eq_ok.1 hn
    cases ht
    exact ⟨field, hlength, hbs, Octets.toInt64_bigValue hlength⟩
  · rintro ⟨field, hlength, hbs, rfl⟩
    have hread : u64 bs = .ok (UInt64.ofNat field.bigValue, rest) :=
      number_eq_ok.2 ⟨field, hlength, hbs, rfl⟩
    rw [i64, bind_of_ok hread, Octets.toInt64_bigValue hlength]
    rfl

end Reader

namespace Address

/-- The octets are an address record, and this is its address: the version, the four octets of the
host, each of them complemented, and the port. -/
inductive IsRecord : Octets → Address → Prop where
  | quad (p q r s high low : UInt8) :
    IsRecord [4, ~~~p, ~~~q, ~~~r, ~~~s, high, low]
      ⟨.ofQuad p q r s, UInt16.ofNat (high.toNat * 256 + low.toNat)⟩

/-- The complement of a host's octets is the complement of its number. -/
theorem complement_ofNat_bigValue {host : Octets} (h : host.length = 4) :
    ~~~UInt32.ofNat host.bigValue = UInt32.ofNat (Octets.bigValue (host.map fun b => ~~~b)) := by
  have hsum := Octets.bigValue_complement host
  have hvalues : Octets.values host.length = 4294967296 := by rw [h]; rfl
  rw [hvalues] at hsum
  apply UInt32.toNat_inj.1
  rw [UInt32.toNat_not, UInt32.toNat_ofNat_of_lt' (show host.bigValue < 4294967296 by omega),
    UInt32.toNat_ofNat_of_lt' (show Octets.bigValue (host.map _) < 4294967296 by omega)]
  show 4294967296 - 1 - host.bigValue = _
  omega

theorem isRecord_of_fields {host port : Octets} (hhost : host.length = 4)
    (hport : port.length = 2) : IsRecord (recordVersion :: host ++ port)
      ⟨.v4 (~~~UInt32.ofNat host.bigValue), UInt16.ofNat port.bigValue⟩ := by
  rw [complement_ofNat_bigValue hhost]
  match host, hhost, port, hport with
  | [p, q, r, s], _, [high, low], _ =>
    have h := IsRecord.quad (~~~p) (~~~q) (~~~r) (~~~s) high low
    simp only [UInt8.not_not] at h
    rw [Octets.bigValue_pair]
    exact h

/-- **An address is read from a record of it**, and from nothing else. -/
theorem reader_eq_ok {bs rest : Octets} {a : Address} :
    reader bs = .ok (a, rest) ↔ ∃ record, IsRecord record a ∧ bs = record ++ rest := by
  constructor
  · intro h
    obtain ⟨version, _, hversion, h⟩ := Reader.bind_eq_ok.1 h
    split at h
    next hfour =>
      obtain ⟨_, _, hensure, h⟩ := Reader.bind_eq_ok.1 h
      obtain ⟨bits, _, hbits, h⟩ := Reader.bind_eq_ok.1 h
      obtain ⟨port, _, hport, h⟩ := Reader.bind_eq_ok.1 h
      unfold Reader.ensure at hensure
      split at hensure
      · cases hensure
        obtain ⟨host, hlength, rfl, rfl⟩ := Reader.number_eq_ok.1 hbits
        obtain ⟨field, hfield, rfl, rfl⟩ := Reader.number_eq_ok.1 hport
        cases h
        refine ⟨_, isRecord_of_fields hlength hfield, ?_⟩
        rw [Reader.u8_eq_ok.1 hversion, hfour, List.append_assoc]
        rfl
      · cases hensure
    next => cases h
  · rintro ⟨record, ⟨p, q, r, s, high, low⟩, rfl⟩
    have hbits : Reader.u32 (~~~p :: ~~~q :: ~~~r :: ~~~s :: high :: low :: rest)
        = .ok (UInt32.ofNat (Octets.bigValue [~~~p, ~~~q, ~~~r, ~~~s]), high :: low :: rest) :=
      Reader.number_eq_ok.2 ⟨[~~~p, ~~~q, ~~~r, ~~~s], rfl, rfl, rfl⟩
    have hport : Reader.u16 (high :: low :: rest)
        = .ok (UInt16.ofNat (Octets.bigValue [high, low]), rest) :=
      Reader.number_eq_ok.2 ⟨[high, low], rfl, rfl, rfl⟩
    have hhost : ~~~UInt32.ofNat (Octets.bigValue [~~~p, ~~~q, ~~~r, ~~~s])
        = UInt32.ofNat (Octets.bigValue [p, q, r, s]) := by
      rw [complement_ofNat_bigValue rfl]
      simp only [List.map_cons, List.map_nil, UInt8.not_not]
    refine (Reader.bind_of_ok (Reader.u8_append recordVersion _)).trans ?_
    rw [if_pos rfl]
    refine (Reader.bind_of_ok (if_pos rfl)).trans ?_
    refine (Reader.bind_of_ok hbits).trans ((Reader.bind_of_ok hport).trans ?_)
    rw [hhost, Octets.bigValue_pair]
    rfl

theorem IsRecord.gets {record : Octets} {a : Address} (h : IsRecord record a) :
    reader.Gets record a :=
  fun _ => reader_eq_ok.2 ⟨record, h, rfl⟩

end Address

namespace ControlMessage

/-- Octets are skipped that are address records, and sixteen octets or less are left of them. -/
theorem skipped_of_skipAddresses {bs rest : Octets} (h : skipAddresses bs = .ok ((), rest)) :
    rest.length ≤ loginTimestampsLength ∧
      ∃ skipped : List Octets, (∀ record ∈ skipped, ∃ a, Address.IsRecord record a) ∧
        bs = skipped.flatten ++ rest := by
  fun_induction skipAddresses bs with
  | case1 bs hmore a behind hread ih =>
    obtain ⟨hend, skipped, hskipped, rfl⟩ := ih h
    obtain ⟨record, hrecord, rfl⟩ := Address.reader_eq_ok.1 hread
    refine ⟨hend, record :: skipped, ?_, ?_⟩
    · exact List.forall_mem_cons.2 ⟨⟨a, hrecord⟩, hskipped⟩
    · rw [List.flatten_cons, List.append_assoc]
  | case2 bs hmore fault hread => cases h
  | case3 bs hend =>
    cases h
    rw [Octets.atLeast_iff] at hend
    exact ⟨by omega, [], by simp, rfl⟩

/-- Any number of address records, and behind them two timestamps. -/
def IsLoginTail (tail : Octets) (first second : Int64) : Prop :=
  ∃ (skipped : List Octets) (stamps : Octets),
    (∀ record ∈ skipped, ∃ a, Address.IsRecord record a) ∧ stamps.length = 16 ∧
      tail = skipped.flatten ++ stamps ∧
      first = Octets.signed64 (stamps.take 8) ∧ second = Octets.signed64 (stamps.drop 8)

/-- Records are skipped and timestamps are read, and nothing is left or missing. -/
theorem loginTail_eq_ok {message : Int64 → Int64 → ControlMessage} {bs rest : Octets}
    {m : ControlMessage} :
    (do
      skipAddresses
      let first ← Reader.i64
      let second ← Reader.i64
      return message first second : Reader ControlMessage) bs = .ok (m, rest)
      ↔ rest = [] ∧ ∃ first second, IsLoginTail bs first second ∧ m = message first second := by
  constructor
  · intro h
    obtain ⟨⟨⟩, stamps, hskip, h⟩ := Reader.bind_eq_ok.1 h
    obtain ⟨first, _, hfirst, h⟩ := Reader.bind_eq_ok.1 h
    obtain ⟨second, _, hsecond, h⟩ := Reader.bind_eq_ok.1 h
    cases h
    obtain ⟨hend, skipped, hskipped, rfl⟩ := skipped_of_skipAddresses hskip
    obtain ⟨early, hearly, rfl, rfl⟩ := Reader.i64_eq_ok.1 hfirst
    obtain ⟨late, hlate, rfl, rfl⟩ := Reader.i64_eq_ok.1 hsecond
    -- two timestamps are all that can be left
    have hrest : rest = [] := by
      rw [loginTimestampsLength, List.length_append, List.length_append] at hend
      exact List.eq_nil_of_length_eq_zero (by omega)
    subst hrest
    refine ⟨rfl, _, _, ⟨skipped, early ++ (late ++ []), hskipped, ?_, rfl, ?_, ?_⟩, rfl⟩
    · simp [hearly, hlate]
    · rw [List.take_left' hearly]
    · rw [List.drop_left' hearly, List.append_nil]
  · rintro ⟨rfl, first, second, ⟨skipped, stamps, hskipped, hlength, rfl, rfl, rfl⟩, rfl⟩
    have hskip : skipAddresses (skipped.flatten ++ stamps) = .ok ((), stamps) :=
      skipAddresses_records
        (fun record hrecord => (hskipped record hrecord).imp fun a ha => ha.gets) hlength
    have hfirst : Reader.i64 stamps = .ok (Octets.signed64 (stamps.take 8), stamps.drop 8) :=
      Reader.i64_eq_ok.2 ⟨_, by simp [hlength], (List.take_append_drop 8 stamps).symm, rfl⟩
    have hsecond : Reader.i64 (stamps.drop 8) = .ok (Octets.signed64 (stamps.drop 8), []) :=
      Reader.i64_eq_ok.2 ⟨_, by simp [hlength], (List.append_nil _).symm, rfl⟩
    exact (Reader.bind_of_ok hskip).trans
      ((Reader.bind_of_ok hfirst).trans ((Reader.bind_of_ok hsecond).trans rfl))

/-- **The messages that end the login are read from their layouts and from nothing else**, and no
octet is left. Behind the identifier, one is an address record, any number of further records and
two timestamps; in the other the index of the peer stands behind the first record. What is returned
is the first address and the two timestamps, whatever the records between them say. -/
theorem login_read_iff (bs rest : Octets) (m : ControlMessage) :
    (reader (ControlId.newIncomingConnection :: bs) = .ok (m, rest) ↔
      rest = [] ∧ ∃ record tail server first second, Address.IsRecord record server ∧
        IsLoginTail tail first second ∧ bs = record ++ tail ∧
        m = newIncomingConnection server first second) ∧
    (reader (ControlId.connectionRequestAccepted :: bs) = .ok (m, rest) ↔
      rest = [] ∧ ∃ record high low tail client first second, Address.IsRecord record client ∧
        IsLoginTail tail first second ∧ bs = record ++ high :: low :: tail ∧
        m = connectionRequestAccepted client (UInt16.ofNat (high.toNat * 256 + low.toNat))
          first second) := by
  rw [reader_cons, reader_cons]
  constructor
  · constructor
    · intro h
      obtain ⟨server, _, hserver, hbehind⟩ := Reader.bind_eq_ok.1 h
      obtain ⟨record, hrecord, rfl⟩ := Address.reader_eq_ok.1 hserver
      obtain ⟨hrest, first, second, htail, hm⟩ := loginTail_eq_ok.1 hbehind
      exact ⟨hrest, record, _, server, first, second, hrecord, htail, rfl, hm⟩
    · rintro ⟨hrest, record, tail, server, first, second, hrecord, htail, rfl, hm⟩
      refine (Reader.bind_of_ok (hrecord.gets tail)).trans ?_
      exact loginTail_eq_ok.2 ⟨hrest, first, second, htail, hm⟩
  · constructor
    · intro h
      obtain ⟨client, _, hclient, hbehind⟩ := Reader.bind_eq_ok.1 h
      obtain ⟨index, _, hindex, hbehind⟩ := Reader.bind_eq_ok.1 hbehind
      obtain ⟨record, hrecord, rfl⟩ := Address.reader_eq_ok.1 hclient
      obtain ⟨field, hfield, rfl, rfl⟩ := Reader.number_eq_ok.1 hindex
      match field, hfield with
      | [high, low], _ =>
        obtain ⟨hrest, first, second, htail, hm⟩ := loginTail_eq_ok.1 hbehind
        rw [Octets.bigValue_pair] at hm
        exact ⟨hrest, record, high, low, _, client, first, second, hrecord, htail, rfl, hm⟩
    · rintro ⟨hrest, record, high, low, tail, client, first, second, hrecord, htail, rfl, hm⟩
      have hindex : Reader.u16 (high :: low :: tail)
          = .ok (UInt16.ofNat (high.toNat * 256 + low.toNat), tail) :=
        Reader.number_eq_ok.2 ⟨[high, low], rfl, rfl, by rw [Octets.bigValue_pair]⟩
      refine (Reader.bind_of_ok (hrecord.gets _)).trans ((Reader.bind_of_ok hindex).trans ?_)
      exact loginTail_eq_ok.2 ⟨hrest, first, second, htail, hm⟩

end ControlMessage

end DatagramTransport

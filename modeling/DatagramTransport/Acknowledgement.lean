import DatagramTransport.Octets.Reader
import DatagramTransport.Packing

/-!
# Acknowledgements — sequence numbers that arrived, and those that did not

A packet of acknowledgements lists ranges of sequence numbers, a **positive** one those of datagrams
that arrived, a **negative** one those that seem to be missing. A range of one number has a shorter
form than a longer one.

`condense` puts a set of numbers, given by ranges in any order that may overlap, into its canonical
form: ranges in ascending order with a gap between each two of them. It sorts by value, so a run of
numbers across the wrap-around makes two ranges, and a set has exactly one such form however its
members are given. `build` distributes the ranges over packets of limited length.

A range may hold millions of numbers, so nothing before the receiving end goes through them one by
one.

A range may claim to be any size, and the numbers of a range are enumerated when it is received, so
**a range of more than 65536 numbers is refused**.
-/

set_option autoImplicit false

namespace DatagramTransport

/-- Consecutive serial numbers, both ends included. -/
structure SerialRange where
  first : Serial
  last : Serial
  deriving DecidableEq, Repr

namespace SerialRange

def single (s : Serial) : SerialRange := ⟨s, s⟩

def isSingle (r : SerialRange) : Bool := r.first = r.last

def length (r : SerialRange) : Nat := r.last.distanceFrom r.first + 1

/-- The numbers of the range, counted up from the first. -/
def toList (r : SerialRange) : List Serial := (List.range r.length).map r.first.plus

/-- The first numbers of the range, at most `n` of them. -/
def firstNumbers (n : Nat) (r : SerialRange) : List Serial :=
  (List.range (min n r.length)).map r.first.plus

/-- The most numbers that a range may hold when it is received. -/
def maxLength : Nat := 65536

/-- The type octet of a range of one number. Any other octet announces two ends. -/
def singleType : UInt8 := 1

/-- The type octet that a longer range is written with. -/
def rangeType : UInt8 := 0

def maxEncodedLength : Nat := 7

def encodedLength (r : SerialRange) : Nat := if r.isSingle then 4 else maxEncodedLength

/-- A range of one number is written by that number alone, any other by both of its ends. -/
def encode (r : SerialRange) : Octets :=
  if r.isSingle then Octets.u8 singleType ++ Octets.serial r.first
  else Octets.u8 rangeType ++ Octets.serial r.first ++ Octets.serial r.last

/-- Reads both ends of a range, which for the short form are one. -/
def endsReader (type : UInt8) : Reader SerialRange := do
  if type = singleType then return single (← Reader.serial)
  else
    let first ← Reader.serial
    let last ← Reader.serial
    return ⟨first, last⟩

/-- Reads a range and refuses one that is too long. -/
def reader : Reader SerialRange := do
  let type ← Reader.u8
  let r ← endsReader type
  if maxLength < r.length then Reader.fail (.malformed (.recordTooLong r.first r.last))
  else return r

def contains (r : SerialRange) (s : Serial) : Bool := s.distanceFrom r.first < r.length

/-- What is left of a range without a number, which is one range, two or none. -/
def without (s : Serial) (r : SerialRange) : List SerialRange :=
  if r.contains s then
    let i := s.distanceFrom r.first
    (if i = 0 then [] else [⟨r.first, r.first.plus (i - 1)⟩])
      ++ (if i + 1 = r.length then [] else [⟨s.next, r.last⟩])
  else [r]

/-- Takes a number out of all ranges that it is in, which are none as a rule. -/
def remove (s : Serial) (ranges : List SerialRange) : List SerialRange :=
  if ranges.any (·.contains s) then ranges.flatMap (without s) else ranges

/-- The range in parts that do not cross the wrap-around. -/
def unwrapped (r : SerialRange) : List SerialRange :=
  if r.first.val ≤ r.last.val then [r] else [⟨r.first, Serial.greatest⟩, ⟨Serial.zero, r.last⟩]

/-- Puts a range in front of canonical ones that all begin at its first number or behind it. Those
that it overlaps or touches become one with it. -/
def cons (r : SerialRange) : List SerialRange → List SerialRange
  | [] => [r]
  | q :: qs =>
    if r.last.val + 1 < q.first.val then r :: q :: qs
    else cons ⟨r.first, if r.last.val < q.last.val then q.last else r.last⟩ qs

/-- The canonical form of the set of all numbers in some ranges: ascending ranges that are neither
empty nor adjacent. -/
def condense (ranges : List SerialRange) : List SerialRange :=
  ((ranges.flatMap unwrapped).mergeSort fun r q => r.first.val ≤ q.first.val).foldr cons []

@[simp] theorem length_encode (r : SerialRange) : r.encode.length = r.encodedLength := by
  simp only [encode, encodedLength, maxEncodedLength]
  cases r.isSingle <;> simp

@[simp] theorem length_toList (r : SerialRange) : r.toList.length = r.length := by
  simp [toList]

theorem contains_iff {s : Serial} {r : SerialRange} :
    r.contains s = true ↔ s.distanceFrom r.first < r.length := by
  simp [contains]

theorem mem_toList {s : Serial} {r : SerialRange} : s ∈ r.toList ↔ r.contains s = true := by
  have hlast := r.last.distanceFrom_lt r.first
  simp only [toList, List.mem_map, List.mem_range, contains_iff]
  constructor
  · rintro ⟨n, hn, rfl⟩
    rw [Serial.distanceFrom_plus _ (by simp only [length] at hn; omega)]
    exact hn
  · intro h
    exact ⟨_, h, s.plus_distanceFrom r.first⟩

/-- Taking a number out takes out that number and no other. -/
theorem mem_without {s t : Serial} {r : SerialRange} :
    (∃ q ∈ r.without s, t ∈ q.toList) ↔ t ∈ r.toList ∧ t ≠ s := by
  have hs := s.distanceFrom_lt r.first
  have ht := t.distanceFrom_lt r.first
  have hlast := r.last.distanceFrom_lt r.first
  have hst : t = s ↔ t.distanceFrom r.first = s.distanceFrom r.first := by
    constructor
    · rintro rfl
      rfl
    · intro h
      rw [← t.plus_distanceFrom r.first, h, s.plus_distanceFrom]
  have hnext : s.next = r.first.plus (s.distanceFrom r.first + 1) := by
    have := s.isLt
    have := r.first.isLt
    ext
    simp only [Serial.distanceFrom, Serial.val_next, Serial.val_plus]
    omega
  have hright (u : Serial) : u.distanceFrom s.next
      = (u.distanceFrom r.first + 16777216 - (s.distanceFrom r.first + 1)) % 16777216 := by
    rw [hnext, Serial.distanceFrom_plus_right _ _ hs]
  have hleft : (r.first.plus (s.distanceFrom r.first - 1)).distanceFrom r.first
      = s.distanceFrom r.first - 1 :=
    Serial.distanceFrom_plus _ (by omega)
  simp only [mem_toList, ne_eq, hst]
  unfold without
  split
  · rename_i hin
    simp only
    split <;> split <;>
      simp only [contains_iff, List.append_nil, List.nil_append, List.cons_append,
        List.mem_cons, List.not_mem_nil, or_false, false_and, exists_false, exists_eq_left,
        exists_eq_or_imp, false_iff, length, hright, hleft] at * <;>
      omega
  · rename_i hout
    simp only [List.mem_singleton, exists_eq_left, contains_iff] at *
    omega

theorem remove_eq (s : Serial) (ranges : List SerialRange) :
    remove s ranges = ranges.flatMap (without s) := by
  unfold remove
  split
  · rfl
  · rename_i h
    induction ranges with
    | nil => rfl
    | cons r rs ih =>
      simp only [List.any_cons, Bool.or_eq_true, not_or] at h
      rw [List.flatMap_cons, ← ih h.2, without, if_neg h.1]
      rfl

end SerialRange

/-- Whether numbers are reported as received or as missing. -/
inductive AckKind where
  | ack
  | nack
  deriving DecidableEq, Repr

namespace AckKind

def id : AckKind → UInt8
  | ack => 0xc0
  | nack => 0xa0

def ofId? (n : UInt8) : Option AckKind :=
  if n = ack.id then some ack else if n = nack.id then some nack else none

@[simp] theorem ofId?_id (kind : AckKind) : ofId? kind.id = some kind := by
  cases kind <;> rfl

end AckKind

/-- A packet of acknowledgements. -/
structure Acknowledgement where
  kind : AckKind
  ranges : List SerialRange
  deriving DecidableEq, Repr

namespace Acknowledgement

/-- Identifier and number of ranges. -/
def headerLength : Nat := 3

def numbers (a : Acknowledgement) : List Serial := a.ranges.flatMap SerialRange.toList

/-- How many numbers the packet is about, repetitions counted. -/
def count (a : Acknowledgement) : Nat := Packing.load SerialRange.length a.ranges

def encodedLength (a : Acknowledgement) : Nat :=
  headerLength + Packing.load SerialRange.encodedLength a.ranges

/-- The count field can hold the number of ranges. -/
def Encodable (a : Acknowledgement) : Prop := a.ranges.length < 65536

instance (a : Acknowledgement) : Decidable a.Encodable := inferInstanceAs (Decidable (_ < _))

def encode (a : Acknowledgement) : Octets :=
  Octets.u8 a.kind.id ++ Octets.u16 (UInt16.ofNat a.ranges.length)
    ++ a.ranges.flatMap SerialRange.encode

/-- The encoding, or nothing if the count field cannot hold the count. -/
def encode? (a : Acknowledgement) : Option Octets :=
  if a.Encodable then some a.encode else none

/-- Reads a number of ranges, after those that are read already, which are given last first. -/
def rangesReader : Nat → List SerialRange → Octets → Except Fault (List SerialRange × Octets)
  | 0, read, bs => .ok (read.reverse, bs)
  | count + 1, read, bs =>
    match SerialRange.reader bs with
    | .ok (r, rest) => rangesReader count (r :: read) rest
    | .error fault => .error fault

def reader : Reader Acknowledgement := do
  let n ← Reader.u8
  match AckKind.ofId? n with
  | none => Reader.fail (.unknownId n)
  | some kind =>
    let count ← Reader.u16
    let ranges ← rangesReader count.toNat []
    return ⟨kind, ranges⟩

/-- Packets that report all numbers in some ranges, each at most `maxLength` octets long provided
that a single range fits. -/
def build (kind : AckKind) (ranges : List SerialRange) (maxLength : Nat) : List Acknowledgement :=
  (Packing.groups SerialRange.encodedLength (maxLength - headerLength)
    (SerialRange.condense ranges)).map (⟨kind, ·⟩)

theorem length_encode (a : Acknowledgement) : a.encode.length = a.encodedLength := by
  have h := Packing.length_flatMap SerialRange.length_encode a.ranges
  simp only [encode, encodedLength, headerLength, List.length_append, Octets.length_u8,
    Octets.length_u16, h]

end Acknowledgement

end DatagramTransport

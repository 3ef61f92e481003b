import DatagramTransport.Proofs.Losses
import DatagramTransport.Proofs.Unbounded

/-!
# Seniority — numbers that come round, put in order of age

A serial number has forgotten how often its counter came round. What is asked of it is only how it
stands to another one, and that it still knows, **as long as the two counters are near enough**:
less than half a turn apart for which is ahead, less than a whole turn for how far. At half a turn
neither is ahead of the other, and a whole turn is no distance at all.

Numbers that are less than a turn behind a newest one stand in one row. The farthest is the oldest,
wherever in that row the numbers come round, and lost datagrams are gone through in this order.

A serial number may be kept in a word of 32 bits of which the lower 24 count. As `2^24` divides
`2^32`, it makes no difference that the word wraps around as well.
-/

set_option autoImplicit false

namespace DatagramTransport

namespace Serial

/-! ## Words -/

/-- A serial number in a word, whose upper eight bits are zero. -/
def toWord (s : Serial) : UInt32 := UInt32.ofNat s.val

/-- The lower 24 bits of a word. -/
def wordMask : UInt32 := 0xffffff

theorem toNat_toWord (s : Serial) : s.toWord.toNat = s.val := by
  have := s.isLt
  rw [toWord, UInt32.toNat_ofNat']
  omega

theorem toNat_and_wordMask (w : UInt32) : (w &&& wordMask).toNat = w.toNat % 16777216 := by
  rw [UInt32.toNat_and]
  exact Nat.and_two_pow_sub_one_eq_mod w.toNat 24

theorem toNat_plus_word (s : Serial) (n : UInt32) :
    ((s.toWord + n) &&& wordMask).toNat = (s.plus n.toNat).val := by
  rw [toNat_and_wordMask, UInt32.toNat_add, toNat_toWord, val_plus]
  omega

theorem toNat_distance_word (s base : Serial) :
    ((s.toWord - base.toWord) &&& wordMask).toNat = s.distanceFrom base := by
  have := s.isLt
  have := base.isLt
  rw [toNat_and_wordMask, UInt32.toNat_sub, toNat_toWord, toNat_toWord, distanceFrom]
  omega

/-! ## Two counters -/

theorem isAfter_ofNat_iff {a b : Nat} (hab : a < b + 8388608) (hba : b < a + 8388608) :
    (ofNat a).isAfter (ofNat b) = true ↔ b < a := by
  simp only [isAfter, bne_iff_ne, Bool.and_eq_true, decide_eq_true_eq]
  rcases Nat.lt_or_ge a b with h | h
  · rw [distanceFrom_ofNat_of_lt h (by omega)]
    omega
  · rw [distanceFrom_ofNat_of_le h (by omega)]
    omega

/-- From half a turn away, it is half a turn in both directions. -/
theorem isAfter_half_turn (a : Nat) : (ofNat (a + 8388608)).isAfter (ofNat a) = false ∧
    (ofNat a).isAfter (ofNat (a + 8388608)) = false := by
  rw [isAfter, isAfter, distanceFrom_ofNat_of_le (by omega) (by omega),
    distanceFrom_ofNat_of_lt (by omega) (by omega)]
  simp

/-! ## Many counters -/

/-- The first of two numbers is no closer to the newest one than the second. -/
def fartherFirst (newest s t : Serial) : Bool :=
  newest.distanceFrom t ≤ newest.distanceFrom s

/-- **By distance from the newest is by age**, for all that lies less than a turn behind it. The
items may carry more than their numbers. -/
theorem mergeSort_fartherFirst {α β : Type} {newest : Nat} {items : List α} (counter : α → Nat)
    (image : α → β) (serial : β → Serial) (hserial : ∀ a, serial (image a) = ofNat (counter a))
    (hrecent : ∀ a ∈ items, counter a ≤ newest ∧ newest < counter a + 16777216) :
    (items.map image).mergeSort
        (fun x y => (ofNat newest).fartherFirst (serial x) (serial y))
      = (items.mergeSort fun a b => counter a ≤ counter b).map image := by
  refine (List.map_mergeSort fun a ha b hb => ?_).symm
  obtain ⟨hale, halt⟩ := hrecent a ha
  obtain ⟨hble, hblt⟩ := hrecent b hb
  rw [fartherFirst, hserial, hserial, distanceFrom_ofNat_of_le hale halt,
    distanceFrom_ofNat_of_le hble hblt, decide_eq_decide]
  omega

end Serial

namespace Sender

variable {s : Sender} {newest : Nat} {records : List (Nat × SentDatagram)}

/-- Records that are known by their counters are gone through in the order of these, in whatever
order they are listed. -/
theorem oldestFirst_eq (hnext : s.nextSequence = Serial.ofNat newest)
    (hrecent : ∀ record ∈ records, record.1 ≤ newest ∧ newest < record.1 + 16777216)
    (hrecords : (records.map (Prod.map Serial.ofNat id)).Perm s.inFlight.toList)
    (isLost : Serial → SentDatagram → Bool) :
    let lost := records.filter fun record => isLost (Serial.ofNat record.1) record.2
    s.oldestFirst isLost = (lost.mergeSort fun a b => a.1 ≤ b.1).map Prod.snd := by
  intro lost
  have horder : s.notYounger = fun x y => (Serial.ofNat newest).fartherFirst x.1 y.1 := by
    funext x y
    rw [notYounger, age, age, hnext, Serial.fartherFirst]
  have hlost : ∀ record ∈ lost, record.1 ≤ newest ∧ newest < record.1 + 16777216 :=
    fun record hrecord => hrecent record (List.mem_of_mem_filter hrecord)
  have hsorted := Serial.mergeSort_fartherFirst Prod.fst (Prod.map Serial.ofNat id) Prod.fst
    (fun _ => rfl) hlost
  have hlisted : (lost.map (Prod.map Serial.ofNat id)).mergeSort s.notYounger
      = s.lostRecords isLost := by
    rw [← (ranks_lostRecords isLost s).of_listing _ hrecords, List.filter_map]
    rfl
  show (s.lostRecords isLost).map Prod.snd = _
  rw [← hlisted, horder, hsorted, List.map_map]
  rfl

end Sender

namespace Serial

/-- **Serial numbers speak for their counters.** Less than half a turn apart, they tell which of two
counters is ahead, and at half a turn neither is; less than a whole turn apart, they tell how far it
is, and counting up from the lower one by so much comes back to the higher one. So numbers behind a
newest one, each by less than a turn, are sorted by age if they are sorted by distance from it, and
this is the order in which a sender goes through the datagrams that are lost. In words of 32 bits it
is all the same. -/
theorem agree_with_unbounded_counters :
    (∀ a b : Nat, a < b + 8388608 → b < a + 8388608 →
      ((ofNat a).isAfter (ofNat b) = true ↔ b < a) ∧
        ((ofNat a).isBefore (ofNat b) = true ↔ a < b)) ∧
    (∀ a : Nat, (ofNat (a + 8388608)).isAfter (ofNat a) = false ∧
      (ofNat (a + 8388608)).isBefore (ofNat a) = false) ∧
    (∀ a b : Nat, b ≤ a → a < b + 16777216 →
      (ofNat a).distanceFrom (ofNat b) = a - b ∧
        (ofNat b).plus ((ofNat a).distanceFrom (ofNat b)) = ofNat a) ∧
    (∀ (newest : Nat) (counters : List Nat),
      (∀ n ∈ counters, n ≤ newest ∧ newest < n + 16777216) →
        (counters.map ofNat).mergeSort (ofNat newest).fartherFirst
          = (counters.mergeSort fun a b => a ≤ b).map ofNat) ∧
    (∀ (s : Sender) (newest : Nat) (records : List (Nat × SentDatagram)),
      s.nextSequence = ofNat newest →
      (∀ record ∈ records, record.1 ≤ newest ∧ newest < record.1 + 16777216) →
      (records.map (Prod.map ofNat id)).Perm s.inFlight.toList →
      ∀ isLost : Serial → SentDatagram → Bool,
        let lost := records.filter fun record => isLost (ofNat record.1) record.2
        s.oldestFirst isLost = (lost.mergeSort fun a b => a.1 ≤ b.1).map Prod.snd) ∧
    ∀ (s base : Serial) (n : UInt32),
      ((s.toWord + n) &&& wordMask).toNat = (s.plus n.toNat).val ∧
        ((s.toWord - base.toWord) &&& wordMask).toNat = s.distanceFrom base := by
  refine ⟨fun a b hab hba => ⟨isAfter_ofNat_iff hab hba, isAfter_ofNat_iff hba hab⟩,
    isAfter_half_turn, fun a b hle hlt => ⟨distanceFrom_ofNat_of_le hle hlt, ?_⟩,
    fun newest counters hrecent => ?_,
    fun s newest records hnext hrecent hrecords => Sender.oldestFirst_eq hnext hrecent hrecords,
    fun s base n => ⟨toNat_plus_word s n, toNat_distance_word s base⟩⟩
  · exact plus_distanceFrom _ _
  · exact mergeSort_fartherFirst id ofNat id (fun _ => rfl) hrecent

/-- Counters before and after the numbers come round, out of order and one of them twice. -/
def comingRound : List Nat := [67108866, 67108860, 67108863, 67108866]

/-- The last datagram before the numbers come round, and the first one after. -/
def eitherSide : List (Nat × SentDatagram) :=
  [(16777215, ⟨1, [], [0], false⟩), (16777216, ⟨2, [], [1], false⟩)]

/-- A sender with these two in flight. -/
def comeRound : Sender :=
  { Sender.fresh {} 400 with
    nextSequence := ofNat 16777217
    inFlight := Std.TreeMap.ofList (eitherSide.map (Prod.map ofNat id)) }

/-- The sender keeps its records by number, the later one first, and goes through them by age. -/
theorem agree_with_unbounded_counters_comingRound :
    let older := ofNat 67108863
    let newer := ofNat 67108866
    (older.val = 16777215 ∧ newer.val = 2) ∧ newer.isAfter older = true ∧
      older.isBefore newer = true ∧ newer.distanceFrom older = 3 ∧ older.plus 3 = newer ∧
      (comingRound.map ofNat).mergeSort (ofNat 67108870).fartherFirst
        = [ofNat 67108860, older, newer, newer] ∧
      comeRound.inFlight.toList.map (·.2.sentAt) = [2, 1] ∧
      (comeRound.oldestFirst fun _ _ => true).map (·.sentAt) = [1, 2] := by
  intro older newer
  obtain ⟨hnear, -, hfar, hsorted, hlost, -⟩ := agree_with_unbounded_counters
  obtain ⟨hafter, -⟩ := hnear 67108866 67108863 (by decide) (by decide)
  obtain ⟨-, hbefore⟩ := hnear 67108863 67108866 (by decide) (by decide)
  obtain ⟨hdistance, hplus⟩ := hfar 67108866 67108863 (by decide) (by decide)
  have hflight : comeRound.inFlight.toList = (eitherSide.map (Prod.map ofNat id)).reverse := by
    decide +kernel
  have hrecords : (eitherSide.map (Prod.map ofNat id)).Perm comeRound.inFlight.toList :=
    hflight ▸ (List.reverse_perm _).symm
  refine ⟨by decide, hafter.2 (by decide), hbefore.2 (by decide), hdistance, ?_, ?_, ?_, ?_⟩
  · rwa [hdistance] at hplus
  · have hages : comingRound.mergeSort (fun a b => a ≤ b)
        = [67108860, 67108863, 67108866, 67108866] := by simp [comingRound, List.mergeSort]
    rw [hsorted 67108870 comingRound (by decide), hages]
    rfl
  · rw [hflight]
    rfl
  · have hages : eitherSide.mergeSort (fun a b => a.1 ≤ b.1) = eitherSide :=
      List.mergeSort_of_pairwise (by decide)
    rw [hlost comeRound 16777217 eitherSide rfl (by decide) hrecords, List.filter_true, hages]
    rfl

end Serial

end DatagramTransport

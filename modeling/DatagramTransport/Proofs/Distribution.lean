import DatagramTransport.Proofs.Report
import Mathlib.Data.List.Perm.Basic

/-!
# Distribution — how few packets ranges need

Ranges are put into packets in their order, and no other way to do that **in this order** needs
fewer packets. It is different if ranges may change places: as there are ranges of two sizes, one
that does not fit may leave room behind that a shorter one could take.

How much is lost by that has a bound: a packet is left behind only if the next range does not fit,
so there is at most room for six octets in it. And nothing is lost if all ranges are of one size, or
if a packet has no room for two of them (`Acknowledgement.distributed_in_order`). For any longer
packet there are numbers for which three packets are built and two are enough (`exists_fewer`).
-/

set_option autoImplicit false

namespace DatagramTransport

namespace Packing

variable {α : Type} {size : α → Nat} {capacity room most : Nat} {items more : List α}
  {groups : List (List α)}

theorem load_perm (h : items.Perm more) : load size items = load size more := by
  induction h with
  | nil => rfl
  | cons a _ ih => rw [load_cons, load_cons, ih]
  | swap a b rest => simp only [load_cons, Nat.add_left_comm]
  | trans _ _ ih ih' => rw [ih, ih']

theorem load_flatten_le (hfits : ∀ g ∈ groups, load size g ≤ capacity) :
    load size groups.flatten ≤ groups.length * capacity := by
  induction groups with
  | nil => exact Nat.zero_le _
  | cons g groups ih =>
    have hg := hfits g List.mem_cons_self
    have hrest := ih fun g' hg' => hfits g' (List.mem_cons_of_mem g hg')
    rw [List.flatten_cons, load_append, List.length_cons, Nat.succ_mul]
    omega

/-! ## How much room is left

No distribution can do better than the sum of all sizes allows, whatever changes place. So the
bound is one on what a group wastes: a group ends because the next item did not fit, and items are
never larger than `most`. Only the last group ends for another reason. -/

/-- A front ends where the next item does not fit. -/
theorem lt_load_front (hmost : ∀ a ∈ items, size a ≤ most) (h : (front size room items).2 ≠ []) :
    room < load size (front size room items).1 + most := by
  induction items generalizing room with
  | nil => exact absurd rfl h
  | cons a rest ih =>
    have ha := hmost a List.mem_cons_self
    simp only [front] at h ⊢
    split at h
    next hfits =>
      rw [if_pos hfits]
      have := ih (fun b hb => hmost b (List.mem_cons_of_mem a hb)) h
      simp only [load_cons]
      omega
    next hlarge =>
      rw [if_neg hlarge, load_nil]
      omega

/-- **All groups but the last are full**, up to the room that the next item was too large for. -/
theorem length_batches_mul_lt (hpos : ∀ a, 0 < size a) (hmost : ∀ a ∈ items, size a ≤ most)
    (hroom : most ≤ capacity) (limit : Nat) :
    (batches size capacity limit items).1.length * (capacity + 1 - most)
      < load size items + (capacity + 1 - most) := by
  induction limit generalizing items with
  | zero =>
    rw [batches_zero, List.length_nil]
    omega
  | succ limit ih =>
    cases items with
    | nil =>
      rw [batches_nil, List.length_nil]
      omega
    | cons a rest =>
      have ha := hpos a
      have hfits := hmost a List.mem_cons_self
      have hrest : ∀ b ∈ rest, size b ≤ most := fun b hb => hmost b (List.mem_cons_of_mem a hb)
      have hwhole := front_append size (capacity - size a) rest
      have hload := congrArg (load size) hwhole
      rw [load_append] at hload
      rw [batches_cons, List.length_cons, Nat.succ_mul, load_cons]
      by_cases hleft : (front size (capacity - size a) rest).2 = []
      · rw [hleft, batches_nil, List.length_nil]
        omega
      · have hfull := lt_load_front hrest hleft
        have hbehind := @ih (front size (capacity - size a) rest).2 fun b hb =>
          hrest b (hwhole ▸ List.mem_append_right _ hb)
        omega

/-! ## Items of one size

If all items are as large as each other, a distribution is known by the lengths of its groups. Any
other one can then be taken for one that cuts the list in its order, and for those it is known that
none has fewer groups. -/

/-- A list can be cut as another one is that is as long. -/
theorem exists_cut_alike (h : groups.flatten.length = items.length) :
    ∃ cut : List (List α), cut.flatten = items ∧ cut.map List.length = groups.map List.length := by
  induction groups generalizing items with
  | nil =>
    have hnil : items = [] := List.eq_nil_of_length_eq_zero h.symm
    exact ⟨[], hnil.symm, rfl⟩
  | cons g groups ih =>
    rw [List.flatten_cons, List.length_append] at h
    have hdrop : groups.flatten.length = (items.drop g.length).length := by
      rw [List.length_drop]
      omega
    obtain ⟨cut, hcut, hlengths⟩ := ih hdrop
    refine ⟨items.take g.length :: cut, ?_, ?_⟩
    · rw [List.flatten_cons, hcut, List.take_append_drop]
    · rw [List.map_cons, List.map_cons, hlengths, List.length_take, Nat.min_eq_left (by omega)]

theorem load_of_alike {n : Nat} (h : ∀ a ∈ items, size a = n) :
    load size items = items.length * n := by
  induction items with
  | nil => exact (Nat.zero_mul n).symm
  | cons a rest ih =>
    rw [load_cons, h a List.mem_cons_self, ih fun b hb => h b (List.mem_cons_of_mem a hb),
      List.length_cons, Nat.succ_mul, Nat.add_comm]

/-- **If all items are of one size, no distribution has fewer groups**: they can change places. -/
theorem length_batches_le_of_alike {n : Nat} (halike : ∀ a ∈ items, size a = n)
    (hfits : ∀ g ∈ groups, load size g ≤ capacity) (hperm : groups.flatten.Perm items)
    (limit : Nat) : (batches size capacity limit items).1.length ≤ groups.length := by
  obtain ⟨cut, hcut, hlengths⟩ := exists_cut_alike hperm.length_eq
  have hcount : cut.length = groups.length := by
    simpa only [List.length_map] using congrArg List.length hlengths
  rw [← hcount]
  refine length_batches_le_of_flatten_eq (fun c hc => ?_) hcut limit
  have hlength : c.length ∈ groups.map List.length := hlengths ▸ List.mem_map_of_mem hc
  obtain ⟨g, hg, hsame⟩ := List.mem_map.1 hlength
  have hc : load size c = c.length * n :=
    load_of_alike fun a ha => halike a (hcut ▸ List.mem_flatten_of_mem hc ha)
  have hg' : load size g = g.length * n :=
    load_of_alike fun a ha => halike a (hperm.subset (List.mem_flatten_of_mem hg ha))
  rw [hc, ← hsame, ← hg']
  exact hfits g hg

/-- Groups that hold one item at most are at least as many as the items. -/
theorem length_flatten_le (h : ∀ g ∈ groups, g.length ≤ 1) :
    groups.flatten.length ≤ groups.length := by
  induction groups with
  | nil => exact Nat.le_refl 0
  | cons g groups ih =>
    have hg := h g List.mem_cons_self
    have hrest := ih fun g' hg' => h g' (List.mem_cons_of_mem g hg')
    rw [List.flatten_cons, List.length_append, List.length_cons]
    omega

/-- Two groups are too few if an item fits neither with all that stand before it nor with all that
stand behind it. -/
theorem three_le_length_of_flatten_eq {front back : List α} {a : α}
    (hfront : capacity < load size (front ++ [a])) (hback : capacity < load size (a :: back))
    (hfits : ∀ g ∈ groups, load size g ≤ capacity)
    (hflatten : groups.flatten = front ++ a :: back) : 3 ≤ groups.length := by
  have htwo (g g' : List α) (hg : load size g ≤ capacity) (hg' : load size g' ≤ capacity)
      (hwhole : g ++ g' = front ++ a :: back) : False := by
    rcases List.append_eq_append_iff.1 hwhole with ⟨c, rfl, rfl⟩ | ⟨c, rfl, hc⟩
    · rw [load_append] at hg'
      omega
    · cases c with
      | nil =>
        rw [List.nil_append] at hc
        rw [hc] at hback
        omega
      | cons b c =>
        obtain ⟨rfl, -⟩ := List.cons.inj hc
        simp only [load_append, load_cons, load_nil] at hfront hg
        omega
  match groups with
  | [] => exact absurd hflatten (by simp)
  | [g] =>
    refine absurd (htwo g [] (hfits g List.mem_cons_self) (Nat.zero_le _) ?_) id
    rw [← hflatten, List.flatten_singleton, List.append_nil]
  | [g, g'] =>
    refine absurd (htwo g g' (hfits g (by simp)) (hfits g' (by simp)) ?_) id
    rw [← hflatten, List.flatten_cons, List.flatten_singleton]
  | _ :: _ :: _ :: _ => exact Nat.le_add_left 3 _

end Packing

/-! ## Forms and their sizes

A range is written in four octets or in seven. For the rest of this file a list of ranges is a list
of these two forms, and `spread` finds numbers for any such list. Two packets are enough for forms
that stand in the right order, and three are built if two neighbours in the middle are exchanged:
then one of the two fits neither with all before it nor with all behind it (`Misplaced`). Such a
list exists for each length of a packet from eleven octets on. Which one it is depends on what is
left of the packet when it is filled with single numbers. -/

namespace SerialRange

/-- What a range takes in a packet, by its form. -/
def formLength (wide : Bool) : Nat := if wide then 7 else 4

/-- Ranges of given forms: single numbers and rows of two, with a gap between each two of them. -/
def spread : Nat → List Bool → List SerialRange
  | _, [] => []
  | start, wide :: forms =>
    ⟨Serial.ofNat start, Serial.ofNat (start + if wide then 1 else 0)⟩ :: spread (start + 3) forms

variable {start : Nat} {forms : List Bool}

theorem spread_append (start : Nat) (forms more : List Bool) :
    spread start (forms ++ more)
      = spread start forms ++ spread (start + 3 * forms.length) more := by
  induction forms generalizing start with
  | nil => rfl
  | cons wide forms ih =>
    have hstart : start + 3 + 3 * forms.length = start + 3 * (forms.length + 1) := by omega
    rw [List.cons_append, spread, ih, spread, List.cons_append, List.length_cons, hstart]

theorem encodedLength_spread (start : Nat) (wide : Bool) :
    encodedLength ⟨Serial.ofNat start, Serial.ofNat (start + if wide then 1 else 0)⟩
      = formLength wide := by
  cases wide with
  | false =>
    exact if_pos (decide_eq_true rfl)
  | true =>
    refine if_neg fun hsingle => ?_
    have hvals := congrArg Serial.val (of_decide_eq_true hsingle)
    simp only [Serial.val_ofNat, if_true] at hvals
    omega

theorem load_spread (start : Nat) (forms : List Bool) :
    Packing.load encodedLength (spread start forms) = Packing.load formLength forms := by
  induction forms generalizing start with
  | nil => rfl
  | cons wide forms ih =>
    rw [spread, Packing.load_cons, Packing.load_cons, ih, encodedLength_spread]

theorem canonical_spread (hbelow : start + 3 * forms.length ≤ 16777216) :
    Canonical (spread start forms) ∧ ∀ r ∈ spread start forms, start ≤ r.first.val := by
  induction forms generalizing start with
  | nil => exact ⟨⟨fun r hr => absurd hr List.not_mem_nil, List.Pairwise.nil⟩,
      fun r hr => absurd hr List.not_mem_nil⟩
  | cons wide forms ih =>
    rw [List.length_cons] at hbelow
    obtain ⟨hcanonical, hlater⟩ := @ih (start + 3) (by omega)
    have hfirst : (Serial.ofNat start).val = start := by
      rw [Serial.val_ofNat]
      omega
    have hlast : (Serial.ofNat (start + if wide then 1 else 0)).val
        = start + if wide then 1 else 0 := by
      rw [Serial.val_ofNat]
      split <;> omega
    have hwide : (if wide = true then 1 else 0) ≤ 1 := by split <;> omega
    refine ⟨⟨?_, ?_⟩, ?_⟩
    · refine List.forall_mem_cons.2 ⟨?_, hcanonical.straight⟩
      unfold IsStraight
      rw [hfirst, hlast]
      omega
    · refine List.pairwise_cons.2 ⟨fun r hr => ?_, hcanonical.separated⟩
      have := hlater r hr
      rw [hlast]
      omega
    · refine List.forall_mem_cons.2 ⟨Nat.le_of_eq hfirst.symm, fun r hr => ?_⟩
      have := hlater r hr
      omega

/-- Numbers that are listed by a canonical form condense to it. -/
theorem condense_of_canonical {rs : List SerialRange} (h : Canonical rs) :
    condense ((rs.flatMap toList).map single) = rs := by
  refine (canonical_condense _).eq_of_cover_iff h fun s => ?_
  rw [← (canonical_condense _).mem_numbers, mem_numbers_condense_single, h.mem_numbers]

end SerialRange

namespace Acknowledgement

variable {kind : AckKind} {ranges : List SerialRange} {limit : Nat} {packets : List Acknowledgement}

/-- The packets hold the ranges, all of them and no others, in any order and in packets that are
short enough. -/
structure Distributes (packets : List Acknowledgement) (kind : AckKind)
    (ranges : List SerialRange) (limit : Nat) : Prop where
  kind : ∀ a ∈ packets, a.kind = kind
  ranges : (packets.flatMap Acknowledgement.ranges).Perm ranges
  fits : ∀ a ∈ packets, a.encodedLength ≤ limit

/-- The ranges of the packets are groups that fit behind a header. -/
theorem Distributes.load_le (h : Distributes packets kind ranges limit) :
    ∀ g ∈ packets.map Acknowledgement.ranges,
      Packing.load SerialRange.encodedLength g ≤ limit - headerLength := by
  intro g hg
  obtain ⟨a, ha, rfl⟩ := List.mem_map.1 hg
  have hfits := h.fits a ha
  unfold encodedLength at hfits
  exact Nat.le_sub_of_add_le' hfits

theorem Distributes.perm (h : Distributes packets kind ranges limit) :
    (packets.map Acknowledgement.ranges).flatten.Perm ranges := by
  rw [← List.flatMap_def]
  exact h.ranges

theorem distributes_build (kind : AckKind) (ranges : List SerialRange) (hroom : 10 ≤ limit) :
    Distributes (build kind ranges limit) kind (SerialRange.condense ranges) limit where
  kind := fun _ ha => (mem_numbers_build ha).1
  ranges := by rw [flatMap_ranges_build]
  fits := fun _ ha => encodedLength_le_of_mem_build hroom ha

theorem length_build (kind : AckKind) (ranges : List SerialRange) (limit : Nat) :
    (build kind ranges limit).length = (Packing.batches SerialRange.encodedLength
      (limit - headerLength) (SerialRange.condense ranges).length
      (SerialRange.condense ranges)).1.length := by
  rw [build, List.length_map, Packing.groups]

/-- **No other distribution in the same order needs fewer packets.** -/
theorem length_build_le_of_in_order {others : List Acknowledgement}
    (h : Distributes others kind (SerialRange.condense ranges) limit)
    (horder : others.flatMap Acknowledgement.ranges = SerialRange.condense ranges) :
    (build kind ranges limit).length ≤ others.length := by
  rw [length_build, ← List.length_map Acknowledgement.ranges]
  exact Packing.length_batches_le_of_flatten_eq h.load_le
    ((List.flatMap_def).symm.trans horder) _

/-- Ranges of one form can change places, and none is ever in the way of another. -/
theorem length_build_le_of_alike {others : List Acknowledgement}
    (h : Distributes others kind (SerialRange.condense ranges) limit)
    (halike : ∀ r ∈ SerialRange.condense ranges, ∀ q ∈ SerialRange.condense ranges,
      r.isSingle = q.isSingle) :
    (build kind ranges limit).length ≤ others.length := by
  rw [length_build, ← List.length_map Acknowledgement.ranges]
  cases hranges : SerialRange.condense ranges with
  | nil => exact Nat.zero_le _
  | cons r rest =>
    rw [hranges] at h halike
    have hsize : ∀ q ∈ r :: rest, q.encodedLength = r.encodedLength := by
      intro q hq
      unfold SerialRange.encodedLength
      rw [halike q hq r List.mem_cons_self]
    exact Packing.length_batches_le_of_alike hsize h.load_le h.perm _

/-- There is room for six octets at most in a packet that is left behind, and its header does not
count. -/
theorem length_build_mul_lt {others : List Acknowledgement} (hroom : 10 ≤ limit)
    (h : Distributes others kind (SerialRange.condense ranges) limit) :
    (build kind ranges limit).length * (limit - 9)
      < others.length * (limit - 3) + (limit - 9) := by
  have hwide : 7 ≤ limit - headerLength := by
    unfold headerLength
    omega
  have hpos (r : SerialRange) : 0 < r.encodedLength :=
    Nat.lt_of_lt_of_le (by decide) r.four_le_encodedLength
  have hbuilt := Packing.length_batches_mul_lt hpos
    (fun r (_ : r ∈ SerialRange.condense ranges) => r.encodedLength_le) hwide
    (SerialRange.condense ranges).length
  have hload := Packing.load_flatten_le h.load_le
  rw [Packing.load_perm h.perm, List.length_map] at hload
  have hspare : limit - headerLength + 1 - 7 = limit - 9 := by
    unfold headerLength
    omega
  rw [← length_build kind, hspare] at hbuilt
  unfold headerLength at hload
  omega

/-- A packet that has no room for two ranges holds one, however they are distributed. -/
theorem length_build_le_of_narrow {others : List Acknowledgement}
    (h : Distributes others kind (SerialRange.condense ranges) 10) :
    (build kind ranges 10).length ≤ others.length := by
  have hone : ∀ g ∈ others.map Acknowledgement.ranges, g.length ≤ 1 := by
    intro g hg
    have hfits := h.load_le g hg
    have hlength := Packing.mul_length_le_load SerialRange.four_le_encodedLength g
    unfold headerLength at hfits
    omega
  have hothers := Packing.length_flatten_le hone
  rw [h.perm.length_eq, List.length_map] at hothers
  rw [length_build]
  exact Nat.le_trans (Packing.length_batches_le _ _ _ _) hothers

/-- Two packets are too few if a range fits neither with all before it nor with all behind it. -/
theorem three_le_of_spread {front back : List Bool} {wide : Bool} {capacity : Nat}
    (hfront : capacity < Packing.load SerialRange.formLength (front ++ [wide]))
    (hback : capacity < Packing.load SerialRange.formLength (wide :: back))
    {groups : List (List SerialRange)}
    (hfits : ∀ g ∈ groups, Packing.load SerialRange.encodedLength g ≤ capacity)
    (hflatten : groups.flatten = SerialRange.spread 0 (front ++ wide :: back)) :
    3 ≤ groups.length := by
  rw [SerialRange.spread_append, SerialRange.spread] at hflatten
  rw [← SerialRange.load_spread 0, SerialRange.spread_append] at hfront
  rw [← SerialRange.load_spread (0 + 3 * front.length)] at hback
  exact Packing.three_le_length_of_flatten_eq hfront hback hfits hflatten

/-- Forms of which two neighbours stand in the wrong order: in their order they do not go into two
packets, and with the two exchanged they do. -/
structure Misplaced (front : List Bool) (x y : Bool) (back : List Bool) (capacity : Nat) :
    Prop where
  few : front.length + back.length ≤ capacity
  apart : ∀ groups : List (List SerialRange),
    (∀ g ∈ groups, Packing.load SerialRange.encodedLength g ≤ capacity) →
      groups.flatten = SerialRange.spread 0 (front ++ x :: y :: back) → 3 ≤ groups.length
  front_fits : Packing.load SerialRange.formLength (front ++ [y]) ≤ capacity
  back_fits : Packing.load SerialRange.formLength (x :: back) ≤ capacity

theorem load_single_cons (forms : List Bool) :
    Packing.load SerialRange.formLength (false :: forms)
      = 4 + Packing.load SerialRange.formLength forms := Packing.load_cons ..

theorem load_row_cons (forms : List Bool) :
    Packing.load SerialRange.formLength (true :: forms)
      = 7 + Packing.load SerialRange.formLength forms := Packing.load_cons ..

theorem load_singles (n : Nat) :
    Packing.load SerialRange.formLength (List.replicate n false) = 4 * n := by
  have halike : ∀ wide ∈ List.replicate n false, SerialRange.formLength wide = 4 := by
    intro wide hwide
    rw [List.eq_of_mem_replicate hwide]
    rfl
  rw [Packing.load_of_alike halike, List.length_replicate, Nat.mul_comm]

/-- What fills two packets, each with a row and single numbers: one single number too many in front
of the first row keeps it out. -/
theorem misplaced_full (beside : Nat) :
    Misplaced (List.replicate (beside + 1) false) false true
      (List.replicate beside false ++ [true]) (4 * (beside + 1) + 7) where
  few := by
    simp only [List.length_append, List.length_replicate, List.length_singleton]
    omega
  apart := fun groups hfits hflatten => by
    rw [List.append_cons] at hflatten
    refine three_le_of_spread ?_ ?_ hfits hflatten
    all_goals
      simp only [Packing.load_append, load_singles, load_single_cons, load_row_cons,
        Packing.load_nil]
      omega
  front_fits := by
    simp only [Packing.load_append, load_singles, load_row_cons, Packing.load_nil]
    omega
  back_fits := by
    simp only [Packing.load_append, load_singles, load_single_cons, load_row_cons, Packing.load_nil]
    omega

/-- A row leaves room to spare beside single numbers, and another packet is for single numbers only:
the row comes one number too early. -/
theorem misplaced_spare (beside : Nat) {spare : Nat} (hpos : 0 < spare) (hless : spare < 4) :
    Misplaced (List.replicate (beside + 1) false) true false (List.replicate beside false)
      (4 * beside + spare + 7) where
  few := by
    simp only [List.length_replicate]
    omega
  apart := fun groups hfits hflatten => by
    refine three_le_of_spread ?_ ?_ hfits hflatten
    all_goals
      simp only [Packing.load_append, load_singles, load_single_cons, load_row_cons,
        Packing.load_nil]
      omega
  front_fits := by
    simp only [Packing.load_append, load_singles, load_single_cons, Packing.load_nil]
    omega
  back_fits := by
    simp only [load_singles, load_row_cons]
    omega

/-- Behind a range there is room for a number of single ones, and for less than one more. -/
theorem exists_misplaced {capacity : Nat} (h : 8 ≤ capacity) :
    ∃ front x y back, Misplaced front x y back capacity := by
  obtain ⟨beside, spare, hless, rfl⟩ :
      ∃ beside spare, spare < 4 ∧ capacity = 4 * beside + spare + 7 :=
    ⟨(capacity - 7) / 4, (capacity - 7) % 4, Nat.mod_lt _ (by decide), by omega⟩
  rcases Nat.eq_zero_or_pos spare with rfl | hpos
  · obtain ⟨beside, rfl⟩ := Nat.exists_eq_add_one.2 (show 0 < beside by omega)
    exact ⟨_, _, _, _, misplaced_full beside⟩
  · exact ⟨_, _, _, _, misplaced_spare beside hpos hless⟩

/-- Two packets for the ranges, of which the two that stand in the wrong order change places. -/
def exchanged (front : List Bool) (x y : Bool) (back : List Bool) (kind : AckKind) :
    List Acknowledgement :=
  let start := 3 * front.length
  [⟨kind, SerialRange.spread 0 front ++ SerialRange.spread (start + 3) [y]⟩,
    ⟨kind, SerialRange.spread start [x] ++ SerialRange.spread (start + 6) back⟩]

theorem Misplaced.distributes_exchanged {front back : List Bool} {x y : Bool} (kind : AckKind)
    (h : Misplaced front x y back (limit - headerLength)) (hroom : headerLength ≤ limit) :
    Distributes (exchanged front x y back kind) kind
      (SerialRange.spread 0 (front ++ x :: y :: back)) limit where
  kind := by simp [exchanged]
  ranges := by
    rw [SerialRange.spread_append]
    simp only [exchanged, SerialRange.spread, Nat.zero_add, List.flatMap_cons, List.flatMap_nil,
      List.append_nil, List.append_assoc, List.singleton_append]
    exact List.Perm.append_left _ (List.Perm.swap _ _ _)
  fits := by
    have hfront := h.front_fits
    have hback := h.back_fits
    rw [Packing.load_append] at hfront
    rw [← List.singleton_append, Packing.load_append] at hback
    simp only [exchanged, List.forall_mem_cons, List.not_mem_nil, false_imp_iff, implies_true,
      and_true, encodedLength, Packing.load_append, SerialRange.load_spread]
    omega

/-- **For any packet that has room for two ranges there are numbers that are not distributed over as
few packets as possible.** -/
theorem exists_fewer (kind : AckKind) (hroom : 10 < limit) (hmost : limit ≤ 65535) :
    ∃ (reported : List Serial) (others : List Acknowledgement),
      Distributes others kind (SerialRange.condense (reported.map SerialRange.single)) limit ∧
        others.length < (build kind (reported.map SerialRange.single) limit).length := by
  have hcapacity : 8 ≤ limit - headerLength := by
    unfold headerLength
    omega
  obtain ⟨front, x, y, back, hmisplaced⟩ := exists_misplaced hcapacity
  have hfew := hmisplaced.few
  have hbelow : 0 + 3 * (front ++ x :: y :: back).length ≤ 16777216 := by
    rw [List.length_append, List.length_cons, List.length_cons]
    omega
  have hcondense := SerialRange.condense_of_canonical (SerialRange.canonical_spread hbelow).1
  refine ⟨(SerialRange.spread 0 (front ++ x :: y :: back)).flatMap SerialRange.toList, ?_⟩
  rw [hcondense]
  have hbuilt := distributes_build kind (((SerialRange.spread 0 (front ++ x :: y :: back)).flatMap
    SerialRange.toList).map SerialRange.single) (Nat.le_of_lt hroom)
  have hthree := hmisplaced.apart _ hbuilt.load_le (by
    rw [← List.flatMap_def, flatMap_ranges_build, hcondense])
  rw [List.length_map] at hthree
  -- the two neighbours change places, and the cut is between them
  refine ⟨exchanged front x y back kind, ?_, Nat.lt_of_lt_of_le (Nat.lt_succ_self 2) hthree⟩
  exact hmisplaced.distributes_exchanged kind (by unfold headerLength; omega)

/-- **How few packets are built.** The packets hold the ranges and are short enough. No other
distribution in the same order has fewer of them, none at all if the ranges are of one form, and in
any case what is wasted are six octets of each packet but one. That the packets are as few as
possible for any numbers is true only if a packet has no room for two ranges. -/
theorem distributed_in_order (hroom : 10 ≤ limit) :
    (∀ (kind : AckKind) (reported : List Serial),
      let ranges := SerialRange.condense (reported.map SerialRange.single)
      let packets := build kind (reported.map SerialRange.single) limit
      Distributes packets kind ranges limit ∧
        ∀ others, Distributes others kind ranges limit →
          (others.flatMap Acknowledgement.ranges = ranges → packets.length ≤ others.length) ∧
          ((∀ r ∈ ranges, ∀ q ∈ ranges, r.isSingle = q.isSingle) →
            packets.length ≤ others.length) ∧
          packets.length * (limit - 9) < others.length * (limit - 3) + (limit - 9)) ∧
    (limit ≤ 65535 →
      ((∀ (kind : AckKind) (reported : List Serial) (others : List Acknowledgement),
        Distributes others kind (SerialRange.condense (reported.map SerialRange.single)) limit →
          (build kind (reported.map SerialRange.single) limit).length ≤ others.length)
        ↔ limit = 10)) := by
  constructor
  · intro kind reported ranges packets
    refine ⟨distributes_build kind _ hroom, fun others hothers => ⟨fun horder => ?_, ?_, ?_⟩⟩
    · exact length_build_le_of_in_order hothers horder
    · exact length_build_le_of_alike hothers
    · exact length_build_mul_lt hroom hothers
  · intro hmost
    constructor
    · intro hfewest
      by_contra hwider
      obtain ⟨reported, others, hothers, hfewer⟩ :=
        exists_fewer .ack (Nat.lt_of_le_of_ne hroom (Ne.symm hwider)) hmost
      exact absurd (hfewest .ack reported others hothers) (Nat.not_le.2 hfewer)
    · rintro rfl kind reported others hothers
      exact length_build_le_of_narrow hothers

/-- Single numbers on both sides of a row. -/
def besideRow : List Serial := [0, 3, 4, 6].map Serial.ofNat

/-- Three packets are built of one range each. The two single numbers would have gone into one. -/
theorem distributed_in_order_besideRow :
    let ranges := SerialRange.condense (besideRow.map SerialRange.single)
    let packets := build .ack (besideRow.map SerialRange.single) 11
    let zero := SerialRange.single (Serial.ofNat 0)
    let row : SerialRange := ⟨Serial.ofNat 3, Serial.ofNat 4⟩
    let six := SerialRange.single (Serial.ofNat 6)
    packets.length = 3 ∧ Distributes [⟨.ack, [zero, six]⟩, ⟨.ack, [row]⟩] .ack ranges 11 ∧
      ∀ others, Distributes others .ack ranges 11 →
        others.flatMap Acknowledgement.ranges = ranges → 3 ≤ others.length := by
  intro ranges packets zero row six
  have hcanonical : SerialRange.Canonical (SerialRange.spread 0 [false, true, false]) :=
    (SerialRange.canonical_spread (by decide)).1
  have hranges : ranges = [zero, row, six] := SerialRange.condense_of_canonical hcanonical
  have hthree : packets.length = 3 := by
    show (build .ack (besideRow.map SerialRange.single) 11).length = 3
    rw [length_build, show SerialRange.condense (besideRow.map SerialRange.single)
      = [zero, row, six] from hranges]
    rfl
  refine ⟨hthree, ⟨by decide, ?_, by decide⟩, fun others hothers horder => ?_⟩
  · rw [hranges]
    exact List.Perm.cons _ (List.Perm.swap _ _ _)
  · rw [← hthree]
    exact (((distributed_in_order (by decide)).1 .ack besideRow).2 others hothers).1 horder

end Acknowledgement

end DatagramTransport

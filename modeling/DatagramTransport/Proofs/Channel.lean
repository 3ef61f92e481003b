import DatagramTransport.Proofs.Unbounded
import DatagramTransport.Receiver.Channels
import Mathlib.Data.List.Basic

/-!
# Order channels as sequences of places

What was ever taken in on a channel is a partial map from places to payloads, and the channel is
always in the one state that this map determines: it stands at the first place that is missing and
holds what lies behind that. **So what comes out is the map read from the start as far as it goes**,
whatever the order in which places were filled.

Places are unbounded. `Awaits` says this of a channel after any number of turns, which takes that
whatever comes is near to the place that it waits for; `Reads` says it of places that are all less
than half a turn from zero, and then nothing has to be near.
-/

set_option autoImplicit false

namespace DatagramTransport

namespace Receiver

namespace Channel

variable {c : Channel} {held : Std.TreeMap Serial Octets} {got : Nat → Option Octets}
  {n next k : Nat} {x : Octets}

/-- What is held, by the places from `n` on: those of one turn are all that serial numbers can tell
apart. -/
def HoldsTurn (held : Std.TreeMap Serial Octets) (got : Nat → Option Octets) (n : Nat) : Prop :=
  ∀ k, n ≤ k → k < n + 16777216 → held[Serial.ofNat k]? = got k

/-- What is held are the payloads from the place `n` on. -/
def HoldsFrom (held : Std.TreeMap Serial Octets) (got : Nat → Option Octets) (n : Nat) : Prop :=
  ∀ k < 16777216, held[Serial.ofNat k]? = if n ≤ k then got k else none

def between (got : Nat → Option Octets) (n m : Nat) : List Octets :=
  (List.range' n (m - n)).filterMap got

/-- The channel waits for the place `next`, and holds what it has of the places ahead. -/
structure Awaits (c : Channel) (got : Nat → Option Octets) (next : Nat) : Prop where
  standing : c.nextOrdered = Serial.ofNat next
  missing : got next = none
  held : HoldsTurn c.held got next
  bounded : ∀ k, (got k).isSome → k < next + 8388608

/-- The channel has taken in `got`, which has no gap before `next`. -/
structure Reads (c : Channel) (got : Nat → Option Octets) (next : Nat) : Prop where
  standing : c.nextOrdered = Serial.ofNat next
  filled : ∀ k < next, (got k).isSome
  missing : got next = none
  held : HoldsFrom c.held got next
  bounded : ∀ k, (got k).isSome → k < 8388608

def fill (got : Nat → Option Octets) (k : Nat) (x : Octets) : Nat → Option Octets :=
  fun j => if j = k then some x else got j

/-- A place that is filled already stays as it is. -/
def offer (got : Nat → Option Octets) (k : Nat) (x : Octets) : Nat → Option Octets :=
  fun j => (got j).or (if j = k then some x else none)

theorem between_self (got : Nat → Option Octets) (n : Nat) : between got n n = [] := by
  simp [between]

theorem between_succ (got : Nat → Option Octets) {m : Nat} (hnm : n < m) (hx : got n = some x) :
    between got n m = x :: between got (n + 1) m := by
  unfold between
  rw [show m - n = (m - (n + 1)) + 1 by omega, List.range'_succ, List.filterMap_cons, hx]

theorem between_append (got : Nat → Option Octets) {m l : Nat} (hnm : n ≤ m) (hml : m ≤ l) :
    between got n m ++ between got m l = between got n l := by
  unfold between
  rw [← List.filterMap_append, show l - n = (m - n) + (l - m) by omega, ← List.range'_append,
    show n + 1 * (m - n) = m by omega]

theorem between_congr {got' : Nat → Option Octets} {m : Nat}
    (h : ∀ k, n ≤ k → k < m → got k = got' k) : between got n m = between got' n m := by
  refine List.filterMap_congr fun k hk => ?_
  rw [List.mem_range'_1] at hk
  exact h k hk.1 (by omega)

theorem length_between {m : Nat} (h : ∀ k, n ≤ k → k < m → (got k).isSome) :
    (between got n m).length = m - n := by
  have hall : ∀ k ∈ List.range' n (m - n), (got k).isSome = true := by
    intro k hk
    rw [List.mem_range'_1] at hk
    exact h k hk.1 (by omega)
  rw [between, List.length_filterMap_eq_countP, List.countP_eq_length.2 hall, List.length_range']

theorem fill_self (got : Nat → Option Octets) (k : Nat) (x : Octets) : fill got k x k = some x :=
  if_pos rfl

theorem fill_of_ne (got : Nat → Option Octets) {j : Nat} (hj : j ≠ k) :
    fill got k x j = got j := if_neg hj

theorem fill_bounded (bounded : ∀ j, (got j).isSome → j < 8388608) (hk : k < 8388608) :
    ∀ j, (fill got k x j).isSome → j < 8388608 := by
  intro j hj
  by_cases h : j = k
  · rwa [h]
  · rw [fill_of_ne got h] at hj
    exact bounded j hj

theorem offer_of_ne (got : Nat → Option Octets) {j : Nat} (hj : j ≠ k) :
    offer got k x j = got j := by
  simp [offer, hj]

/-- A place that is missing is filled. -/
theorem offer_eq_fill (hnew : got k = none) : offer got k x = fill got k x := by
  funext j
  by_cases hj : j = k
  · rw [hj, fill_self, offer, hnew, if_pos rfl, Option.none_or]
  · rw [offer_of_ne got hj, fill_of_ne got hj]

/-! ## A turn of places -/

theorem HoldsTurn.congr {got' : Nat → Option Octets} (h : HoldsTurn held got n)
    (hsame : ∀ k, n ≤ k → k < n + 16777216 → got k = got' k) : HoldsTurn held got' n :=
  fun k hk hturn => (h k hk hturn).trans (hsame k hk hturn)

/-- A turn from the next place on has one place more at its end, which has the serial number of the
one that is gone. -/
theorem HoldsTurn.advance (h : HoldsTurn held got n) (hnone : held[Serial.ofNat n]? = none)
    (hfar : got (n + 16777216) = none) : HoldsTurn held got (n + 1) := by
  intro k hk hturn
  by_cases hlast : k = n + 16777216
  · rw [hlast, Serial.ofNat_add_turn, hnone, hfar]
  · exact h k (by omega) (by omega)

theorem HoldsTurn.erase (h : HoldsTurn held got n) (hfar : got (n + 16777216) = none) :
    HoldsTurn (held.erase (Serial.ofNat n)) got (n + 1) := by
  intro k hk hturn
  rw [Std.TreeMap.getElem?_erase]
  by_cases hlast : k = n + 16777216
  · rw [hlast, Serial.ofNat_add_turn, if_pos (by simp), hfar]
  · have hne : Serial.ofNat n ≠ Serial.ofNat k := by
      intro heq
      have := Serial.ofNat_inj heq (by omega) (by omega)
      omega
    rw [if_neg (by simpa using hne), h k (by omega) (by omega)]

/-- What is held from the place `n` on goes without a gap up to the place `m`, and comes out. -/
structure DrainsTo (held : Std.TreeMap Serial Octets) (got : Nat → Option Octets) (n m : Nat) :
    Prop where
  le : n ≤ m
  filled : ∀ k, n ≤ k → k < m → (got k).isSome
  missing : got m = none
  out : (drain (Serial.ofNat n) held).1 = between got n m
  standing : (drain (Serial.ofNat n) held).2.1 = Serial.ofNat m
  held : HoldsTurn (drain (Serial.ofNat n) held).2.2 got m

theorem HoldsTurn.drainsTo_self (h : HoldsTurn held got n) (hnone : got n = none) :
    DrainsTo held got n n := by
  have hget : held[Serial.ofNat n]? = none := by
    rw [h n (Nat.le_refl n) (by omega), hnone]
  have hdrain := drain_of_none hget
  refine ⟨Nat.le_refl n, fun k h₁ h₂ => absurd h₂ (Nat.not_lt.2 h₁), hnone, ?_, ?_, ?_⟩
  · rw [hdrain, between_self]
  · rw [hdrain]
  · rw [hdrain]
    exact h

theorem HoldsTurn.drainsTo_of_next (h : HoldsTurn held got n) (hx : got n = some x) {m : Nat}
    (hrest : DrainsTo (held.erase (Serial.ofNat n)) got (n + 1) m) : DrainsTo held got n m := by
  have hget : held[Serial.ofNat n]? = some x := by
    rw [h n (Nat.le_refl n) (by omega), hx]
  have hdrain := drain_of_some hget
  have hlt := hrest.le
  rw [Serial.next_ofNat] at hdrain
  refine ⟨by omega, fun k h₁ h₂ => ?_, hrest.missing, ?_, ?_, ?_⟩
  · rcases Nat.eq_or_lt_of_le h₁ with rfl | hgt
    · rw [hx]; rfl
    · exact hrest.filled k hgt h₂
  · rw [hdrain, hrest.out, between_succ got (by omega) hx]
  · rw [hdrain]
    exact hrest.standing
  · rw [hdrain]
    exact hrest.held

/-- **What is held comes out as far as it goes without a gap.** No place from `limit` on is filled,
and the limit is in reach. -/
theorem HoldsTurn.drainsTo {limit : Nat} (h : HoldsTurn held got n)
    (bounded : ∀ k, (got k).isSome → k < limit) (hlimit : limit ≤ n + 16777216) :
    ∃ m, DrainsTo held got n m := by
  have hnone : ∀ k, limit ≤ k → got k = none := fun k hk =>
    Option.not_isSome_iff_eq_none.1 fun hsome => Nat.not_lt.2 hk (bounded k hsome)
  -- the induction is on how far it is to the limit, which no filled place reaches
  obtain ⟨room, hroom⟩ : ∃ room, limit ≤ n + room := ⟨limit, Nat.le_add_left limit n⟩
  induction room generalizing n held with
  | zero => exact ⟨n, h.drainsTo_self (hnone n hroom)⟩
  | succ room ih =>
    cases hx : got n with
    | none => exact ⟨n, h.drainsTo_self hx⟩
    | some x =>
      obtain ⟨m, hrest⟩ := ih (h.erase (hnone _ hlimit)) (by omega) (by omega)
      exact ⟨m, h.drainsTo_of_next hx hrest⟩

/-! ## Taking in a message -/

theorem takeOrdered_standing (h : c.nextOrdered = Serial.ofNat next) :
    c.takeOrdered (Serial.ofNat next) x
      = (x :: (drain (Serial.ofNat (next + 1)) c.held).1,
          { c with
            nextOrdered := (drain (Serial.ofNat (next + 1)) c.held).2.1
            held := (drain (Serial.ofNat (next + 1)) c.held).2.2 }) := by
  simp only [takeOrdered, h, Serial.distanceFrom_self, Serial.next_ofNat]
  rw [if_neg (by decide), if_neg (Nat.lt_irrefl 0)]

theorem takeOrdered_ahead (h : c.nextOrdered = Serial.ofNat next) (hlt : next < k)
    (hk : k < next + 8388608) :
    c.takeOrdered (Serial.ofNat k) x
      = ([], { c with held := c.held.insertIfNew (Serial.ofNat k) x }) := by
  simp only [takeOrdered, h, Serial.distanceFrom_ofNat_of_le (Nat.le_of_lt hlt)
    (by omega : k < next + 16777216)]
  rw [if_neg (by simp only [Serial.half]; omega), if_pos (by omega)]

theorem takeOrdered_behind (h : c.nextOrdered = Serial.ofNat next) (hlt : k < next)
    (hk : next ≤ k + 8388608) : c.takeOrdered (Serial.ofNat k) x = ([], c) := by
  simp only [takeOrdered, h, Serial.distanceFrom_ofNat_of_lt hlt
    (by omega : next ≤ k + 16777216)]
  rw [if_pos (by simp only [Serial.half]; omega)]

/-- **A place that is offered brings out what now follows without a gap, and nothing else.** A copy
of what is held already changes nothing. -/
theorem Awaits.take (h : c.Awaits got next) (hle : next ≤ k) (hk : k < next + 8388608) :
    ∃ next', next ≤ next' ∧
      (c.takeOrdered (Serial.ofNat k) x).2.Awaits (offer got k x) next' ∧
      (∀ j, next ≤ j → j < next' → (offer got k x j).isSome) ∧
      (c.takeOrdered (Serial.ofNat k) x).1 = between (offer got k x) next next' := by
  have hbounded : ∀ j, (offer got k x j).isSome → j < next + 8388608 := by
    intro j hj
    by_cases hjk : j = k
    · rwa [hjk]
    · rw [offer_of_ne got hjk] at hj
      exact h.bounded j hj
  rcases Nat.eq_or_lt_of_le hle with rfl | hlt
  · -- the place the channel waits for: it comes out, and what is held behind it
    have hself : offer got next x next = some x := by
      rw [offer_eq_fill h.missing, fill_self]
    have hheld : HoldsTurn c.held (offer got next x) (next + 1) := by
      refine (h.held.advance ?_ ?_).congr fun j hj _ => (offer_of_ne got (by omega)).symm
      · rw [h.held next (Nat.le_refl next) (by omega), h.missing]
      · exact Option.not_isSome_iff_eq_none.1 fun hsome => by
          have := h.bounded _ hsome
          omega
    obtain ⟨m, hdrains⟩ := hheld.drainsTo hbounded (by omega)
    have hm := hdrains.le
    rw [takeOrdered_standing h.standing]
    refine ⟨m, by omega, ⟨hdrains.standing, hdrains.missing, hdrains.held, fun j hj => ?_⟩,
      fun j h₁ h₂ => ?_, ?_⟩
    · have := hbounded j hj
      omega
    · rcases Nat.eq_or_lt_of_le h₁ with rfl | hgt
      · rw [hself]; rfl
      · exact hdrains.filled j hgt h₂
    · rw [hdrains.out, between_succ _ (by omega) hself]
  · -- a place further on: it is held, unless something is held there
    rw [takeOrdered_ahead h.standing hlt hk]
    have hmissing : offer got k x next = none := by
      rw [offer_of_ne got (by omega), h.missing]
    refine ⟨next, Nat.le_refl next, ⟨h.standing, hmissing, fun j hj hturn => ?_, hbounded⟩,
      fun j h₁ h₂ => absurd h₂ (Nat.not_lt.2 h₁), (between_self _ next).symm⟩
    rw [Std.TreeMap.getElem?_insertIfNew, h.held j hj hturn]
    by_cases hjk : j = k
    · subst hjk
      cases hg : got j with
      | none =>
        have hnot : Serial.ofNat j ∉ c.held := by
          rw [Std.TreeMap.mem_iff_isSome_getElem?, h.held j hj hturn, hg]
          exact Bool.false_ne_true
        rw [if_pos ⟨by simp, hnot⟩, offer_eq_fill hg, fill_self]
      | some y =>
        have hmem : Serial.ofNat j ∈ c.held := by
          rw [Std.TreeMap.mem_iff_isSome_getElem?, h.held j hj hturn, hg]
          rfl
        rw [if_neg fun hnot => hnot.2 hmem, offer, hg, Option.some_or]
    · have hne : Serial.ofNat k ≠ Serial.ofNat j := by
        intro heq
        have := Serial.ofNat_inj heq (by omega) (by omega)
        omega
      rw [if_neg (by simp [hne]), offer_of_ne got hjk]

/-! ## Places before half a turn -/

/-- Where no place is half a turn or more from zero, a turn of places is all places. -/
theorem holdsFrom_iff_holdsTurn (bounded : ∀ k, (got k).isSome → k < 8388608)
    (hn : n ≤ 8388608) : HoldsFrom held got n ↔ HoldsTurn held got n := by
  have hnone (k : Nat) (hk : 8388608 ≤ k) : got k = none :=
    Option.not_isSome_iff_eq_none.1 fun hsome => Nat.not_lt.2 hk (bounded k hsome)
  constructor
  · intro h k hk hturn
    rcases Nat.lt_or_ge k 16777216 with hlt | hge
    · rw [h k hlt, if_pos hk]
    · obtain ⟨j, rfl⟩ := Nat.exists_eq_add_of_le' hge
      rw [Serial.ofNat_add_turn, h j (by omega), if_neg (by omega), hnone _ (by omega)]
  · intro h k hk
    by_cases hnk : n ≤ k
    · rw [h k hnk (by omega), if_pos hnk]
    · rw [← Serial.ofNat_add_turn, h (k + 16777216) (by omega) (by omega), if_neg hnk,
        hnone _ (by omega)]

theorem reads_fresh : fresh.Reads (fun _ => none) 0 where
  standing := rfl
  filled := fun k hk => absurd hk (Nat.not_lt_zero k)
  missing := rfl
  held := fun k _ => by simp [fresh]
  bounded := fun k hk => by cases hk

/-- The place at which a channel stands is less than half a turn away: the place before it was
filled. -/
theorem Reads.next_le (h : c.Reads got next) : next ≤ 8388608 := by
  rcases Nat.eq_zero_or_pos next with rfl | hpos
  · exact Nat.zero_le _
  · have := h.bounded (next - 1) (h.filled (next - 1) (by omega))
    omega

theorem Reads.awaits (h : c.Reads got next) : c.Awaits got next where
  standing := h.standing
  missing := h.missing
  held := (holdsFrom_iff_holdsTurn h.bounded h.next_le).1 h.held
  bounded := fun k hk => Nat.lt_of_lt_of_le (h.bounded k hk) (Nat.le_add_left _ _)

/-- **A place that is filled brings out what now follows without a gap, and nothing else.** -/
theorem Reads.take (h : c.Reads got next) (hk : k < 8388608) (hnew : got k = none) :
    ∃ next', next ≤ next' ∧
      (c.takeOrdered (Serial.ofNat k) x).2.Reads (fill got k x) next' ∧
      (c.takeOrdered (Serial.ofNat k) x).1 = between (fill got k x) next next' := by
  have hle : next ≤ k := Nat.le_of_not_lt fun hlt => by
    have := h.filled k hlt
    rw [hnew] at this
    cases this
  have hbounded := fill_bounded (x := x) h.bounded hk
  obtain ⟨next', hnext, hawaits, hfilled, hout⟩ := h.awaits.take (x := x) hle (by omega)
  rw [offer_eq_fill hnew] at hawaits hfilled hout
  have hfilled' : ∀ j < next', (fill got k x j).isSome := by
    intro j hj
    rcases Nat.lt_or_ge j next with hlt | hge
    · rw [fill_of_ne got (by omega)]
      exact h.filled j hlt
    · exact hfilled j hge hj
  have hle' : next' ≤ 8388608 := by
    rcases Nat.eq_zero_or_pos next' with rfl | hpos
    · exact Nat.zero_le _
    · have := hbounded (next' - 1) (hfilled' (next' - 1) (by omega))
      omega
  exact ⟨next', hnext, ⟨hawaits.standing, hfilled', hawaits.missing,
    (holdsFrom_iff_holdsTurn hbounded hle').2 hawaits.held, hbounded⟩, hout⟩

theorem Reads.takeSequenced (h : c.Reads got next) (s : Serial) :
    (c.takeSequenced s).2.Reads got next := by
  unfold Channel.takeSequenced
  split
  · exact ⟨h.standing, h.filled, h.missing, h.held, h.bounded⟩
  · exact h

end Channel

end Receiver

end DatagramTransport

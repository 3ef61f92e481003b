import DatagramTransport.Proofs.Parcel
import DatagramTransport.Receiver.Assembler
import Mathlib.Data.List.Sort

/-!
# Reassembly of parcels

What an assembler keeps is determined by which indexes were taken in: an assembly for each split
parcel of which something is there and something is missing, and in it the pieces that are there.
**The last piece to come brings out the parcel as it was accepted**, in whatever order they came,
since the map of fragments is read in the order of its keys.

All fragments that a sender makes are reliable, so no assembly is ever thrown out to make room, and
a fragment finds room exactly if its assembly was started or another one fits.
-/

set_option autoImplicit false

namespace DatagramTransport

namespace Receiver

/-! ## One assembly

What was taken in of a parcel is a predicate on its pieces, and `Gathers` says that an assembly is
what this makes it. In which order the pieces came is not part of it and need not be. The fragments
are a map, so with all pieces there its entries are the pieces of the parcel in their order; and an
assembly is complete when it has as many entries as were announced, which is right because each of
them is a piece of this parcel. -/

namespace Assembly

variable {a : Assembly} {p : Parcel} {has : Nat → Prop} {i j : Nat}

/-- The assembly holds those pieces of a parcel that are there. -/
structure Gathers (a : Assembly) (p : Parcel) (has : Nat → Prop) : Prop where
  isReliable_eq : a.isReliable = true
  count_eq : a.count = UInt32.ofNat p.pieces.length
  head_eq : has 0 → a.head = some { p.message 0 [] with fragment := none }
  present : ∀ i (h : i < p.pieces.length), has i →
    a.fragments[UInt32.ofNat i]? = some p.pieces[i]
  absent : ∀ k ∈ a.fragments, ∃ i < p.pieces.length, has i ∧ k = UInt32.ofNat i

theorem ofNat_inj_of_lt (hi : i < 4294967296) (hj : j < 4294967296)
    (h : UInt32.ofNat i = UInt32.ofNat j) : i = j := by
  have := congrArg UInt32.toNat h
  rwa [UInt32.toNat_ofNat_of_lt' hi, UInt32.toNat_ofNat_of_lt' hj] at this

theorem ofNat_lt_ofNat (hij : i < j) (hj : j < 4294967296) : UInt32.ofNat i < UInt32.ofNat j := by
  rwa [UInt32.lt_iff_toNat_lt, UInt32.toNat_ofNat_of_lt' (Nat.lt_trans hij hj),
    UInt32.toNat_ofNat_of_lt' hj]

theorem gathers_fresh (hnone : ∀ i < p.pieces.length, ¬ has i) :
    (fresh true (UInt32.ofNat p.pieces.length)).Gathers p has where
  isReliable_eq := rfl
  count_eq := rfl
  head_eq := fun h => absurd h (hnone 0 p.length_pos)
  present := fun i hi h => absurd h (hnone i hi)
  absent := fun k hk => by simp [fresh] at hk

theorem Gathers.congr {has' : Nat → Prop} (h : a.Gathers p has)
    (hsame : ∀ i < p.pieces.length, has i ↔ has' i) : a.Gathers p has' where
  isReliable_eq := h.isReliable_eq
  count_eq := h.count_eq
  head_eq := fun hzero => h.head_eq ((hsame 0 p.length_pos).2 hzero)
  present := fun i hi hhas => h.present i hi ((hsame i hi).2 hhas)
  absent := by
    intro k hk
    obtain ⟨i, hi, hhas, heq⟩ := h.absent k hk
    exact ⟨i, hi, (hsame i hi).1 hhas, heq⟩

theorem Gathers.has_iff (h : a.Gathers p has) (hlength : p.pieces.length < 4294967296)
    (hi : i < p.pieces.length) : a.has (UInt32.ofNat i) = true ↔ has i := by
  unfold Assembly.has
  rw [Std.TreeMap.contains_iff_mem]
  constructor
  · intro hmem
    obtain ⟨j, hj, hhas, heq⟩ := h.absent _ hmem
    rwa [ofNat_inj_of_lt (by omega) (by omega) heq]
  · intro hhas
    rw [Std.TreeMap.mem_iff_isSome_getElem?, h.present i hi hhas]
    rfl

theorem Gathers.put (h : a.Gathers p has) (hlength : p.pieces.length < 4294967296)
    (hi : i < p.pieces.length) :
    (a.put (UInt32.ofNat i) (p.message i p.pieces[i])).Gathers p (fun j => has j ∨ j = i) where
  isReliable_eq := h.isReliable_eq
  count_eq := h.count_eq
  head_eq := by
    intro hzero
    rcases Nat.eq_zero_or_pos i with rfl | hpos
    · simp only [Assembly.put]
      rfl
    · have hne : UInt32.ofNat i ≠ 0 := by
        intro heq
        have := ofNat_inj_of_lt (j := 0) (by omega) (by omega) heq
        omega
      have hhas : has 0 := hzero.resolve_right (by omega)
      simp only [Assembly.put, hne, if_false]
      exact h.head_eq hhas
  present := by
    intro j hj hhas
    simp only [Assembly.put]
    rw [Std.TreeMap.getElem?_insert]
    by_cases hij : i = j
    · subst hij
      rw [if_pos (Std.LawfulEqCmp.compare_eq_iff_eq.2 rfl)]
      rfl
    · have hne : UInt32.ofNat i ≠ UInt32.ofNat j := fun heq =>
        hij (ofNat_inj_of_lt (by omega) (by omega) heq)
      rw [if_neg (fun hcmp => hne (Std.LawfulEqCmp.compare_eq_iff_eq.1 hcmp))]
      exact h.present j hj (hhas.resolve_right fun heq => hij heq.symm)
  absent := by
    intro k hk
    rcases Std.TreeMap.mem_insert.1 hk with hcmp | hmem
    · exact ⟨i, hi, Or.inr rfl, (Std.LawfulEqCmp.compare_eq_iff_eq.1 hcmp).symm⟩
    · obtain ⟨j, hj, hhas, heq⟩ := h.absent k hmem
      exact ⟨j, hj, Or.inl hhas, heq⟩

theorem Gathers.toList_eq (h : a.Gathers p has) (hlength : p.pieces.length < 4294967296)
    (hall : ∀ i < p.pieces.length, has i) :
    a.fragments.toList = p.pieces.mapIdx fun i piece => (UInt32.ofNat i, piece) := by
  -- both lists ascend strictly by their keys and have the same members
  let R : UInt32 × Octets → UInt32 × Octets → Prop := fun x y => x.1 < y.1
  have hanti : Std.Antisymm R := ⟨fun x y hxy hyx => absurd hyx (UInt32.lt_asymm hxy)⟩
  have hirrefl : Std.Irrefl R := ⟨fun x => UInt32.lt_irrefl x.1⟩
  have hkeys : a.fragments.toList.Pairwise R :=
    Std.TreeMap.ordered_keys_toList.imp fun hlt => Std.compare_eq_lt.1 hlt
  have hpieces : (p.pieces.mapIdx fun i piece => (UInt32.ofNat i, piece)).Pairwise R := by
    rw [List.pairwise_iff_getElem]
    intro i j hi hj hij
    rw [List.length_mapIdx] at hi hj
    simp only [R, List.getElem_mapIdx]
    exact ofNat_lt_ofNat hij (Nat.lt_trans hj hlength)
  refine hkeys.eq_of_mem_iff hpieces fun ⟨k, x⟩ => ?_
  rw [Std.TreeMap.mem_toList_iff_getElem?_eq_some, List.mem_mapIdx]
  constructor
  · intro hget
    have hmem : k ∈ a.fragments := by
      rw [Std.TreeMap.mem_iff_isSome_getElem?, hget]
      rfl
    obtain ⟨i, hi, hhas, rfl⟩ := h.absent k hmem
    rw [h.present i hi hhas, Option.some.injEq] at hget
    exact ⟨i, hi, by rw [hget]⟩
  · rintro ⟨i, hi, heq⟩
    rw [Prod.mk.injEq] at heq
    rw [← heq.1, ← heq.2]
    exact h.present i hi (hall i hi)

theorem Gathers.isComplete_iff (h : a.Gathers p has) (hlength : p.pieces.length < 4294967296) :
    a.isComplete = true ↔ ∀ i < p.pieces.length, has i := by
  have hcount : a.count.toNat = p.pieces.length := by
    rw [h.count_eq, UInt32.toNat_ofNat_of_lt' hlength]
  unfold isComplete
  rw [decide_eq_true_eq, hcount]
  constructor
  · intro hsize i hi
    by_contra hmissing
    -- the keys are among those of the other pieces, which are too few
    have hsubset : a.fragments.keys
        ⊆ ((List.range p.pieces.length).erase i).map UInt32.ofNat := by
      intro k hk
      obtain ⟨j, hj, hhas, rfl⟩ := h.absent k (Std.TreeMap.mem_of_mem_keys hk)
      refine List.mem_map_of_mem ((List.mem_erase_of_ne fun heq => hmissing ?_).2
        (List.mem_range.2 hj))
      rwa [← heq]
    have hle := Std.TreeMap.nodup_keys.length_le_of_subset hsubset
    rw [Std.TreeMap.length_keys, List.length_map,
      List.length_erase_of_mem (List.mem_range.2 hi), List.length_range] at hle
    omega
  · intro hall
    rw [← Std.TreeMap.length_toList, h.toList_eq hlength hall, List.length_mapIdx]

/-- **With every piece there, the message is the parcel as it was accepted.** -/
theorem Gathers.message? (h : a.Gathers p has) (hlength : p.pieces.length < 4294967296)
    (hall : ∀ i < p.pieces.length, has i) : a.message? = some p.whole := by
  have hflat : ∀ (n : Nat) (pieces : List Octets),
      (pieces.mapIdx fun i piece => (UInt32.ofNat (n + i), piece)).flatMap Prod.snd
        = pieces.flatten := by
    intro n pieces
    induction pieces generalizing n with
    | nil => rfl
    | cons piece pieces ih =>
      have := ih (n + 1)
      simp only [List.mapIdx_cons, List.flatMap_cons, List.flatten_cons, Nat.add_assoc,
        Nat.add_comm 1] at this ⊢
      rw [this]
  have hpayload := hflat 0 p.pieces
  simp only [Nat.zero_add] at hpayload
  rw [Assembly.message?, h.head_eq (hall 0 p.length_pos), h.toList_eq hlength hall, hpayload]
  rfl

end Assembly

/-! ## All assemblies

Which assemblies there are is determined by what was taken in, too: those of the parcels that are
open. A parcel of which nothing has come has none yet, one that is complete has none any more, and
one that is too long never has any. -/

namespace Assembler

variable {a : Assembler} {ps : List Parcel} {p : Parcel} {has : Nat → Prop} {i : Nat}

/-- Some of the parcel is there, some of it is missing, and it is not too long. -/
structure Open (p : Parcel) (maxFragmentCount : Nat) (has : Nat → Prop) : Prop where
  isSplit : p.isSplit = true
  fits : p.pieces.length ≤ maxFragmentCount
  started : ∃ i < p.pieces.length, has (p.first + i)
  missing : ∃ i < p.pieces.length, ¬ has (p.first + i)

theorem Open.congr {has' : Nat → Prop} {maxFragmentCount : Nat}
    (hopen : Open p maxFragmentCount has)
    (hsame : ∀ i < p.pieces.length, has (p.first + i) ↔ has' (p.first + i)) :
    Open p maxFragmentCount has' where
  isSplit := hopen.isSplit
  fits := hopen.fits
  started := by
    obtain ⟨i, hi, hhas⟩ := hopen.started
    exact ⟨i, hi, (hsame i hi).1 hhas⟩
  missing := by
    obtain ⟨i, hi, hmissing⟩ := hopen.missing
    exact ⟨i, hi, fun hhas => hmissing ((hsame i hi).2 hhas)⟩

/-- There is an assembly for each open parcel and for nothing else. -/
structure Collects (a : Assembler) (ps : List Parcel) (has : Nat → Prop) : Prop where
  gathered : ∀ p ∈ ps, Open p a.maxFragmentCount has → ∃ assembly,
    a.assemblies[UInt16.ofNat p.cut]? = some assembly ∧
      assembly.Gathers p (fun i => has (p.first + i))
  only : ∀ id ∈ a.assemblies, ∃ p ∈ ps, Open p a.maxFragmentCount has ∧ id = UInt16.ofNat p.cut

theorem collects_fresh (maxFragmentCount maxAssemblies : Nat) (hnone : ∀ k, ¬ has k) :
    (fresh maxFragmentCount maxAssemblies).Collects ps has where
  gathered := fun _ _ hopen => absurd hopen.started.choose_spec.2 (hnone _)
  only := fun id hid => by simp [fresh] at hid

theorem Collects.congr {has' : Nat → Prop} (h : a.Collects ps has)
    (hsame : ∀ q ∈ ps, q.isSplit = true → q.pieces.length ≤ a.maxFragmentCount →
      ∀ j < q.pieces.length, has (q.first + j) ↔ has' (q.first + j)) : a.Collects ps has' where
  gathered := by
    intro q hq hopen
    have hsame' := hsame q hq hopen.isSplit hopen.fits
    obtain ⟨assembly, hget, hgathers⟩ :=
      h.gathered q hq (hopen.congr fun j hj => (hsame' j hj).symm)
    exact ⟨assembly, hget, hgathers.congr hsame'⟩
  only := by
    intro id hid
    obtain ⟨q, hq, hopen, heq⟩ := h.only id hid
    exact ⟨q, hq, hopen.congr (hsame q hq hopen.isSplit hopen.fits), heq⟩

theorem Collects.isReliable (h : a.Collects ps has) {id : UInt16} {assembly : Assembly}
    (hget : a.assemblies[id]? = some assembly) : assembly.isReliable = true := by
  have hmem : id ∈ a.assemblies := by
    rw [Std.TreeMap.mem_iff_isSome_getElem?, hget]
    rfl
  obtain ⟨p, hp, hopen, rfl⟩ := h.only id hmem
  obtain ⟨assembly', hget', hgathers⟩ := h.gathered p hp hopen
  rw [hget, Option.some.injEq] at hget'
  rw [hget']
  exact hgathers.isReliable_eq

/-- Nothing is ever thrown out. -/
theorem Collects.dispensable (h : a.Collects ps has) : a.dispensable = [] := by
  unfold Assembler.dispensable
  rw [List.map_eq_nil_iff, List.filter_eq_nil_iff]
  rintro ⟨id, assembly⟩ hmem
  have hget := Std.TreeMap.mem_toList_iff_getElem?_eq_some.1 hmem
  simp [h.isReliable hget]

theorem Collects.makeRoom (h : a.Collects ps has) : a.makeRoom = a := by
  unfold Assembler.makeRoom
  split
  · rfl
  · simp only [h.dispensable, List.take_nil, List.foldl_nil]

/-- A fragment is accepted if its assembly was started or another one fits. -/
theorem Collects.accepts_iff (h : a.Collects ps has) {m : Message} {mark : FragmentMark}
    (hmark : m.fragment = some mark) (hreliable : m.reliability.isReliable = true) :
    a.accepts m = true ↔ mark.id ∈ a.assemblies ∨ a.hasRoom = true := by
  unfold accepts
  rw [hmark, h.dispensable]
  simp [hreliable, ← Std.TreeMap.contains_iff_mem]

/-- The assemblies are those of other parcels, or there is one for the fragment: there is room for
it if all parcels have room at once. -/
theorem Collects.accepts_of_few (h : a.Collects ps has) (hp : p ∈ ps) (hs : p.isSplit = true)
    (hfew : ps.length ≤ a.maxAssemblies) (i : Nat) (x : Octets) :
    a.accepts (p.message i x) = true := by
  refine (h.accepts_iff (Parcel.fragment_message hs i x) (Parcel.isReliable_of_isSplit hs)).2 ?_
  refine Classical.or_iff_not_imp_left.2 fun hnot => ?_
  have hsubset : a.assemblies.keys ⊆ (ps.erase p).map fun q => UInt16.ofNat q.cut := by
    intro id hid
    have hmem := Std.TreeMap.mem_of_mem_keys hid
    obtain ⟨q, hq, -, rfl⟩ := h.only id hmem
    have hne : q ≠ p := by
      rintro rfl
      exact hnot hmem
    exact List.mem_map_of_mem ((List.mem_erase_of_ne hne).2 hq)
  have hle := Std.TreeMap.nodup_keys.length_le_of_subset hsubset
  have hpos := List.length_pos_of_mem hp
  rw [Std.TreeMap.length_keys, List.length_map, List.length_erase_of_mem hp] at hle
  exact decide_eq_true (by omega)

theorem accepts_of_not_fragment {m : Message} (hmark : m.fragment = none) :
    a.accepts m = true := by
  unfold accepts
  rw [hmark]

/-! ## Taking in a fragment

First the assembly is found or started, then the fragment is put into it. Two facts from the layout
are needed to tell what is the same afterwards, and both are hypotheses here. That no other open
parcel has the number (`alone`) means that the assembly found is that of the parcel; that no other
parcel has the index (`apart`) means that no other parcel has more pieces than before. -/

/-- An assembly is there or is started. Nothing else changes. -/
theorem Collects.start (h : a.Collects ps has) (hp : p ∈ ps) (hs : p.isSplit = true)
    (hfits : p.pieces.length ≤ a.maxFragmentCount) (hi : i < p.pieces.length)
    (hnew : ¬ has (p.first + i)) {m : Message} {mark : FragmentMark}
    (hid : mark.id = UInt16.ofNat p.cut) (hcount : mark.count = UInt32.ofNat p.pieces.length)
    (hreliable : m.reliability.isReliable = true)
    (hroom : mark.id ∈ a.assemblies ∨ a.hasRoom = true)
    (alone : ∀ q ∈ ps, Open q a.maxFragmentCount has →
      UInt16.ofNat q.cut = UInt16.ofNat p.cut → q = p) :
    ∃ assembly a', a.start m mark = (some assembly, a') ∧
      assembly.Gathers p (fun i => has (p.first + i)) ∧
      a'.maxFragmentCount = a.maxFragmentCount ∧ a'.maxAssemblies = a.maxAssemblies ∧
      ∀ id, id ≠ mark.id → a'.assemblies[id]? = a.assemblies[id]? := by
  unfold Assembler.start
  cases hget : a.assemblies[mark.id]? with
  | some assembly =>
    have hmem : mark.id ∈ a.assemblies := by
      rw [Std.TreeMap.mem_iff_isSome_getElem?, hget]
      rfl
    obtain ⟨q, hq, hopen, hqid⟩ := h.only _ hmem
    obtain rfl := alone q hq hopen (by rw [← hqid, hid])
    obtain ⟨assembly', hget', hgathers⟩ := h.gathered q hq hopen
    rw [← hqid, hget, Option.some.injEq] at hget'
    exact ⟨assembly, a, rfl, by rwa [hget'], rfl, rfl, fun id _ => rfl⟩
  | none =>
    have hnot : mark.id ∉ a.assemblies := by
      rw [Std.TreeMap.mem_iff_isSome_getElem?, hget]
      exact Bool.false_ne_true
    have hnone : ∀ j < p.pieces.length, ¬ has (p.first + j) := by
      intro j hj hhas
      obtain ⟨assembly, hget', -⟩ := h.gathered p hp ⟨hs, hfits, ⟨j, hj, hhas⟩, ⟨i, hi, hnew⟩⟩
      rw [← hid, hget] at hget'
      cases hget'
    -- nothing has to go, so the new assembly is put beside the others
    simp only [h.makeRoom, hroom.resolve_left hnot, if_true, hreliable, hcount]
    refine ⟨_, _, rfl, Assembly.gathers_fresh hnone, rfl, rfl, fun id hne => ?_⟩
    rw [Std.TreeMap.getElem?_insert,
      if_neg fun hcmp => hne (Std.LawfulEqCmp.compare_eq_iff_eq.1 hcmp).symm]

/-- A fragment that is not there yet is put into its assembly, which goes away if that completes
it. -/
theorem join_gathers {assembly : Assembly} (h : assembly.Gathers p (fun i => has (p.first + i)))
    (hlength : p.pieces.length < 4294967296) (hi : i < p.pieces.length)
    (hnew : ¬ has (p.first + i)) (mark : FragmentMark) (hindex : mark.index = UInt32.ofNat i) :
    ((∀ j < p.pieces.length, has (p.first + j) ∨ j = i) ∧
        a.join (p.message i p.pieces[i]) mark assembly
          = (some p.whole, { a with assemblies := a.assemblies.erase mark.id })) ∨
      ((∃ j < p.pieces.length, ¬ (has (p.first + j) ∨ j = i)) ∧
        ∃ assembly', assembly'.Gathers p (fun j => has (p.first + j) ∨ j = i) ∧
          a.join (p.message i p.pieces[i]) mark assembly
            = (none, { a with assemblies := a.assemblies.insert mark.id assembly' })) := by
  have hput := h.put hlength hi
  have hnot : ¬ assembly.has (UInt32.ofNat i) = true := fun hhas =>
    hnew ((h.has_iff hlength hi).1 hhas)
  unfold Assembler.join
  simp only [hindex, if_neg hnot]
  by_cases hall : ∀ j < p.pieces.length, has (p.first + j) ∨ j = i
  · refine Or.inl ⟨hall, ?_⟩
    rw [if_pos ((hput.isComplete_iff hlength).2 hall), hput.message? hlength hall]
  · refine Or.inr ⟨by simpa only [not_forall, exists_prop] using hall, _, hput, ?_⟩
    rw [if_neg fun hcomplete => hall ((hput.isComplete_iff hlength).1 hcomplete)]

theorem take_message {p : Parcel} (hs : p.isSplit = true) (a : Assembler) (i : Nat)
    (piece : Octets) : a.take (p.message i piece) = a.takeFragment (p.message i piece)
      ⟨UInt32.ofNat p.pieces.length, UInt16.ofNat p.cut, UInt32.ofNat i⟩ := by
  have hmark : (p.message i piece).fragment
      = some ⟨UInt32.ofNat p.pieces.length, UInt16.ofNat p.cut, UInt32.ofNat i⟩ := if_pos hs
  unfold Assembler.take
  rw [hmark]

/-- A parcel in too many pieces is malformed, and nothing is kept of it. -/
theorem take_of_not_fits (hs : p.isSplit = true) (hlength : p.pieces.length < 4294967296)
    (hi : i < p.pieces.length) (hfits : ¬ p.pieces.length ≤ a.maxFragmentCount) :
    ∃ cause, a.take (p.message i p.pieces[i]) = (.error cause, a) := by
  have hcount : (UInt32.ofNat p.pieces.length).toNat = p.pieces.length :=
    UInt32.toNat_ofNat_of_lt' hlength
  rw [take_message hs]
  unfold takeFragment
  simp only [if_neg (UInt32.not_le.2 (Assembly.ofNat_lt_ofNat hi hlength)), hcount]
  rw [if_pos (by omega)]
  exact ⟨_, rfl⟩

/-- A fragment that passes the checks goes into its assembly. -/
theorem take_of_fits (hs : p.isSplit = true) (hlength : p.pieces.length < 4294967296)
    (hi : i < p.pieces.length) (hfits : p.pieces.length ≤ a.maxFragmentCount) {mark : FragmentMark}
    (hmark : (p.message i p.pieces[i]).fragment = some mark) {assembly : Assembly} {a' : Assembler}
    (hstart : a.start (p.message i p.pieces[i]) mark = (some assembly, a'))
    (hcount : assembly.count = UInt32.ofNat p.pieces.length) :
    a.take (p.message i p.pieces[i])
      = (.ok (a'.join (p.message i p.pieces[i]) mark assembly).1,
          (a'.join (p.message i p.pieces[i]) mark assembly).2) := by
  rw [Parcel.fragment_message hs, Option.some.injEq] at hmark
  subst hmark
  rw [take_message hs]
  unfold takeFragment
  simp only [if_neg (UInt32.not_le.2 (Assembly.ofNat_lt_ofNat hi hlength)),
    UInt32.toNat_ofNat_of_lt' hlength, if_neg (Nat.not_lt.2 hfits), hstart, hcount, if_true]

theorem Collects.replace {a' : Assembler} (h : a.Collects ps has) (hp : p ∈ ps)
    (hs : p.isSplit = true) (hfits : p.pieces.length ≤ a.maxFragmentCount)
    (hi : i < p.pieces.length)
    (alone : ∀ q ∈ ps, Open q a.maxFragmentCount has →
      UInt16.ofNat q.cut = UInt16.ofNat p.cut → q = p)
    (apart : ∀ q ∈ ps, q.isSplit = true → q ≠ p → ∀ j < q.pieces.length,
      q.first + j ≠ p.first + i)
    (hmax : a'.maxFragmentCount = a.maxFragmentCount)
    (helse : ∀ id, id ≠ UInt16.ofNat p.cut → a'.assemblies[id]? = a.assemblies[id]?)
    (hdone : (∀ j < p.pieces.length, has (p.first + j) ∨ p.first + j = p.first + i) →
      a'.assemblies[UInt16.ofNat p.cut]? = none)
    (hopen : (∃ j < p.pieces.length, ¬ (has (p.first + j) ∨ p.first + j = p.first + i)) →
      ∃ assembly, a'.assemblies[UInt16.ofNat p.cut]? = some assembly ∧
        assembly.Gathers p (fun j => has (p.first + j) ∨ p.first + j = p.first + i)) :
    a'.Collects ps (fun k => has k ∨ k = p.first + i) := by
  -- another parcel keeps what it has, since its indexes are others
  have hsame : ∀ q ∈ ps, q.isSplit = true → q ≠ p → ∀ j < q.pieces.length,
      ((has (q.first + j) ∨ q.first + j = p.first + i) ↔ has (q.first + j)) :=
    fun q hq hqs hne j hj => or_iff_left (apart q hq hqs hne j hj)
  constructor
  · intro q hq hqopen
    rw [hmax] at hqopen
    by_cases hqp : q = p
    · subst hqp
      exact hopen hqopen.missing
    · have hsame' := hsame q hq hqopen.isSplit hqp
      have hqopen' := hqopen.congr hsame'
      obtain ⟨assembly, hget, hgathers⟩ := h.gathered q hq hqopen'
      refine ⟨assembly, ?_, hgathers.congr fun j hj => (hsame' j hj).symm⟩
      rw [helse _ fun hid => hqp (alone q hq hqopen' hid), hget]
  · intro id hid
    rw [hmax]
    by_cases hidp : id = UInt16.ofNat p.cut
    · refine ⟨p, hp, ⟨hs, hfits, ⟨i, hi, Or.inr rfl⟩, ?_⟩, hidp⟩
      by_contra hnone
      have hall : ∀ j < p.pieces.length, has (p.first + j) ∨ p.first + j = p.first + i :=
        fun j hj => by_contra fun hmissing => hnone ⟨j, hj, hmissing⟩
      rw [hidp, Std.TreeMap.mem_iff_isSome_getElem?, hdone hall] at hid
      exact Bool.false_ne_true hid
    · rw [Std.TreeMap.mem_iff_isSome_getElem?, helse id hidp,
        ← Std.TreeMap.mem_iff_isSome_getElem?] at hid
      obtain ⟨q, hq, hqopen, rfl⟩ := h.only id hid
      have hqp : q ≠ p := fun heq => hidp (by rw [heq])
      exact ⟨q, hq, hqopen.congr fun j hj => (hsame q hq hqopen.isSplit hqp j hj).symm, rfl⟩

/-- **A fragment that was not there is collected, and the last one brings out the parcel.** -/
theorem Collects.take (h : a.Collects ps has) (hp : p ∈ ps) (hs : p.isSplit = true)
    (hfits : p.pieces.length ≤ a.maxFragmentCount) (hlength : p.pieces.length < 4294967296)
    (hi : i < p.pieces.length) (hnew : ¬ has (p.first + i))
    (hroom : a.accepts (p.message i p.pieces[i]) = true)
    (alone : ∀ q ∈ ps, Open q a.maxFragmentCount has →
      UInt16.ofNat q.cut = UInt16.ofNat p.cut → q = p)
    (apart : ∀ q ∈ ps, q.isSplit = true → q ≠ p → ∀ j < q.pieces.length,
      q.first + j ≠ p.first + i) :
    ∃ result a', a.take (p.message i p.pieces[i]) = (.ok result, a') ∧
      a'.maxFragmentCount = a.maxFragmentCount ∧ a'.maxAssemblies = a.maxAssemblies ∧
      a'.Collects ps (fun k => has k ∨ k = p.first + i) ∧
      (((∀ j < p.pieces.length, has (p.first + j) ∨ p.first + j = p.first + i) ∧
          result = some p.whole) ∨
        ((∃ j < p.pieces.length, ¬ (has (p.first + j) ∨ p.first + j = p.first + i)) ∧
          result = none)) := by
  have hreliable : (p.message i p.pieces[i]).reliability.isReliable = true :=
    Parcel.isReliable_of_isSplit hs
  let mark : FragmentMark :=
    ⟨UInt32.ofNat p.pieces.length, UInt16.ofNat p.cut, UInt32.ofNat i⟩
  have hmark : (p.message i p.pieces[i]).fragment = some mark := Parcel.fragment_message hs i _
  have hroom' := (h.accepts_iff hmark hreliable).1 hroom
  obtain ⟨assembly, a₁, hstart, hgathers, hmax, hmax', helse⟩ :=
    h.start hp hs hfits hi hnew rfl rfl hreliable hroom' alone
  have hshift : ∀ j, (has (p.first + j) ∨ j = i)
      ↔ (has (p.first + j) ∨ p.first + j = p.first + i) := by
    intro j
    rw [Nat.add_left_cancel_iff]
  rw [take_of_fits hs hlength hi hfits hmark hstart hgathers.count_eq]
  rcases join_gathers (a := a₁) hgathers hlength hi hnew mark rfl with
    ⟨hall, hjoin⟩ | ⟨hsome, assembly', hgathers', hjoin⟩
  · simp only [hshift] at hall
    rw [hjoin]
    refine ⟨_, _, rfl, hmax, hmax', ?_, Or.inl ⟨hall, rfl⟩⟩
    refine h.replace hp hs hfits hi alone apart hmax (fun id hid => ?_) (fun _ => ?_)
      fun ⟨j, hj, hmissing⟩ => absurd (hall j hj) hmissing
    · rw [Std.TreeMap.getElem?_erase,
        if_neg fun hcmp => hid (Std.LawfulEqCmp.compare_eq_iff_eq.1 hcmp).symm, helse id hid]
    · exact Std.TreeMap.getElem?_erase_self
  · simp only [hshift] at hsome hgathers'
    rw [hjoin]
    refine ⟨_, _, rfl, hmax, hmax', ?_, Or.inr ⟨hsome, rfl⟩⟩
    refine h.replace hp hs hfits hi alone apart hmax (fun id hid => ?_) (fun hall => ?_)
      fun _ => ⟨assembly', Std.TreeMap.getElem?_insert_self, hgathers'⟩
    · rw [Std.TreeMap.getElem?_insert,
        if_neg fun hcmp => hid (Std.LawfulEqCmp.compare_eq_iff_eq.1 hcmp).symm, helse id hid]
    · obtain ⟨j, hj, hmissing⟩ := hsome
      exact absurd (hall j hj) hmissing

end Assembler

end Receiver

end DatagramTransport

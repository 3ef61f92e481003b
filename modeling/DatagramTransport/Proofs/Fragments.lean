import DatagramTransport.Receiver.Assembler
import Mathlib.Data.List.Basic

/-!
# Fragments — all that an assembler can do with one

A peer may send fragments in any order, with any numbers and as often as it likes. Whatever it
sends, a fragment is refused, or was there before, or completes its assembly, or is kept in it.
**One assembly at most has changed after that**, by what was put into it; others may have been thrown
out, and none was made but with a fragment in it.
-/

set_option autoImplicit false

namespace DatagramTransport

namespace Receiver

namespace Assembler

variable {a a' : Assembler} {m : Message} {mark : FragmentMark} {assembly : Assembly}

/-- What is there now was there before and has not changed. -/
structure Remains (a a' : Assembler) : Prop where
  getElem? : ∀ (id : UInt16) (assembly : Assembly),
    a'.assemblies[id]? = some assembly → a.assemblies[id]? = some assembly
  maxFragmentCount_eq : a'.maxFragmentCount = a.maxFragmentCount
  maxAssemblies_eq : a'.maxAssemblies = a.maxAssemblies

theorem Remains.refl (a : Assembler) : a.Remains a := ⟨fun _ _ hget => hget, rfl, rfl⟩

theorem getElem?_erase_eq_some {α : Type} {tree : Std.TreeMap UInt16 α} {id id' : UInt16} {v : α}
    (h : (tree.erase id)[id']? = some v) : id' ≠ id ∧ tree[id']? = some v := by
  rw [Std.TreeMap.getElem?_erase] at h
  split at h
  · cases h
  · rename_i hcmp
    exact ⟨fun heq => hcmp (heq ▸ Std.LawfulEqCmp.compare_eq_iff_eq.2 rfl), h⟩

/-- Making room takes assemblies away and leaves the others as they are. -/
theorem remains_makeRoom (a : Assembler) : a.Remains a.makeRoom := by
  have herase : ∀ (ids : List UInt16) (tree : Std.TreeMap UInt16 Assembly) (id : UInt16)
      (assembly : Assembly), (ids.foldl (·.erase ·) tree)[id]? = some assembly →
        tree[id]? = some assembly := by
    intro ids
    induction ids with
    | nil => exact fun _ _ _ hget => hget
    | cons id' ids ih => exact fun tree id assembly hget =>
        (getElem?_erase_eq_some (ih _ id assembly hget)).2
  unfold makeRoom
  split
  · exact Remains.refl a
  · exact ⟨fun id assembly hget => herase _ _ id assembly hget, rfl, rfl⟩

/-- The assembly that a fragment is put into was there, or it is new. -/
structure Joins (a : Assembler) (m : Message) (mark : FragmentMark) (assembly : Assembly) :
    Prop where
  origin : a.assemblies[mark.id]? = some assembly ∨
    assembly = Assembly.fresh m.reliability.isReliable mark.count
  count_eq : assembly.count = mark.count
  index_lt : mark.index < mark.count
  count_le : mark.count.toNat ≤ a.maxFragmentCount
  isNew : assembly.has mark.index = false

/-- The head of an assembly is what it was, or the first fragment that was put into it. -/
theorem Joins.mem_head_put (joins : a.Joins m mark assembly) {head : Message}
    (hhead : head ∈ (assembly.put mark.index m).head) :
    (mark.index = 0 ∧ head = { m with fragment := none, payload := [] }) ∨
      (a.assemblies[mark.id]? = some assembly ∧ head ∈ assembly.head) := by
  simp only [Assembly.put] at hhead
  split at hhead
  next hzero => exact Or.inl ⟨hzero, (Option.some.inj hhead).symm⟩
  next =>
    rcases joins.origin with hget | rfl
    · exact Or.inr ⟨hget, hhead⟩
    · cases hhead

/-- What becomes of a fragment, and of the assemblies. -/
inductive Takes (a : Assembler) (m : Message) (mark : FragmentMark) :
    Except Malformation (Option Message) → Assembler → Prop
  | refused {cause : Malformation} {a' : Assembler} (remains : a.Remains a') :
    Takes a m mark (.error cause) a'
  | repeated {assembly : Assembly} (there : a.assemblies[mark.id]? = some assembly)
    (count_eq : assembly.count = mark.count) : Takes a m mark (.ok none) a
  | completed {assembly : Assembly} {a' : Assembler} (joins : a.Joins m mark assembly)
    (complete : (assembly.put mark.index m).isComplete = true) (remains : a.Remains a') :
    Takes a m mark (.ok (assembly.put mark.index m).message?) a'
  | kept {assembly : Assembly} {a₁ a' : Assembler} (joins : a.Joins m mark assembly)
    (incomplete : (assembly.put mark.index m).isComplete = false) (remains : a.Remains a₁)
    (getElem?_eq : ∀ id : UInt16, a'.assemblies[id]?
      = if id = mark.id then some (assembly.put mark.index m) else a₁.assemblies[id]?)
    (maxFragmentCount_eq : a'.maxFragmentCount = a.maxFragmentCount)
    (maxAssemblies_eq : a'.maxAssemblies = a.maxAssemblies) : Takes a m mark (.ok none) a'

theorem Joins.takes {a₁ a₂ : Assembler} (joins : a.Joins m mark assembly) (remains : a.Remains a₁)
    (hothers : ∀ id : UInt16, id ≠ mark.id → a₂.assemblies[id]? = a₁.assemblies[id]?)
    (hcount : a₂.maxFragmentCount = a.maxFragmentCount)
    (hassemblies : a₂.maxAssemblies = a.maxAssemblies) :
    Takes a m mark (.ok (a₂.join m mark assembly).1) (a₂.join m mark assembly).2 := by
  unfold join
  simp only [joins.isNew, Bool.false_eq_true, if_false]
  cases hcomplete : (assembly.put mark.index m).isComplete with
  | true =>
    refine .completed joins hcomplete ⟨fun id assembly' hget => ?_, hcount, hassemblies⟩
    obtain ⟨hne, hget⟩ := getElem?_erase_eq_some hget
    exact remains.getElem? id assembly' (hothers id hne ▸ hget)
  | false =>
    refine .kept joins hcomplete remains (fun id => ?_) hcount hassemblies
    simp only [Bool.false_eq_true, if_false, Std.TreeMap.getElem?_insert,
      Std.LawfulEqCmp.compare_eq_iff_eq, eq_comm (a := mark.id)]
    split
    · rfl
    · rename_i hne
      exact hothers id hne

/-- **A fragment is refused, repeated, the last one missing, or kept.** -/
theorem takes_takeFragment (a : Assembler) (m : Message) (mark : FragmentMark) :
    Takes a m mark (a.takeFragment m mark).1 (a.takeFragment m mark).2 := by
  unfold takeFragment
  split
  · exact .refused (Remains.refl a)
  next hinside =>
    split
    · exact .refused (Remains.refl a)
    next hfew =>
      have hindex := UInt32.not_le.1 hinside
      have hcount := Nat.not_lt.1 hfew
      unfold start
      cases hget : a.assemblies[mark.id]? with
      | some assembly =>
        simp only
        split
        next heq =>
          cases hhas : assembly.has mark.index with
          | true =>
            simp only [join, hhas, if_true]
            exact .repeated hget heq
          | false =>
            exact Joins.takes ⟨Or.inl hget, heq, hindex, hcount, hhas⟩ (Remains.refl a)
              (fun _ _ => rfl) rfl rfl
        next => exact .refused (Remains.refl a)
      | none =>
        have hremains := remains_makeRoom a
        simp only
        split
        next hroom =>
          split at hroom
          · cases hroom
          · cases hroom
            exact .refused hremains
        next assembly a₂ hroom =>
          split at hroom
          · cases hroom
            simp only [Assembly.fresh, if_true]
            refine Joins.takes ⟨Or.inr rfl, rfl, hindex, hcount, ?_⟩ hremains
              (fun id hne => ?_) hremains.maxFragmentCount_eq hremains.maxAssemblies_eq
            · simp [Assembly.has]
            · rw [Std.TreeMap.getElem?_insert, if_neg]
              exact fun hcmp => hne (Std.LawfulEqCmp.compare_eq_iff_eq.1 hcmp).symm
          · cases hroom

/-! ## How many there are -/

theorem size_makeRoom_le (a : Assembler) : a.makeRoom.assemblies.size ≤ a.assemblies.size := by
  have herase : ∀ (ids : List UInt16) (tree : Std.TreeMap UInt16 Assembly),
      (ids.foldl (·.erase ·) tree).size ≤ tree.size := by
    intro ids
    induction ids with
    | nil => exact fun _ => Nat.le_refl _
    | cons id ids ih => exact fun tree => Nat.le_trans (ih _) Std.TreeMap.size_erase_le
  unfold makeRoom
  split
  · exact Nat.le_refl _
  · exact herase _ _

theorem size_start_le (h : a.assemblies.size ≤ a.maxAssemblies) (m : Message)
    (mark : FragmentMark) : (a.start m mark).2.assemblies.size ≤ a.maxAssemblies ∧
      ((a.start m mark).1.isSome = true → mark.id ∈ (a.start m mark).2.assemblies) := by
  unfold start
  cases hget : a.assemblies[mark.id]? with
  | some assembly =>
    exact ⟨h, fun _ => Std.TreeMap.mem_iff_isSome_getElem?.2 (by rw [hget]; rfl)⟩
  | none =>
    simp only
    split
    next hroom =>
      refine ⟨Nat.le_trans Std.TreeMap.size_insert_le ?_, fun _ => Std.TreeMap.mem_insert_self⟩
      rw [← a.remains_makeRoom.maxAssemblies_eq]
      exact of_decide_eq_true hroom
    next => exact ⟨Nat.le_trans a.size_makeRoom_le h, fun hsome => nomatch hsome⟩

theorem size_join_le (hthere : mark.id ∈ a.assemblies) (m : Message) (assembly : Assembly) :
    (a.join m mark assembly).2.assemblies.size ≤ a.assemblies.size := by
  unfold join
  split
  · exact Nat.le_refl _
  · simp only
    split
    · exact Std.TreeMap.size_erase_le
    · refine Nat.le_of_eq ?_
      rw [Std.TreeMap.size_insert, if_pos (Std.TreeMap.contains_iff_mem.2 hthere)]

/-- There are never more assemblies than are allowed. -/
theorem size_take_le (h : a.assemblies.size ≤ a.maxAssemblies) (m : Message) :
    (a.take m).2.assemblies.size ≤ a.maxAssemblies := by
  unfold take
  cases m.fragment with
  | none => exact h
  | some mark =>
    simp only [takeFragment]
    split
    · exact h
    · split
      · exact h
      · have hstart := size_start_le h m mark
        generalize a.start m mark = started at hstart
        obtain ⟨_ | assembly, a₂⟩ := started
        · exact hstart.1
        · simp only
          split
          · exact Nat.le_trans (size_join_le (hstart.2 rfl) m assembly) hstart.1
          · exact hstart.1

/-! ## Properties of every assembly -/

def Every (P : Assembly → Prop) (a : Assembler) : Prop :=
  ∀ (id : UInt16) (assembly : Assembly), a.assemblies[id]? = some assembly → P assembly

variable {P : Assembly → Prop}

theorem every_fresh (P : Assembly → Prop) (maxFragmentCount maxAssemblies : Nat) :
    (fresh maxFragmentCount maxAssemblies).Every P := by
  intro id assembly hget
  simp [fresh] at hget

theorem Remains.every (h : a.Remains a') (hevery : a.Every P) : a'.Every P :=
  fun id assembly hget => hevery id assembly (h.getElem? id assembly hget)

/-- What holds of every assembly goes on to do so if it holds of one into which a fragment was
put. -/
theorem Every.take (h : a.Every P)
    (hput : ∀ mark ∈ m.fragment, ∀ assembly, a.Joins m mark assembly →
      (assembly.put mark.index m).isComplete = false → (a.take m).1 = .ok none →
        P (assembly.put mark.index m)) : (a.take m).2.Every P := by
  cases hmark : m.fragment with
  | none =>
    unfold Assembler.take
    rw [hmark]
    exact h
  | some mark =>
    have htake : a.take m = a.takeFragment m mark := by
      unfold Assembler.take
      rw [hmark]
    have htakes := takes_takeFragment a m mark
    have hput := hput mark hmark
    rw [htake] at hput ⊢
    generalize a.takeFragment m mark = taken at htakes hput ⊢
    obtain ⟨result, a'⟩ := taken
    cases htakes with
    | refused remains => exact remains.every h
    | repeated => exact h
    | completed joins complete remains => exact remains.every h
    | @kept assembly a₁ a' joins incomplete remains getElem?_eq =>
      intro id assembly' hget
      rw [getElem?_eq] at hget
      split at hget
      · rw [← Option.some.inj hget]
        exact hput assembly joins incomplete rfl
      · exact remains.every h id assembly' hget

/-- A message that is complete is the one that came, or was put together with it as the last one. -/
theorem take_eq_ok_some {whole : Message} (h : (a.take m).1 = .ok (some whole)) :
    (m.fragment = none ∧ whole = m) ∨ ∃ mark ∈ m.fragment, ∃ assembly,
      a.Joins m mark assembly ∧ (assembly.put mark.index m).message? = some whole := by
  cases hmark : m.fragment with
  | none =>
    unfold take at h
    rw [hmark] at h
    cases h
    exact Or.inl ⟨rfl, rfl⟩
  | some mark =>
    have htake : a.take m = a.takeFragment m mark := by
      unfold Assembler.take
      rw [hmark]
    have htakes := takes_takeFragment a m mark
    rw [htake] at h
    generalize a.takeFragment m mark = taken at htakes h
    obtain ⟨result, a'⟩ := taken
    simp only at h
    subst h
    generalize hresult : (Except.ok (some whole) : Except Malformation (Option Message)) = result
      at htakes
    cases htakes with
    | refused | repeated | kept => cases hresult
    | @completed assembly a' joins complete remains =>
      exact Or.inr ⟨mark, rfl, assembly, joins, (Except.ok.inj hresult).symm⟩

theorem limits_take (a : Assembler) (m : Message) :
    (a.take m).2.maxFragmentCount = a.maxFragmentCount ∧
      (a.take m).2.maxAssemblies = a.maxAssemblies := by
  unfold take
  cases m.fragment with
  | none => exact ⟨rfl, rfl⟩
  | some mark =>
    have htakes := takes_takeFragment a m mark
    simp only
    generalize a.takeFragment m mark = taken at htakes ⊢
    obtain ⟨result, a'⟩ := taken
    cases htakes with
    | refused remains => exact ⟨remains.maxFragmentCount_eq, remains.maxAssemblies_eq⟩
    | repeated => exact ⟨rfl, rfl⟩
    | completed joins complete remains =>
      exact ⟨remains.maxFragmentCount_eq, remains.maxAssemblies_eq⟩
    | kept joins incomplete remains getElem?_eq hcount hassemblies => exact ⟨hcount, hassemblies⟩

end Assembler

end Receiver

end DatagramTransport

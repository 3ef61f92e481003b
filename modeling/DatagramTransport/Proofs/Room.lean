import DatagramTransport.Proofs.Bounds

/-!
# Room — what is promised before a fragment is taken in

A receiver asks its assembler whether it has room for a reliable message, notes the number of the
message, and only then hands it over. If the answer was wrong, the message would be acknowledged
and thrown away. **The answer and what is done later agree in every state that can come about**:
what is accepted finds room, and nothing that was started by a reliable fragment is thrown out for
it; what is not accepted would have found none, and would have changed nothing.

That the number of assemblies has not passed the bound is what makes one place enough: whoever
makes room throws out one assembly at most.
-/

set_option autoImplicit false

namespace DatagramTransport

namespace Receiver

namespace Assembler

variable {a : Assembler} {m : Message} {mark : FragmentMark} {id : UInt16} {assembly : Assembly}

/-! ## Making room -/

theorem mem_dispensable :
    id ∈ a.dispensable ↔ ∃ assembly, a.assemblies[id]? = some assembly ∧
      assembly.isReliable = false := by
  simp only [dispensable, List.mem_map, List.mem_filter, Prod.exists, exists_and_right,
    exists_eq_right, Std.TreeMap.mem_toList_iff_getElem?_eq_some, Bool.not_eq_true']

theorem getElem?_foldl_erase (ids : List UInt16) (tree : Std.TreeMap UInt16 Assembly)
    (h : id ∉ ids) : (ids.foldl (·.erase ·) tree)[id]? = tree[id]? := by
  induction ids generalizing tree with
  | nil => rfl
  | cons id' ids ih =>
    rw [List.mem_cons, not_or] at h
    rw [List.foldl_cons, ih _ h.2, Std.TreeMap.getElem?_erase, if_neg]
    exact fun hcmp => h.1 (Std.LawfulEqCmp.compare_eq_iff_eq.1 hcmp).symm

/-- What was started by a reliable fragment is not thrown out to make room. -/
theorem getElem?_makeRoom (hget : a.assemblies[id]? = some assembly)
    (hreliable : assembly.isReliable = true) : a.makeRoom.assemblies[id]? = some assembly := by
  unfold makeRoom
  split
  · exact hget
  · refine (getElem?_foldl_erase _ _ fun hmem => ?_).trans hget
    obtain ⟨assembly', hget', hunreliable⟩ := mem_dispensable.1 (List.mem_of_mem_take hmem)
    rw [hget] at hget'
    rw [Option.some.inj hget', hunreliable] at hreliable
    exact Bool.false_ne_true hreliable

theorem makeRoom_of_dispensable (h : a.dispensable = []) : a.makeRoom = a := by
  unfold makeRoom
  split
  · rfl
  · simp only [h, List.take_nil, List.foldl_nil]

/-- There is room after it was made, if there was any or one assembly is dispensable. -/
theorem hasRoom_makeRoom (hle : a.assemblies.size ≤ a.maxAssemblies)
    (h : a.hasRoom = true ∨ a.dispensable ≠ []) : a.makeRoom.hasRoom = true := by
  cases hroom : a.hasRoom with
  | true => rwa [makeRoom, if_pos hroom]
  | false =>
    have hfull : a.assemblies.size = a.maxAssemblies :=
      Nat.le_antisymm hle (Nat.not_lt.1 (of_decide_eq_false hroom))
    obtain ⟨id, ids, hdispensable⟩ :=
      List.exists_cons_of_ne_nil (h.resolve_left (ne_true_of_eq_false hroom))
    obtain ⟨assembly, hget, -⟩ := mem_dispensable.1 (hdispensable ▸ List.mem_cons_self)
    have hmem : id ∈ a.assemblies := Std.TreeMap.mem_iff_isSome_getElem?.2 (by rw [hget]; rfl)
    have hmade : a.makeRoom = { a with assemblies := a.assemblies.erase id } := by
      rw [makeRoom, if_neg (ne_true_of_eq_false hroom), hdispensable, hfull,
        Nat.add_sub_cancel_left]
      rfl
    have hsome := Std.TreeMap.isEmpty_eq_false_iff_exists_mem.2 ⟨id, hmem⟩
    rw [Std.TreeMap.isEmpty_eq_size_eq_zero, beq_eq_false_iff_ne] at hsome
    rw [hmade, hasRoom, decide_eq_true_eq, Std.TreeMap.size_erase,
      if_pos (Std.TreeMap.contains_iff_mem.2 hmem)]
    show a.assemblies.size - 1 < a.maxAssemblies
    omega

/-! ## Whether a fragment finds its assembly -/

theorem accepts_of_fragment (hmark : m.fragment = some mark)
    (hreliable : m.reliability.isReliable = true) : a.accepts m = true ↔
      a.assemblies.contains mark.id = true ∨ a.hasRoom = true ∨ a.dispensable ≠ [] := by
  simp only [accepts, hmark, hreliable, Bool.not_true, Bool.false_or, Bool.or_eq_true,
    Bool.not_eq_true', List.isEmpty_eq_false_iff, or_assoc]

/-- **A reliable fragment that is accepted finds its assembly.** -/
theorem isSome_start (hle : a.assemblies.size ≤ a.maxAssemblies) (hmark : m.fragment = some mark)
    (hreliable : m.reliability.isReliable = true) (h : a.accepts m = true) :
    (a.start m mark).1.isSome = true := by
  unfold start
  cases hget : a.assemblies[mark.id]? with
  | some assembly => rfl
  | none =>
    have hnone : a.assemblies.contains mark.id = false := by
      rw [Std.TreeMap.contains_eq_isSome_getElem?, hget]
      rfl
    have hroom := hasRoom_makeRoom hle
      (((accepts_of_fragment hmark hreliable).1 h).resolve_left (ne_true_of_eq_false hnone))
    simp only [hroom, if_true, Option.isSome_some]

/-- **A reliable fragment that is not accepted finds none and throws out none.** -/
theorem start_of_not_accepts (hmark : m.fragment = some mark)
    (hreliable : m.reliability.isReliable = true) (h : a.accepts m = false) :
    a.start m mark = (none, a) := by
  have hnot := (not_congr (accepts_of_fragment hmark hreliable)).1 (ne_true_of_eq_false h)
  rw [not_or, not_or, not_not] at hnot
  obtain ⟨hnew, hfull, hdispensable⟩ := hnot
  have hget : a.assemblies[mark.id]? = none := by
    rwa [Std.TreeMap.contains_eq_isSome_getElem?, Bool.not_eq_true, Option.isSome_eq_false_iff,
      Option.isNone_iff_eq_none] at hnew
  simp only [start, hget, makeRoom_of_dispensable hdispensable, hfull, Bool.false_eq_true,
    if_false]

/-- What was started by a reliable fragment is there when the fragment is put in. -/
theorem getElem?_start (m : Message) (mark : FragmentMark)
    (hget : a.assemblies[id]? = some assembly) (hreliable : assembly.isReliable = true) :
    (a.start m mark).2.assemblies[id]? = some assembly := by
  unfold start
  cases hown : a.assemblies[mark.id]? with
  | some _ => exact hget
  | none =>
    have hkept := getElem?_makeRoom hget hreliable
    have hne : ¬ compare mark.id id = .eq := by
      intro hcmp
      rw [Std.LawfulEqCmp.compare_eq_iff_eq.1 hcmp, hget] at hown
      cases hown
    simp only
    split
    · rwa [Std.TreeMap.getElem?_insert, if_neg hne]
    · exact hkept

/-! ## What becomes of an assembly -/

/-- An assembly is as it was, or has got the fragment that came, or was completed by it. -/
inductive Fares (a : Assembler) (m : Message) (id : UInt16) (assembly : Assembly) : Prop
  | unchanged (getElem?_eq : (a.take m).2.assemblies[id]? = some assembly)
  | joined {mark : FragmentMark} (own : m.fragment = some mark) (id_eq : mark.id = id)
    (getElem?_eq : (a.take m).2.assemblies[id]? = some (assembly.put mark.index m))
  | completed {mark : FragmentMark} {whole : Message} (own : m.fragment = some mark)
    (id_eq : mark.id = id) (complete : (assembly.put mark.index m).isComplete = true)
    (message?_eq : (assembly.put mark.index m).message? = some whole)
    (take_eq : (a.take m).1 = .ok (some whole))

theorem take_of_fragment (hmark : m.fragment = some mark) : a.take m = a.takeFragment m mark := by
  unfold take
  rw [hmark]

/-- The assembly that a fragment belongs to goes on or is completed. -/
theorem fares_own (hmark : m.fragment = some mark) (hget : a.assemblies[mark.id]? = some assembly)
    (hproper : assembly.Proper a.maxFragmentCount) : a.Fares m mark.id assembly := by
  have htake := take_of_fragment (a := a) hmark
  have hstart : a.start m mark = (some assembly, a) := by
    unfold start
    rw [hget]
  unfold takeFragment at htake
  rw [hstart] at htake
  split at htake
  · exact .unchanged (htake ▸ hget)
  next hinside =>
    split at htake
    · exact .unchanged (htake ▸ hget)
    next hfew =>
      simp only at htake
      split at htake
      next heq =>
        unfold join at htake
        cases hhas : assembly.has mark.index with
        | true =>
          simp only [hhas, if_true] at htake
          exact .unchanged (htake ▸ hget)
        | false =>
          have hjoins : a.Joins m mark assembly :=
            ⟨Or.inl hget, heq, UInt32.not_le.1 hinside, Nat.not_lt.1 hfew, hhas⟩
          simp only [hhas, Bool.false_eq_true, if_false] at htake
          cases hcomplete : (assembly.put mark.index m).isComplete with
          | true =>
            obtain ⟨whole, hwhole⟩ := hjoins.exists_message? (fun _ => hproper) hcomplete
            rw [if_pos hcomplete, hwhole] at htake
            exact .completed hmark rfl hcomplete hwhole (htake ▸ rfl)
          | false =>
            rw [if_neg (ne_true_of_eq_false hcomplete)] at htake
            exact .joined hmark rfl (htake ▸ Std.TreeMap.getElem?_insert_self)
      next => exact .unchanged (htake ▸ hget)

/-- An assembly that the message does not belong to stays if it was started by a reliable
fragment. -/
theorem getElem?_take_of_ne (hget : a.assemblies[id]? = some assembly)
    (hreliable : assembly.isReliable = true) (hne : ∀ mark ∈ m.fragment, mark.id ≠ id) :
    (a.take m).2.assemblies[id]? = some assembly := by
  cases hmark : m.fragment with
  | none =>
    unfold take
    rw [hmark]
    exact hget
  | some mark =>
    have hother : ¬ compare mark.id id = .eq := fun hcmp =>
      hne mark hmark (Std.LawfulEqCmp.compare_eq_iff_eq.1 hcmp)
    have hstart := getElem?_start m mark hget hreliable
    rw [take_of_fragment hmark]
    unfold takeFragment
    split
    · exact hget
    · split
      · exact hget
      · generalize a.start m mark = started at hstart ⊢
        obtain ⟨_ | found, a₂⟩ := started
        · exact hstart
        · simp only
          split
          · unfold join
            split
            · exact hstart
            · simp only
              split
              · rwa [Std.TreeMap.getElem?_erase, if_neg hother]
              · rwa [Std.TreeMap.getElem?_insert, if_neg hother]
          · exact hstart

theorem Bounded.fares {fragments assemblies : Nat} (h : a.Bounded fragments assemblies)
    (m : Message) (hget : a.assemblies[id]? = some assembly)
    (hreliable : assembly.isReliable = true) : a.Fares m id assembly := by
  by_cases hown : ∃ mark ∈ m.fragment, mark.id = id
  · obtain ⟨mark, hmark, rfl⟩ := hown
    exact fares_own hmark hget (h.maxFragmentCount_eq ▸ h.proper mark.id assembly hget)
  · exact .unchanged
      (getElem?_take_of_ne hget hreliable fun mark hmark heq => hown ⟨mark, hmark, heq⟩)

/-! ## The promise -/

/-- What is left of an assembler after some messages. -/
def after (a : Assembler) (ms : List Message) : Assembler := ms.foldl (fun a m => (a.take m).2) a

theorem bounded_after (fragments assemblies : Nat) (ms : List Message) :
    ((fresh fragments assemblies).after ms).Bounded fragments assemblies := by
  have hrun : ∀ (ms : List Message) (a : Assembler), a.Bounded fragments assemblies →
      (a.after ms).Bounded fragments assemblies := by
    intro ms
    induction ms with
    | nil => exact fun _ h => h
    | cons m ms ih => exact fun a h => ih _ (h.take m)
  exact hrun ms _ (bounded_fresh fragments assemblies)

/-- A fragment that is allowed lacks room exactly if no assembly was found or started for it. -/
theorem take_of_allowed (hmark : m.fragment = some mark) (hindex : mark.index < mark.count)
    (hcount : mark.count.toNat ≤ a.maxFragmentCount) :
    ((a.start m mark).1 = none → a.take m = (.error (.noRoom mark.id), (a.start m mark).2)) ∧
      ((a.start m mark).1.isSome = true → ∀ id, (a.take m).1 ≠ .error (.noRoom id)) := by
  rw [take_of_fragment hmark, takeFragment, if_neg (UInt32.not_le.2 hindex),
    if_neg (Nat.not_lt.2 hcount)]
  generalize a.start m mark = started
  obtain ⟨_ | found, a'⟩ := started
  · refine ⟨fun _ => rfl, fun hfound => ?_⟩
    cases hfound
  · refine ⟨fun hnone => ?_, fun _ id => ?_⟩
    · cases hnone
    · simp only
      split
      · intro hok
        cases hok
      · intro hchanged
        cases hchanged

/-- **What is accepted finds room, and nothing reliable is thrown out for it; what is not accepted
finds none, and nothing changes.** In any case the fragments have to be some that are allowed. -/
theorem take_as_accepted (maxFragmentCount maxAssemblies : Nat) (ms : List Message) (m : Message)
    (hreliable : m.reliability.isReliable = true)
    (hallowed : ∀ mark ∈ m.fragment,
      mark.index < mark.count ∧ mark.count.toNat ≤ maxFragmentCount) :
    let a := (fresh maxFragmentCount maxAssemblies).after ms
    (a.accepts m = true →
      (∀ id, (a.take m).1 ≠ .error (.noRoom id)) ∧
        (a.take m).2.assemblies.size ≤ maxAssemblies ∧
        ∀ id assembly, a.assemblies[id]? = some assembly → assembly.isReliable = true →
          a.Fares m id assembly) ∧
      (a.accepts m = false → ∃ mark ∈ m.fragment, a.take m = (.error (.noRoom mark.id), a)) := by
  intro a
  have hbounded : a.Bounded maxFragmentCount maxAssemblies := bounded_after _ _ ms
  have hle : a.assemblies.size ≤ a.maxAssemblies := hbounded.maxAssemblies_eq ▸ hbounded.size_le
  have hfragment mark (hmark : m.fragment = some mark) :=
    take_of_allowed hmark (hallowed mark hmark).1
      (hbounded.maxFragmentCount_eq ▸ (hallowed mark hmark).2)
  constructor
  · intro haccepts
    refine ⟨fun id => ?_, (hbounded.take m).size_le, fun id assembly => hbounded.fares m⟩
    cases hmark : m.fragment with
    | none =>
      unfold take
      rw [hmark]
      intro hok
      cases hok
    | some mark =>
      exact (hfragment mark hmark).2 (isSome_start hle hmark hreliable haccepts) id
  · intro haccepts
    cases hmark : m.fragment with
    | none => simp only [accepts, hmark, Bool.true_eq_false] at haccepts
    | some mark =>
      have hstart := start_of_not_accepts hmark hreliable haccepts
      refine ⟨mark, rfl, ?_⟩
      rw [(hfragment mark hmark).1 (congrArg Prod.fst hstart), hstart]

/-- The first of two fragments. -/
def opening (reliability : Reliability) (id : UInt16) : Message where
  reliability := reliability
  index := if reliability.isReliable then some Serial.zero else none
  order := none
  fragment := some ⟨2, id, 0⟩
  payload := [0x07]

/-- Two assemblies where two are allowed: with one that is dispensable, and with none. -/
theorem take_as_accepted_when_full :
    let mixed := (fresh 16 2).after [opening .unreliable 1, opening .reliable 2]
    let reliable := (fresh 16 2).after [opening .reliable 1, opening .reliable 2]
    (mixed.accepts (opening .reliable 3) = true ∧
      (mixed.take (opening .reliable 3)).1 ≠ .error (.noRoom 3) ∧
      (mixed.take (opening .reliable 3)).2.assemblies.size ≤ 2 ∧
      ∃ assembly, mixed.assemblies[(2 : UInt16)]? = some assembly ∧
        mixed.Fares (opening .reliable 3) 2 assembly) ∧
      (reliable.accepts (opening .reliable 3) = false ∧
        reliable.take (opening .reliable 3) = (.error (.noRoom 3), reliable)) := by
  have hallowed : ∀ mark ∈ (opening .reliable 3).fragment,
      mark.index < mark.count ∧ mark.count.toNat ≤ 16 := by
    rintro mark ⟨⟩
    decide
  intro mixed reliable
  have haccepts : mixed.accepts (opening .reliable 3) = true := by decide +kernel
  have hrefuses : reliable.accepts (opening .reliable 3) = false := by decide +kernel
  obtain ⟨hfinds, hsize, hfares⟩ := (take_as_accepted 16 2
    [opening .unreliable 1, opening .reliable 2] (opening .reliable 3) rfl hallowed).1 haccepts
  obtain ⟨mark, hmark, htake⟩ := (take_as_accepted 16 2
    [opening .reliable 1, opening .reliable 2] (opening .reliable 3) rfl hallowed).2 hrefuses
  cases hmark
  obtain ⟨assembly, hget⟩ : ∃ assembly, mixed.assemblies[(2 : UInt16)]? = some assembly :=
    Option.isSome_iff_exists.1 (by decide +kernel)
  have hreliable : (mixed.assemblies[(2 : UInt16)]?).all Assembly.isReliable = true := by
    decide +kernel
  rw [hget] at hreliable
  exact ⟨⟨haccepts, hfinds 3, hsize, assembly, hget, hfares 2 assembly hget hreliable⟩, hrefuses,
    htake⟩

end Assembler

end Receiver

end DatagramTransport

import DatagramTransport.Proofs.Window

/-!
# What a window remembers — a set of numbers that never wrap

A window is only ever told serial numbers, and its base is one. Whoever calls it means unbounded
numbers, and so it is watched here from outside: the base is followed from call to call as an
unbounded number, in whichever direction it moves, and the numbers that were reported as new are
written down. **As long as every call is within half a turn of the base, the window answers as the
set of these numbers would**, across any number of turns and whichever of the two calls is made.

What is kept from call to call is `Follows`: the window stands at the base that is followed, and
what it holds from there on is what was written down. One lemma, `Call.make_spec`, says what a call
does to a window; everything else is read off it.
-/

set_option autoImplicit false

namespace DatagramTransport

namespace Serial

/-- Of the unbounded numbers that have this serial number the one that is nearest to `n`, or the
later one, if two are equally near. -/
def nearest (s : Serial) (n : Nat) : Nat :=
  let ahead := s.distanceFrom (ofNat n)
  if ahead ≤ half then n + ahead else n + ahead - modulus

theorem nearest_ofNat {a b : Nat} (hab : a < b + 8388608) (hba : b ≤ a + 8388608) :
    (ofNat b).nearest a = b := by
  have hhalf : half = 8388608 := rfl
  have hmodulus : modulus = 16777216 := rfl
  simp only [nearest]
  rcases Nat.lt_or_ge b a with hlt | hge
  · rw [distanceFrom_ofNat_of_lt hlt (by omega), if_neg (by omega)]
    omega
  · rw [distanceFrom_ofNat_of_le hge (by omega), if_pos (by omega)]
    omega

end Serial

namespace Receiver

namespace Window

/-! ## Calls -/

/-- The two ways to tell a window that a number was received. -/
inductive Call where
  | insert (k : Nat)
  | slide (k : Nat)
  deriving DecidableEq, Repr

namespace Call

def number : Call → Nat
  | insert k => k
  | slide k => k

/-- Whether the number is reported as new, and the window afterwards. -/
def make : Call → Window → Bool × Window
  | insert k, w => ((w.insert (Serial.ofNat k)).1 = .fresh, (w.insert (Serial.ofNat k)).2)
  | slide k, w => w.slide (Serial.ofNat k)

/-- The number is less than half a turn ahead, or at most that far behind. -/
def Near (c : Call) (base : Nat) : Prop :=
  base ≤ c.number + Serial.half ∧ c.number < base + Serial.half

instance (c : Call) (base : Nat) : Decidable (c.Near base) :=
  inferInstanceAs (Decidable (_ ∧ _))

/-- What a call can take in: sliding moves the window as far as is needed. -/
def Reaches (limit : Nat) : Call → Prop
  | insert k => k < limit
  | slide _ => True

/-- What a call gives up: the numbers that are a whole window or more behind one that the window
slides to. -/
def Drops (capacity : Nat) : Call → Nat → Prop
  | insert _, _ => False
  | slide k, j => j + capacity ≤ k

variable {w : Window} {c : Call} {base : Nat}

@[simp] theorem capacity_make : (c.make w).2.capacity = w.capacity := by
  cases c with
  | insert k => exact capacity_insert _
  | slide k => exact capacity_slide _

/-- **What a call does to a window**: the number is reported as new if the window lacks it and can
take it, and then it is held, besides what was held before and what is given up. -/
theorem make_spec (h : w.At base) (hpos : 0 < w.capacity) (hc : c.Near base) :
    ∃ base', base ≤ base' ∧ (c.make w).2.At base' ∧
      ((c.make w).1 = true ↔ ¬ w.Holds base c.number ∧ c.Reaches (base + w.capacity)) ∧
      ∀ j, (c.make w).2.Holds base' j ↔
        w.Holds base j ∨ ((c.make w).1 = true ∧ j = c.number) ∨ c.Drops w.capacity j := by
  obtain ⟨behind, ahead⟩ := hc
  simp only [Serial.half] at behind ahead
  cases c with
  | insert k =>
    simp only [number, make, Reaches, Drops, or_false, decide_eq_true_eq] at behind ahead ⊢
    by_cases hk : w.check (Serial.ofNat k) = .fresh
    · obtain ⟨base', hbase, hat, hholds⟩ := h.toStands.insert behind ahead hk
      have hnew := (h.check_eq_fresh_iff behind ahead).1 hk
      have hfresh : (w.insert (Serial.ofNat k)).1 = .fresh := by rw [insert_of_fresh hk]
      exact ⟨base', hbase, hat, ⟨fun _ => hnew, fun _ => hfresh⟩, by simpa [hfresh] using hholds⟩
    · rw [insert_of_not_fresh hk]
      refine ⟨base, Nat.le_refl _, h, h.check_eq_fresh_iff behind ahead, fun j => ?_⟩
      simp [hk]
  | slide k =>
    simp only [number, make, Reaches, Drops, and_true] at behind ahead ⊢
    obtain ⟨base', hbase, hat, hnew, hholds⟩ := h.slide hpos behind ahead
    refine ⟨base', hbase, hat, hnew, fun j => ?_⟩
    rw [hholds, hnew]
    constructor
    · rintro (hold | rfl | hgone)
      · exact Or.inl hold
      · by_cases hj : w.Holds base j
        · exact Or.inl hj
        · exact Or.inr (Or.inl ⟨hj, rfl⟩)
      · exact Or.inr (Or.inr hgone)
    · rintro (hold | ⟨-, rfl⟩ | hgone)
      · exact Or.inl hold
      · exact Or.inr (Or.inl rfl)
      · exact Or.inr (Or.inr hgone)

/-- No call moves the base by more than half a turn: the last number it moves over was held, or is
not ahead of the number that is received. -/
theorem le_half_of_make {base' : Nat} (h : w.At base) (hcap : w.capacity < Serial.half)
    (hc : c.Near base)
    (hholds : ∀ j, (c.make w).2.Holds base' j ↔
      w.Holds base j ∨ ((c.make w).1 = true ∧ j = c.number) ∨ c.Drops w.capacity j) :
    base' ≤ base + Serial.half := by
  have ahead := hc.2
  rcases Nat.eq_zero_or_pos base' with rfl | hpos
  · exact Nat.zero_le _
  · rcases (hholds (base' - 1)).1 (Or.inl (by omega)) with hold | ⟨-, hj⟩ | hgone
    · have := h.toStands.holds_lt hold
      omega
    · omega
    · cases c with
      | insert k => exact hgone.elim
      | slide k =>
        simp only [Drops, number] at hgone ahead
        omega

end Call

/-! ## Windows that are watched -/

/-- A window, where its base stands as an unbounded number, and what was reported as new. -/
structure Watched where
  window : Window
  base : Nat
  accepted : List Nat
  deriving DecidableEq, Repr

namespace Watched

def fresh (capacity : Nat) : Watched := ⟨Window.fresh capacity, 0, []⟩

def step (s : Watched) (c : Call) : Watched where
  window := (c.make s.window).2
  base := (c.make s.window).2.base.nearest s.base
  accepted := if (c.make s.window).1 then s.accepted ++ [c.number] else s.accepted

def steps (s : Watched) (calls : List Call) : Watched := calls.foldl step s

/-- Each call is near to the base at its time. -/
def Near (s : Watched) : List Call → Prop
  | [] => True
  | c :: rest => c.Near s.base ∧ (s.step c).Near rest

instance decidableNear (s : Watched) : (calls : List Call) → Decidable (s.Near calls)
  | [] => inferInstanceAs (Decidable True)
  | c :: rest =>
    have := decidableNear (s.step c) rest
    inferInstanceAs (Decidable (c.Near s.base ∧ (s.step c).Near rest))

/-- The window stands at the base that is followed, and holds what was accepted. -/
structure Follows (s : Watched) (capacity : Nat) : Prop where
  capacity_eq : s.window.capacity = capacity
  standing : s.window.At s.base
  holds_iff : ∀ k, s.window.Holds s.base k ↔ k < s.base ∨ k ∈ s.accepted

variable {s : Watched} {c : Call} {calls : List Call} {capacity k : Nat}

theorem follows_fresh (capacity : Nat) : (fresh capacity).Follows capacity where
  capacity_eq := rfl
  standing := at_fresh capacity
  holds_iff := by simp [fresh, Window.fresh, Holds]

theorem mem_accepted_step :
    k ∈ (s.step c).accepted ↔ k ∈ s.accepted ∨ ((c.make s.window).1 = true ∧ k = c.number) := by
  cases h : (c.make s.window).1 <;> simp [step, h]

/-- What a step does: the base that is followed is the one the window stands at, it does not move
backwards, and what is held more than before was accepted or given up. -/
theorem Follows.base_step (h : s.Follows capacity) (hpos : 0 < capacity)
    (hcap : capacity < Serial.half) (hc : c.Near s.base) :
    s.base ≤ (s.step c).base ∧ (s.step c).window.At (s.step c).base ∧
      ∀ j, (s.step c).window.Holds (s.step c).base j ↔
        s.window.Holds s.base j ∨ ((c.make s.window).1 = true ∧ j = c.number) ∨
          c.Drops capacity j := by
  obtain rfl := h.capacity_eq
  obtain ⟨base', hbase, hat, -, hholds⟩ := Call.make_spec h.standing hpos hc
  have hfar := Call.le_half_of_make h.standing hcap hc hholds
  simp only [Serial.half] at hfar
  have hnearest : (s.step c).base = base' := by
    simp only [step, hat.base_eq]
    exact Serial.nearest_ofNat (by omega) hfar
  rw [hnearest]
  exact ⟨hbase, hat, hholds⟩

theorem Follows.step (h : s.Follows capacity) (hpos : 0 < capacity)
    (hcap : capacity < Serial.half) (hc : c.Near s.base) : (s.step c).Follows capacity := by
  obtain ⟨hbase, hat, hholds⟩ := h.base_step hpos hcap hc
  have hcapacity : (s.step c).window.capacity = capacity :=
    Call.capacity_make.trans h.capacity_eq
  refine ⟨hcapacity, hat, fun j => ⟨fun hj => ?_, ?_⟩⟩
  · rw [mem_accepted_step]
    rcases (hholds j).1 hj with hold | hnew | hgone
    · rcases (h.holds_iff j).1 hold with hlt | hmem
      · exact Or.inl (by omega)
      · exact Or.inr (Or.inl hmem)
    · exact Or.inr (Or.inr hnew)
    · -- what is given up is behind the base, or the window would not reach to what it slid to
      cases c with
      | insert k => exact hgone.elim
      | slide k =>
        have hk : (s.step (.slide k)).window.Holds (s.step (.slide k)).base k := by
          rw [hholds]
          by_cases hold : s.window.Holds s.base k
          · exact Or.inl hold
          · obtain rfl := h.capacity_eq
            obtain ⟨-, -, -, hnew, -⟩ := Call.make_spec h.standing hpos hc
            exact Or.inr (Or.inl ⟨hnew.2 ⟨hold, trivial⟩, rfl⟩)
        have := hat.toStands.holds_lt hk
        simp only [Call.Drops] at hgone
        exact Or.inl (by omega)
  · rw [mem_accepted_step]
    rintro (hlt | hmem | hnew)
    · exact Or.inl hlt
    · exact (hholds j).2 (Or.inl ((h.holds_iff j).2 (Or.inr hmem)))
    · exact (hholds j).2 (Or.inr (Or.inl hnew))

theorem Follows.steps (h : s.Follows capacity) (hpos : 0 < capacity)
    (hcap : capacity < Serial.half) (hnear : s.Near calls) :
    (s.steps calls).Follows capacity := by
  induction calls generalizing s with
  | nil => exact h
  | cons c rest ih => exact ih (h.step hpos hcap hnear.1) hnear.2

/-- **A number is new exactly if it is not behind the base and was not accepted yet**; `insert`
demands besides that it is inside of the window. -/
theorem Follows.isNew_iff (h : s.Follows capacity) (hpos : 0 < capacity) (hc : c.Near s.base) :
    (c.make s.window).1 = true ↔
      s.base ≤ c.number ∧ c.number ∉ s.accepted ∧ c.Reaches (s.base + capacity) := by
  obtain rfl := h.capacity_eq
  obtain ⟨-, -, -, hnew, -⟩ := Call.make_spec h.standing hpos hc
  rw [hnew, h.holds_iff, not_or, Nat.not_lt, and_assoc]

theorem Follows.not_mem_of_beyond (h : s.Follows capacity) (hk : s.base + capacity ≤ k) :
    k ∉ s.accepted := by
  intro hmem
  have := h.standing.toStands.holds_lt ((h.holds_iff k).2 (Or.inr hmem))
  rw [h.capacity_eq] at this
  omega

theorem Follows.base_not_mem (h : s.Follows capacity) : s.base ∉ s.accepted :=
  fun hmem => h.standing.not_holds_base ((h.holds_iff _).2 (Or.inr hmem))

theorem Follows.insert_beyond (h : s.Follows capacity) (hk : s.base + capacity ≤ k)
    (ahead : k < s.base + Serial.half) :
    s.window.insert (Serial.ofNat k) = (.beyond, s.window) := by
  obtain rfl := h.capacity_eq
  simp only [Serial.half] at ahead
  have hcheck : s.window.check (Serial.ofNat k) = .beyond := by
    rw [h.standing.check (by omega) ahead, if_neg (by omega), if_pos hk]
  rw [insert_of_not_fresh (by simp [hcheck]), hcheck]

/-- With `insert` alone nothing is given up. -/
theorem Follows.below_step (h : s.Follows capacity) (hpos : 0 < capacity)
    (hcap : capacity < Serial.half) (hc : (Call.insert k).Near s.base)
    (hbelow : ∀ j < s.base, j ∈ s.accepted) :
    ∀ j < (s.step (.insert k)).base, j ∈ (s.step (.insert k)).accepted := by
  intro j hj
  obtain ⟨-, -, hholds⟩ := h.base_step hpos hcap hc
  rw [mem_accepted_step]
  rcases (hholds j).1 (Or.inl hj) with hold | hnew | hgone
  · rcases (h.holds_iff j).1 hold with hlt | hmem
    · exact Or.inl (hbelow j hlt)
    · exact Or.inl hmem
  · exact Or.inr hnew
  · exact hgone.elim

theorem Follows.below_steps (h : s.Follows capacity) (hpos : 0 < capacity)
    (hcap : capacity < Serial.half) (hnear : s.Near calls)
    (hinsert : ∀ c ∈ calls, ∃ k, c = .insert k) (hbelow : ∀ j < s.base, j ∈ s.accepted) :
    ∀ j < (s.steps calls).base, j ∈ (s.steps calls).accepted := by
  induction calls generalizing s with
  | nil => exact hbelow
  | cons c rest ih =>
    obtain ⟨k, rfl⟩ := hinsert c List.mem_cons_self
    exact ih (h.step hpos hcap hnear.1) hnear.2
      (fun c hc => hinsert c (List.mem_cons_of_mem _ hc))
      (h.below_step hpos hcap hnear.1 hbelow)

/-- **A window implements an unbounded set.** After any calls, each of which was near to the base at
its time, the window stands at the unbounded base and its first flag is not set. A call that is made
then reports as new only what was not accepted before and is not behind the base, and all of this
that is inside of the window; it does not move the base backwards. Sliding reports as new whatever
is beyond the window, which `insert` turns away without any change. If there were no calls but to
`insert`, the base is the least number that was never accepted. -/
theorem implements_unbounded_set (hpos : 0 < capacity) (hcap : capacity < Serial.half)
    (calls : List Call) (hnear : (fresh capacity).Near calls) :
    let s := (fresh capacity).steps calls
    s.window.base = Serial.ofNat s.base ∧ s.window.ahead.testBit 0 = false ∧
      (∀ c : Call, c.Near s.base →
        ((c.make s.window).1 = true → c.number ∉ s.accepted ∧ s.base ≤ c.number) ∧
        (s.base ≤ c.number → c.number < s.base + capacity → c.number ∉ s.accepted →
          (c.make s.window).1 = true) ∧
        s.base ≤ (s.step c).base) ∧
      (∀ k, s.base + capacity ≤ k → k < s.base + Serial.half →
        (s.window.slide (Serial.ofNat k)).1 = true ∧
          s.window.insert (Serial.ofNat k) = (.beyond, s.window)) ∧
      ((∀ c ∈ calls, ∃ k, c = .insert k) →
        s.base ∉ s.accepted ∧ ∀ k < s.base, k ∈ s.accepted) := by
  intro s
  have h : s.Follows capacity := (follows_fresh capacity).steps hpos hcap hnear
  refine ⟨h.standing.base_eq, h.standing.first, fun c hc => ⟨fun hnew => ?_, ?_, ?_⟩, ?_, ?_⟩
  · obtain ⟨hge, hmem, -⟩ := (h.isNew_iff hpos hc).1 hnew
    exact ⟨hmem, hge⟩
  · intro hge hlt hmem
    refine (h.isNew_iff hpos hc).2 ⟨hge, hmem, ?_⟩
    cases c with
    | insert k => exact hlt
    | slide k => exact trivial
  · exact (h.base_step hpos hcap hc).1
  · intro k hk ahead
    have hc : (Call.slide k).Near s.base := ⟨by simp only [Call.number]; omega, ahead⟩
    have hge : s.base ≤ k := by omega
    exact ⟨(h.isNew_iff hpos hc).2 ⟨hge, h.not_mem_of_beyond hk, trivial⟩,
      h.insert_beyond hk ahead⟩
  · intro hinsert
    exact ⟨h.base_not_mem,
      (follows_fresh capacity).below_steps hpos hcap hnear hinsert (by simp [fresh])⟩

/-- A window of three that slides past the end of the counter, and then fills the gap behind it. -/
theorem implements_unbounded_set_wrapped :
    let calls : List Call :=
      [.slide 8388607, .slide 16777212, .slide 16777217, .insert 16777215, .insert 16777216]
    let s : Watched :=
      ⟨⟨Serial.ofNat 2, 0, 3⟩, 16777218, [8388607, 16777212, 16777217, 16777215, 16777216]⟩
    (fresh 3).Near calls ∧ (fresh 3).steps calls = s ∧
      ∀ c : Call, c.Near 16777218 →
        ((c.make s.window).1 = true → c.number ∉ s.accepted ∧ 16777218 ≤ c.number) ∧
        (16777218 ≤ c.number → c.number < 16777221 → c.number ∉ s.accepted →
          (c.make s.window).1 = true) ∧
        16777218 ≤ (s.step c).base := by
  intro calls s
  have hnear : (fresh 3).Near calls := by decide +kernel
  have hsteps : (fresh 3).steps calls = s := by decide +kernel
  have h := (implements_unbounded_set (by decide) (by decide) calls hnear).2.2.1
  rw [hsteps] at h
  exact ⟨hnear, hsteps, h⟩

end Watched

end Window

end Receiver

end DatagramTransport

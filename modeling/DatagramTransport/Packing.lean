/-!
# Packing — cutting a list into groups that fit

Items of different sizes go into containers of one capacity, in the order in which they stand. The
rule is greedy: **a container takes items until the next one does not fit**. It always takes its
first item, so nothing is ever left over for lack of room, and an item larger than a container
travels alone.

Datagrams are filled with messages in this way and acknowledgement packets with ranges, and for
both the same two facts matter: the groups, put together again, are the list that was cut, and no
other cut into groups that fit needs fewer of them.
-/

set_option autoImplicit false

namespace DatagramTransport

namespace Packing

variable {α : Type}

/-- The longest front of a list that fits into `room`, and the rest. -/
def front (size : α → Nat) (room : Nat) : List α → List α × List α
  | [] => ([], [])
  | a :: rest =>
    if size a ≤ room then
      let (taken, left) := front size (room - size a) rest
      (a :: taken, left)
    else ([], a :: rest)

/-- At most `limit` groups from the front of a list, and what is left behind them. The groups
follow those that are there already, which are given last first. -/
def batchesOnto (size : α → Nat) (capacity : Nat) :
    List (List α) → Nat → List α → List (List α) × List α
  | done, 0, items => (done.reverse, items)
  | done, _ + 1, [] => (done.reverse, [])
  | done, limit + 1, a :: rest =>
    let (taken, left) := front size (capacity - size a) rest
    batchesOnto size capacity ((a :: taken) :: done) limit left

/-- At most `limit` groups from the front of a list, and what is left behind them. -/
def batches (size : α → Nat) (capacity limit : Nat) (items : List α) : List (List α) × List α :=
  batchesOnto size capacity [] limit items

/-- The whole list in groups. A group is never empty, so there are not more groups than items. -/
def groups (size : α → Nat) (capacity : Nat) (items : List α) : List (List α) :=
  (batches size capacity items.length items).1

def load (size : α → Nat) (items : List α) : Nat := items.foldr (fun a n => size a + n) 0

@[simp] theorem load_nil (size : α → Nat) : load size [] = 0 := rfl

@[simp] theorem load_cons (size : α → Nat) (a : α) (rest : List α) :
    load size (a :: rest) = size a + load size rest := rfl

theorem load_append (size : α → Nat) (items more : List α) :
    load size (items ++ more) = load size items + load size more := by
  induction items with
  | nil => simp
  | cons a rest ih => simp only [List.cons_append, load_cons, ih, Nat.add_assoc]

/-- Written one after the other, items take what they take together. -/
theorem length_flatMap {β : Type} {write : α → List β} {size : α → Nat}
    (h : ∀ a, (write a).length = size a) (items : List α) :
    (items.flatMap write).length = load size items := by
  induction items with
  | nil => rfl
  | cons a rest ih => rw [List.flatMap_cons, List.length_append, h, ih, load_cons]

theorem front_append (size : α → Nat) (room : Nat) (items : List α) :
    (front size room items).1 ++ (front size room items).2 = items := by
  induction items generalizing room with
  | nil => rfl
  | cons a rest ih =>
    simp only [front]
    split
    · simp [ih]
    · rfl

theorem batchesOnto_eq (size : α → Nat) (capacity : Nat) (done : List (List α)) (limit : Nat)
    (items : List α) :
    batchesOnto size capacity done limit items
      = (done.reverse ++ (batches size capacity limit items).1,
          (batches size capacity limit items).2) := by
  induction limit generalizing done items with
  | zero => simp [batchesOnto, batches]
  | succ limit ih =>
    cases items with
    | nil => simp [batchesOnto, batches]
    | cons a rest =>
      simp only [batches, batchesOnto]
      rw [ih, ih [a :: (front size (capacity - size a) rest).1]]
      simp

@[simp] theorem batches_zero (size : α → Nat) (capacity : Nat) (items : List α) :
    batches size capacity 0 items = ([], items) := rfl

@[simp] theorem batches_nil (size : α → Nat) (capacity limit : Nat) :
    batches size capacity limit [] = ([], []) := by
  cases limit <;> rfl

/-- A group is the first item and what fits beside it; the rest is cut in the same way. -/
theorem batches_cons (size : α → Nat) (capacity limit : Nat) (a : α) (rest : List α) :
    batches size capacity (limit + 1) (a :: rest)
      = ((a :: (front size (capacity - size a) rest).1)
            :: (batches size capacity limit (front size (capacity - size a) rest).2).1,
          (batches size capacity limit (front size (capacity - size a) rest).2).2) := by
  simp only [batches, batchesOnto]
  rw [batchesOnto_eq]
  simp [batches]

theorem batches_flatten_append (size : α → Nat) (capacity limit : Nat) (items : List α) :
    (batches size capacity limit items).1.flatten ++ (batches size capacity limit items).2
      = items := by
  induction limit generalizing items with
  | zero => rfl
  | succ limit ih =>
    cases items with
    | nil => simp
    | cons a rest =>
      simp only [batches_cons, List.flatten_cons, List.append_assoc, ih, List.cons_append,
        front_append]

/-- With as many groups as there are items, nothing is left behind. -/
theorem batches_snd_eq_nil {size : α → Nat} {capacity limit : Nat} {items : List α}
    (h : items.length ≤ limit) : (batches size capacity limit items).2 = [] := by
  induction limit generalizing items with
  | zero => exact List.eq_nil_of_length_eq_zero (Nat.le_zero.1 h)
  | succ limit ih =>
    cases items with
    | nil => simp
    | cons a rest =>
      have hfront := congrArg List.length (front_append size (capacity - size a) rest)
      rw [List.length_append] at hfront
      rw [List.length_cons] at h
      rw [batches_cons]
      exact ih (by omega)

/-- Put together again, the groups are the list that was cut. -/
theorem flatten_groups (size : α → Nat) (capacity : Nat) (items : List α) :
    (groups size capacity items).flatten = items := by
  have h := batches_flatten_append size capacity items.length items
  rwa [batches_snd_eq_nil (Nat.le_refl _), List.append_nil] at h

theorem load_front_le (size : α → Nat) (room : Nat) (items : List α) :
    load size (front size room items).1 ≤ room := by
  induction items generalizing room with
  | nil => exact Nat.zero_le room
  | cons a rest ih =>
    simp only [front]
    split
    · have := ih (room - size a)
      simp only [load_cons]
      omega
    · exact Nat.zero_le room

/-- A group of items that each fit into a container fits as well. -/
theorem load_le_of_mem_batches {size : α → Nat} {capacity limit : Nat} {items group : List α}
    (hfits : ∀ a ∈ items, size a ≤ capacity)
    (hgroup : group ∈ (batches size capacity limit items).1) : load size group ≤ capacity := by
  induction limit generalizing items with
  | zero => exact nomatch hgroup
  | succ limit ih =>
    cases items with
    | nil =>
      rw [batches_nil] at hgroup
      cases hgroup
    | cons a rest =>
      have ha := hfits a List.mem_cons_self
      rw [batches_cons] at hgroup
      rcases List.mem_cons.1 hgroup with rfl | hlater
      · have := load_front_le size (capacity - size a) rest
        rw [load_cons]
        omega
      · refine ih (fun b hb => hfits b (List.mem_cons_of_mem a ?_)) hlater
        rw [← front_append size (capacity - size a) rest]
        exact List.mem_append_right _ hb

theorem length_batches_le (size : α → Nat) (capacity limit : Nat) (items : List α) :
    (batches size capacity limit items).1.length ≤ limit := by
  induction limit generalizing items with
  | zero => exact Nat.le_refl 0
  | succ limit ih =>
    cases items with
    | nil =>
      rw [batches_nil]
      exact Nat.zero_le _
    | cons a rest =>
      rw [batches_cons]
      exact Nat.succ_le_succ (ih _)

/-- Items that take at least so much each are not more than what they take together. -/
theorem mul_length_le_load {size : α → Nat} {least : Nat} (h : ∀ a, least ≤ size a)
    (items : List α) : least * items.length ≤ load size items := by
  induction items with
  | nil => exact Nat.zero_le _
  | cons a rest ih =>
    have := h a
    rw [load_cons, List.length_cons, Nat.mul_succ]
    omega

/-! ## No other cut needs fewer groups

The rule is compared with any other cut **by what is still left**: after as many groups, the rule
has left no more behind than the other cut. -/

theorem snd_batches_suffix (size : α → Nat) (capacity limit : Nat) (items : List α) :
    (batches size capacity limit items).2 <:+ items :=
  ⟨_, batches_flatten_append size capacity limit items⟩

/-- What stands in front and fits is taken. -/
theorem snd_front_suffix {size : α → Nat} {room : Nat} {taken rest : List α}
    (hfits : load size taken ≤ room) : (front size room (taken ++ rest)).2 <:+ rest := by
  induction taken generalizing room with
  | nil => exact ⟨_, front_append size room rest⟩
  | cons a taken ih =>
    rw [load_cons] at hfits
    have ha : size a ≤ room := by omega
    simp only [List.cons_append, front, if_pos ha]
    exact ih (by omega)

/-- A group takes at least as much as a group of another cut that begins no later. -/
theorem snd_front_suffix_of_group {size : α → Nat} {capacity : Nat} {a : α}
    {group items behind : List α} (hfits : load size group ≤ capacity)
    (hitems : a :: items <:+ group ++ behind) :
    (front size (capacity - size a) items).2 <:+ behind := by
  have hleft : (front size (capacity - size a) items).2 <:+ items := ⟨_, front_append _ _ _⟩
  rcases List.suffix_or_suffix_of_suffix hitems (List.suffix_append group behind) with
    hlater | ⟨common, hcommon⟩
  · exact hleft.trans ((List.suffix_cons a items).trans hlater)
  · cases common with
    | nil =>
      have hbehind : behind = a :: items := hcommon
      exact hleft.trans (hbehind ▸ List.suffix_cons a items)
    | cons b common =>
      obtain ⟨rfl, rfl⟩ : b = a ∧ common ++ behind = items := List.cons.inj hcommon
      obtain ⟨skipped, hskipped⟩ := hitems
      have hgroup : skipped ++ b :: common = group := by
        rw [← List.cons_append, ← List.append_assoc] at hskipped
        exact List.append_cancel_right hskipped
      rw [← hgroup, load_append, load_cons] at hfits
      exact snd_front_suffix (by omega)

/-- **The rule leaves no more behind than any other cut** into at most as many groups that fit. -/
theorem snd_batches_suffix_of_groups {size : α → Nat} {capacity limit : Nat}
    {groups : List (List α)} {items rest : List α} (hfits : ∀ g ∈ groups, load size g ≤ capacity)
    (hlimit : groups.length ≤ limit) (hitems : items <:+ groups.flatten ++ rest) :
    (batches size capacity limit items).2 <:+ rest := by
  induction groups generalizing items limit with
  | nil => exact (snd_batches_suffix size capacity limit items).trans hitems
  | cons group groups ih =>
    cases limit with
    | zero => exact absurd hlimit (Nat.not_succ_le_zero _)
    | succ limit =>
      cases items with
      | nil => exact List.nil_suffix
      | cons a items =>
        rw [batches_cons]
        rw [List.flatten_cons, List.append_assoc] at hitems
        exact ih (fun g hg => hfits g (List.mem_cons_of_mem group hg))
          (Nat.le_of_succ_le_succ hlimit)
          (snd_front_suffix_of_group (hfits group List.mem_cons_self) hitems)

/-- A number of groups that is enough is never used up without need. -/
theorem length_batches_le_of_snd_eq_nil {size : α → Nat} {capacity enough : Nat} {items : List α}
    (h : (batches size capacity enough items).2 = []) (limit : Nat) :
    (batches size capacity limit items).1.length ≤ enough := by
  induction enough generalizing limit items with
  | zero =>
    have hitems : items = [] := h
    rw [hitems, batches_nil]
    exact Nat.le_refl 0
  | succ enough ih =>
    cases items with
    | nil =>
      rw [batches_nil]
      exact Nat.zero_le _
    | cons a rest =>
      cases limit with
      | zero => exact Nat.zero_le _
      | succ limit =>
        rw [batches_cons] at h ⊢
        exact Nat.succ_le_succ (ih h limit)

/-- **No other cut of the whole list into groups that fit has fewer of them.** -/
theorem length_batches_le_of_flatten_eq {size : α → Nat} {capacity : Nat} {items : List α}
    {groups : List (List α)} (hfits : ∀ g ∈ groups, load size g ≤ capacity)
    (hflatten : groups.flatten = items) (limit : Nat) :
    (batches size capacity limit items).1.length ≤ groups.length := by
  have hitems : items = groups.flatten ++ [] := hflatten.symm.trans (List.append_nil _).symm
  refine length_batches_le_of_snd_eq_nil ?_ limit
  exact List.suffix_nil.1 (snd_batches_suffix_of_groups hfits (Nat.le_refl _) ⟨[], hitems⟩)

/-- What is left is left because there may be no more groups. -/
theorem length_batches_of_snd_ne_nil {size : α → Nat} {capacity limit : Nat} {items : List α}
    (h : (batches size capacity limit items).2 ≠ []) :
    (batches size capacity limit items).1.length = limit := by
  induction limit generalizing items with
  | zero => rfl
  | succ limit ih =>
    cases items with
    | nil => exact absurd (by rw [batches_nil]) h
    | cons a rest =>
      rw [batches_cons] at h ⊢
      exact congrArg Nat.succ (ih h)

theorem ne_nil_of_mem_batches {size : α → Nat} {capacity limit : Nat} {items group : List α}
    (hgroup : group ∈ (batches size capacity limit items).1) : group ≠ [] := by
  induction limit generalizing items with
  | zero => exact nomatch hgroup
  | succ limit ih =>
    cases items with
    | nil =>
      rw [batches_nil] at hgroup
      cases hgroup
    | cons a rest =>
      rw [batches_cons] at hgroup
      rcases List.mem_cons.1 hgroup with rfl | hlater
      · exact List.cons_ne_nil _ _
      · exact ih hlater

end Packing

end DatagramTransport

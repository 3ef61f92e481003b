/-!
# Tables — values found by a key

A table is a list of keys with their values, at most one of each key, in the order in which the keys
were first put in. The order is kept because what a caller does with a whole table, such as letting
time pass for everything in it, shows in what comes out.

The equations at the end are all that the rest of the library needs to know: what is found
after putting in and after taking out, at the same key and at another one.
-/

set_option autoImplicit false

namespace DatagramTransport

abbrev Table (κ ν : Type) := List (κ × ν)

namespace Table

variable {κ ν : Type} [DecidableEq κ]

def get? : Table κ ν → κ → Option ν
  | [], _ => none
  | (key, value) :: rest, k => if key = k then some value else get? rest k

def has (t : Table κ ν) (k : κ) : Bool := (t.get? k).isSome

def erase (t : Table κ ν) (k : κ) : Table κ ν := t.filter fun entry => entry.1 ≠ k

def replace : Table κ ν → κ → ν → Table κ ν
  | [], _, _ => []
  | (key, value) :: rest, k, v =>
    if key = k then (k, v) :: rest else (key, value) :: replace rest k v

/-- Puts in a value, in the place of the one at the same key or else at the end. -/
def insert (t : Table κ ν) (k : κ) (v : ν) : Table κ ν :=
  if t.has k then t.replace k v else t ++ [(k, v)]

def keys (t : Table κ ν) : List κ := t.map Prod.fst

/-! ## What is found -/

@[simp] theorem get?_nil (k : κ) : get? ([] : Table κ ν) k = none := rfl

theorem get?_append (t u : Table κ ν) (k : κ) :
    get? (t ++ u) k = (get? t k).or (get? u k) := by
  induction t with
  | nil => simp
  | cons entry rest ih =>
    obtain ⟨key, value⟩ := entry
    by_cases h : key = k <;> simp [get?, h, ih]

theorem get?_replace_self {t : Table κ ν} {k : κ} (v : ν) (h : t.has k = true) :
    get? (t.replace k v) k = some v := by
  induction t with
  | nil => simp [has] at h
  | cons entry rest ih =>
    obtain ⟨key, value⟩ := entry
    by_cases hk : key = k
    · simp [replace, get?, hk]
    · simp [has, get?, hk] at h
      simp [replace, get?, hk, ih (by simpa [has] using h)]

theorem get?_replace_of_ne (t : Table κ ν) {k k' : κ} (v : ν) (h : k' ≠ k) :
    get? (t.replace k v) k' = get? t k' := by
  induction t with
  | nil => rfl
  | cons entry rest ih =>
    obtain ⟨key, value⟩ := entry
    by_cases hk : key = k
    · subst hk; simp [replace, get?, Ne.symm h]
    · simp [replace, get?, hk, ih]

@[simp] theorem get?_insert_self (t : Table κ ν) (k : κ) (v : ν) :
    get? (t.insert k v) k = some v := by
  unfold insert
  split
  · rename_i h
    exact get?_replace_self v h
  · rename_i h
    have hnone : get? t k = none := by simpa [has] using h
    simp [get?_append, hnone, get?]

theorem get?_insert_of_ne (t : Table κ ν) {k k' : κ} (v : ν) (h : k' ≠ k) :
    get? (t.insert k v) k' = get? t k' := by
  unfold insert
  split
  · exact get?_replace_of_ne t v h
  · simp [get?_append, get?, Ne.symm h]

@[simp] theorem get?_erase_self (t : Table κ ν) (k : κ) : get? (t.erase k) k = none := by
  induction t with
  | nil => rfl
  | cons entry rest ih =>
    obtain ⟨key, value⟩ := entry
    unfold erase at ih ⊢
    by_cases hk : key = k <;> simp [get?, hk] <;> simpa using ih

theorem get?_erase_of_ne (t : Table κ ν) {k k' : κ} (h : k' ≠ k) :
    get? (t.erase k) k' = get? t k' := by
  induction t with
  | nil => rfl
  | cons entry rest ih =>
    obtain ⟨key, value⟩ := entry
    unfold erase at ih ⊢
    by_cases hk : key = k
    · subst hk
      simpa [get?, Ne.symm h] using ih
    · simp only [List.filter_cons, ne_eq, hk, not_false_eq_true, decide_true, if_true, get?]
      rw [ih]

end Table

end DatagramTransport

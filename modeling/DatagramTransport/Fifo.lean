/-!
# Queues — in at the end, out at the front

A list takes what comes in at its end only by being built anew, so a queue is kept as two lists, the
front as it is and the back turned round. What a queue means is **one** list, `toList`, and each
operation is said by what it does to that list; two queues with the same list are the same to
everyone.

There is no operation that takes out. Whoever takes something out reads the whole list and makes a
queue of what is left.
-/

set_option autoImplicit false

namespace DatagramTransport

/-- A queue of items. -/
structure Fifo (α : Type) where
  front : List α
  /-- What follows the front, last first. -/
  back : List α
  deriving DecidableEq, Repr

namespace Fifo

variable {α : Type}

def empty : Fifo α := ⟨[], []⟩

def ofList (items : List α) : Fifo α := ⟨items, []⟩

/-- The items in their order. A front with nothing behind it is the whole list. -/
def toList (q : Fifo α) : List α :=
  match q.back with
  | [] => q.front
  | back => q.front ++ back.reverse

def length (q : Fifo α) : Nat := q.front.length + q.back.length

def append (items : List α) (q : Fifo α) : Fifo α := { q with back := items.reverse ++ q.back }

def prepend (items : List α) (q : Fifo α) : Fifo α := { q with front := items ++ q.front }

theorem toList_eq (q : Fifo α) : q.toList = q.front ++ q.back.reverse := by
  unfold toList
  split
  · rename_i h; simp [h]
  · rfl

@[simp] theorem toList_append (items : List α) (q : Fifo α) :
    (q.append items).toList = q.toList ++ items := by
  simp [toList_eq, append]

@[simp] theorem toList_prepend (items : List α) (q : Fifo α) :
    (q.prepend items).toList = items ++ q.toList := by
  simp [toList_eq, prepend]

end Fifo

end DatagramTransport

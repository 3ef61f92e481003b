import DatagramTransport.Octets.Reader

/-!
# Reliability — the delivery guarantee of a message

Eight guarantees, three questions. A **reliable** message is sent again until it is acknowledged; an
**ordered** one is delivered after all earlier ones of its channel; a **sequenced** one is delivered
only if nothing newer of its channel was. A fourth question, whether the sender wants a **receipt**,
does not concern the receiver.
-/

set_option autoImplicit false

namespace DatagramTransport

/-- The delivery guarantee of a message. -/
inductive Reliability where
  | unreliable
  | unreliableSequenced
  | reliable
  | reliableOrdered
  | reliableSequenced
  | unreliableWithReceipt
  | reliableWithReceipt
  | reliableOrderedWithReceipt
  deriving DecidableEq, Repr

namespace Reliability

def id : Reliability → UInt8
  | unreliable => 0
  | unreliableSequenced => 1
  | reliable => 2
  | reliableOrdered => 3
  | reliableSequenced => 4
  | unreliableWithReceipt => 5
  | reliableWithReceipt => 6
  | reliableOrderedWithReceipt => 7

def ofId? (n : UInt8) : Option Reliability :=
  if n = 0 then some unreliable
  else if n = 1 then some unreliableSequenced
  else if n = 2 then some reliable
  else if n = 3 then some reliableOrdered
  else if n = 4 then some reliableSequenced
  else if n = 5 then some unreliableWithReceipt
  else if n = 6 then some reliableWithReceipt
  else if n = 7 then some reliableOrderedWithReceipt
  else none

/-- The guarantee with a number, or the fault of there being none. -/
def ofId (n : UInt8) : Except Fault Reliability :=
  match ofId? n with
  | some r => .ok r
  | none => .error (.malformed (.unknownReliability n))

/-- Sent again until it is acknowledged. Such a message carries an index of its own. -/
def isReliable : Reliability → Bool
  | reliable | reliableOrdered | reliableSequenced => true
  | reliableWithReceipt | reliableOrderedWithReceipt => true
  | _ => false

/-- Delivered in the order in which it was sent on its channel, without gaps. -/
def isOrdered : Reliability → Bool
  | reliableOrdered | reliableOrderedWithReceipt => true
  | _ => false

/-- Delivered unless something newer of its channel was delivered before. -/
def isSequenced : Reliability → Bool
  | unreliableSequenced | reliableSequenced => true
  | _ => false

/-- Carries a place in the order of a channel. -/
def hasOrder (r : Reliability) : Bool := r.isOrdered || r.isSequenced

/-- Its sender is told whether it arrived. -/
def wantsReceipt : Reliability → Bool
  | unreliableWithReceipt | reliableWithReceipt | reliableOrderedWithReceipt => true
  | _ => false

/-- What a guarantee becomes for the fragments of a message that has to be split. Fragments are
always reliable: with one of them lost, all the others would be useless. -/
def ofFragments : Reliability → Reliability
  | unreliable => reliable
  | unreliableSequenced => reliableSequenced
  | unreliableWithReceipt => reliableWithReceipt
  | r => r

@[simp] theorem ofId?_id (r : Reliability) : ofId? r.id = some r := by
  cases r <;> rfl

@[simp] theorem isReliable_ofFragments (r : Reliability) : r.ofFragments.isReliable = true := by
  cases r <;> rfl

@[simp] theorem isOrdered_ofFragments (r : Reliability) :
    r.ofFragments.isOrdered = r.isOrdered := by
  cases r <;> rfl

@[simp] theorem isSequenced_ofFragments (r : Reliability) :
    r.ofFragments.isSequenced = r.isSequenced := by
  cases r <;> rfl

end Reliability

end DatagramTransport

import DatagramTransport.Message
import Std.Data.TreeMap

/-!
# Reassembly — from fragments back to messages

Fragments are collected by the number of the message that was split. When the last one is there the
payloads are put together, in the order of the fragments; everything else about the message is
taken from its first fragment.

The number of assemblies is bounded. A fragment that starts a new one when the bound is reached
makes room by throwing out those that were started by an unreliable fragment, which nobody counts
on. A reliable fragment that finds no room in this way must not be taken in, so that it comes
again: **`accepts` tells this beforehand**.
-/

set_option autoImplicit false

namespace DatagramTransport

namespace Receiver

/-- The fragments of a message, as far as they are there. -/
structure Assembly where
  /-- The fragment that came first was reliable. -/
  isReliable : Bool
  /-- How many fragments the message has. -/
  count : UInt32
  /-- The message without a payload, as the first of its fragments tells it. -/
  head : Option Message
  /-- The payloads of the fragments, by their places. -/
  fragments : Std.TreeMap UInt32 Octets
  deriving Repr

namespace Assembly

def fresh (isReliable : Bool) (count : UInt32) : Assembly := ⟨isReliable, count, none, ∅⟩

def has (a : Assembly) (index : UInt32) : Bool := a.fragments.contains index

def isComplete (a : Assembly) : Bool := a.fragments.size = a.count.toNat

def put (a : Assembly) (index : UInt32) (m : Message) : Assembly :=
  { a with
    head := if index = 0 then some { m with fragment := none, payload := [] } else a.head
    fragments := a.fragments.insert index m.payload }

def message? (a : Assembly) : Option Message :=
  a.head.map fun m => { m with payload := a.fragments.toList.flatMap Prod.snd }

end Assembly

/-- The messages that are being put together, by the number that their fragments carry. -/
structure Assembler where
  assemblies : Std.TreeMap UInt16 Assembly
  maxFragmentCount : Nat
  maxAssemblies : Nat
  deriving Repr

namespace Assembler

def fresh (maxFragmentCount maxAssemblies : Nat) : Assembler :=
  ⟨∅, maxFragmentCount, maxAssemblies⟩

def pending (a : Assembler) : Nat := a.assemblies.size

def hasRoom (a : Assembler) : Bool := a.assemblies.size < a.maxAssemblies

/-- The assemblies that nobody counts on, as they were started by an unreliable fragment. -/
def dispensable (a : Assembler) : List UInt16 :=
  (a.assemblies.toList.filter fun entry => !entry.2.isReliable).map Prod.fst

/-- Whether a message can be taken in now. All can except a reliable fragment that would start an
assembly for which there is no room and none can be made. -/
def accepts (a : Assembler) (m : Message) : Bool :=
  match m.fragment with
  | none => true
  | some mark =>
    !m.reliability.isReliable || a.assemblies.contains mark.id || a.hasRoom
      || !a.dispensable.isEmpty

/-- Makes room for one more assembly, as far as that is possible without throwing out one that was
started by a reliable fragment. Of those that may go, as many as are too many are thrown out, here
in ascending order of id. Only how many go is laid down; which of them go is left open (a hash map
has no order to go by), and no result depends on it. -/
def makeRoom (a : Assembler) : Assembler :=
  if a.hasRoom then a
  else
    let excess := a.assemblies.size + 1 - a.maxAssemblies
    { a with assemblies := (a.dispensable.take excess).foldl (·.erase ·) a.assemblies }

/-- The assembly that a fragment belongs to, started if it is the first of its message. The
assembler may have changed even if there is no room. -/
def start (a : Assembler) (m : Message) (mark : FragmentMark) : Option Assembly × Assembler :=
  match a.assemblies[mark.id]? with
  | some assembly => (some assembly, a)
  | none =>
    let a := a.makeRoom
    if a.hasRoom then
      let assembly := Assembly.fresh m.reliability.isReliable mark.count
      (some assembly, { a with assemblies := a.assemblies.insert mark.id assembly })
    else (none, a)

/-- Puts a fragment into its assembly. Returns the message if this was the last one missing. A
fragment that is there already is ignored. -/
def join (a : Assembler) (m : Message) (mark : FragmentMark) (assembly : Assembly) :
    Option Message × Assembler :=
  if assembly.has mark.index then (none, a)
  else
    let assembly := assembly.put mark.index m
    if assembly.isComplete then
      (assembly.message?, { a with assemblies := a.assemblies.erase mark.id })
    else (none, { a with assemblies := a.assemblies.insert mark.id assembly })

def takeFragment (a : Assembler) (m : Message) (mark : FragmentMark) :
    Except Malformation (Option Message) × Assembler :=
  if mark.count ≤ mark.index then (.error (.fragmentIndex mark.index mark.id), a)
  else if a.maxFragmentCount < mark.count.toNat then
    (.error (.fragmentCount mark.count a.maxFragmentCount), a)
  else
    match a.start m mark with
    | (none, a) => (.error (.noRoom mark.id), a)
    | (some assembly, a) =>
      if assembly.count = mark.count then
        let (complete, a) := a.join m mark assembly
        (.ok complete, a)
      else
        (.error (.fragmentCountChanged mark.id mark.count assembly.count), a)

/-- Takes in a message. One that was not split is returned as it is; of one that was, nothing is
returned before the last of its fragments. -/
def take (a : Assembler) (m : Message) : Except Malformation (Option Message) × Assembler :=
  match m.fragment with
  | none => (.ok (some m), a)
  | some mark => a.takeFragment m mark

end Assembler

end Receiver

end DatagramTransport

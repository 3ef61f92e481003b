import DatagramTransport.Message
import Std.Data.TreeMap

/-!
# Order channels — what is delivered, and when

An **ordered** message waits until all earlier ones of its channel were delivered; what comes early
is kept, as long as it is not too far ahead. A **sequenced** message never waits and is dropped if
something as new or newer was delivered before. A channel does both, with separate counters.

Turning away what is too far ahead is a question of its own, `accepts`, that is asked before a
message is taken in: what was taken in must not be lost, and what was turned away comes again. A
message for a channel that does not exist is not turned away but malformed.
-/

set_option autoImplicit false

namespace DatagramTransport

namespace Receiver

/-- The receiving end of one order channel. -/
structure Channel where
  /-- The next ordered message that will be delivered. -/
  nextOrdered : Serial
  /-- Payloads of later ordered messages. -/
  held : Std.TreeMap Serial Octets
  /-- The oldest sequenced message that will be delivered. -/
  nextSequenced : Serial
  deriving Repr

namespace Channel

def fresh : Channel := ⟨Serial.zero, ∅, Serial.zero⟩

/-- The payloads that are held from a place on without a gap, the place behind them, and what is
still held. The payloads follow those that are there already, which are given last first. -/
def drainOnto (payloads : List Octets) (next : Serial) (held : Std.TreeMap Serial Octets) :
    List Octets × Serial × Std.TreeMap Serial Octets :=
  match _found : held[next]? with
  | none => (payloads.reverse, next, held)
  | some payload => drainOnto (payload :: payloads) next.next (held.erase next)
termination_by held.size
decreasing_by
  have hmem : next ∈ held := Std.TreeMap.mem_iff_isSome_getElem?.2 (by rw [_found]; rfl)
  have hsize : held.size ≠ 0 := fun h =>
    Std.TreeMap.not_mem_of_isEmpty (by rw [Std.TreeMap.isEmpty_eq_size_eq_zero, h]; rfl) hmem
  rw [Std.TreeMap.size_erase, if_pos (Std.TreeMap.contains_iff_mem.2 hmem)]
  omega

/-- The payloads that are held from a place on without a gap, the place behind them, and what is
still held. -/
def drain (next : Serial) (held : Std.TreeMap Serial Octets) :
    List Octets × Serial × Std.TreeMap Serial Octets :=
  drainOnto [] next held

/-- What is there already comes out in front and changes nothing. -/
theorem drainOnto_append (payloads more : List Octets) (next : Serial)
    (held : Std.TreeMap Serial Octets) :
    drainOnto (payloads ++ more) next held
      = (more.reverse ++ (drainOnto payloads next held).1, (drainOnto payloads next held).2) := by
  fun_induction drainOnto payloads next held with
  | case1 payloads next held h => rw [drainOnto]; split <;> simp_all
  | case2 payloads next held payload h ih => rw [drainOnto]; split <;> simp_all

theorem drain_of_none {next : Serial} {held : Std.TreeMap Serial Octets}
    (h : held[next]? = none) : drain next held = ([], next, held) := by
  rw [drain, drainOnto]
  split <;> simp_all

theorem drain_of_some {next : Serial} {held : Std.TreeMap Serial Octets} {payload : Octets}
    (h : held[next]? = some payload) :
    drain next held
      = (payload :: (drain next.next (held.erase next)).1,
          (drain next.next (held.erase next)).2) := by
  rw [drain, drainOnto]
  split
  · simp_all
  · rename_i found
    rw [h] at found
    cases found
    exact drainOnto_append [] [payload] next.next (held.erase next)

/-- Takes in an ordered message. Returns the payloads that are delivered because of it: none if it
is late, none yet if it is early. -/
def takeOrdered (index : Serial) (payload : Octets) (c : Channel) : List Octets × Channel :=
  let offset := index.distanceFrom c.nextOrdered
  if Serial.half ≤ offset then ([], c)
  else if 0 < offset then
    ([], { c with held := c.held.insertIfNew index payload })
  else
    let (payloads, next, held) := drain c.nextOrdered.next c.held
    (payload :: payloads, { c with nextOrdered := next, held := held })

/-- Takes in a sequenced message. Tells whether it is delivered. -/
def takeSequenced (index : Serial) (c : Channel) : Bool × Channel :=
  if index = c.nextSequenced ∨ index.isAfter c.nextSequenced then
    (true, { c with nextSequenced := index.next })
  else (false, c)

end Channel

/-- The receiving ends of all order channels. -/
structure Channels where
  channels : List Channel
  /-- How far ahead an ordered message may be. -/
  window : Nat
  deriving Repr

namespace Channels

def fresh (count window : Nat) : Channels := ⟨List.replicate count Channel.fresh, window⟩

def get? (cs : Channels) (channel : UInt8) : Option Channel := cs.channels[channel.toNat]?

def set (cs : Channels) (channel : UInt8) (c : Channel) : Channels :=
  { cs with channels := cs.channels.set channel.toNat c }

/-- Whether an ordered message may be taken in now. Late messages, and those for channels that do
not exist, may. -/
def accepts (cs : Channels) (order : OrderMark) : Bool :=
  match cs.get? order.channel with
  | none => true
  | some c =>
    let offset := order.index.distanceFrom c.nextOrdered
    Serial.half ≤ offset || offset < cs.window

/-- Takes in an ordered message and returns what is delivered. -/
def takeOrdered (order : OrderMark) (payload : Octets) (cs : Channels) :
    Except Malformation (List Octets × Channels) :=
  match cs.get? order.channel with
  | none => .error (.orderChannel order.channel)
  | some c =>
    let (payloads, c) := c.takeOrdered order.index payload
    .ok (payloads, cs.set order.channel c)

/-- Takes in a sequenced message and tells whether it is delivered. -/
def takeSequenced (order : OrderMark) (cs : Channels) : Except Malformation (Bool × Channels) :=
  match cs.get? order.channel with
  | none => .error (.orderChannel order.channel)
  | some c =>
    let (isDelivered, c) := c.takeSequenced order.index
    .ok (isDelivered, cs.set order.channel c)

end Channels

end Receiver

end DatagramTransport

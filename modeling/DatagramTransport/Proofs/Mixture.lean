import DatagramTransport.Proofs.Halves
import DatagramTransport.Proofs.Singles

/-!
# Mixture — when fragments of two payloads are put together

A fragment number has 16 bits and is given to a payload of two fragments at least, so it comes round
after 131072 indexes at the earliest. A window of 131071 places has left a payload when the number
is used again. **One place more is too many**, and this file shows by which order of arrival.

Payloads are cut in two and sent, twice round the fragment numbers and one more. First come those
of the first round, except the very first. Of that one comes the first half, and then that of the
payload one round later: it goes by the same number and is swallowed, though it counts as received.
With its second half the first payload is complete. Now comes the second half of the payload one
round later, which waits for a first half that will never come, until one comes from the payload of
the next round.

So the window of 131071 places is the widest that is safe, for all settings with which payloads are
split and put together at all.
-/

set_option autoImplicit false

namespace DatagramTransport

open Parcel (half pair)

/-- The first half of one payload and the second of another. -/
def Parcel.mixed (length n n' : Nat) : Parcel :=
  { pair length n with
    pieces := [half length n, half length n']
    nonempty := List.cons_ne_nil _ _ }

namespace Receiver

/-! ## An assembler with a half -/

namespace Assembler

variable {settings : Settings} {a : Assembler} {p q : Parcel} {has has' : Nat → Prop}
  {i j length n n' : Nat}

theorem Collects.not_mem (h : a.Collects [] has) (id : UInt16) : id ∉ a.assemblies := fun hid => by
  obtain ⟨p, hp, -⟩ := h.only id hid
  cases hp

theorem Collects.open_one (h : a.Collects [] has)
    (hnone : ∀ i < p.pieces.length, ¬ has' (p.first + i)) : a.Collects [p] has' where
  gathered := by
    intro q hq hopen
    obtain ⟨i, hi, hhas⟩ := hopen.started
    rw [List.mem_singleton.1 hq] at hi hhas
    exact absurd hhas (hnone i hi)
  only := fun id hid => absurd hid (h.not_mem id)

theorem Collects.close_one (h : a.Collects [p] has)
    (hall : ∀ i < p.pieces.length, has (p.first + i)) : a.Collects [] has' where
  gathered := fun q hq => nomatch hq
  only := by
    intro id hid
    obtain ⟨q, hq, hopen, -⟩ := h.only id hid
    obtain ⟨i, hi, hmissing⟩ := hopen.missing
    rw [List.mem_singleton.1 hq] at hi hmissing
    exact absurd (hall i hi) hmissing

/-- There is nothing but fragments of these parcels, in an assembler with the limits of settings. -/
structure Holding (settings : Settings) (ps : List Parcel) (has : Nat → Prop) (a : Assembler) :
    Prop where
  collects : a.Collects ps has
  maxFragmentCount_eq : a.maxFragmentCount = settings.maxFragmentCount
  maxAssemblies_eq : a.maxAssemblies = settings.maxAssemblies

/-- A fragment of one parcel is kept if nothing else is there. -/
theorem Holding.take (h : a.Holding settings [p] has) (hfits : 2 ≤ settings.maxFragmentCount)
    (htwo : p.pieces.length = 2) (hi : i < p.pieces.length) (hnew : ¬ has (p.first + i))
    (haccepts : a.accepts (p.message i p.pieces[i]) = true) :
    (a.take (p.message i p.pieces[i])).2.Holding settings [p] (fun k => has k ∨ k = p.first + i) ∧
      ((∀ k < p.pieces.length, has (p.first + k) ∨ p.first + k = p.first + i) →
        (a.take (p.message i p.pieces[i])).1 = .ok (some p.whole)) := by
  have hs : p.isSplit = true := decide_eq_true (by omega)
  have hfits' : p.pieces.length ≤ a.maxFragmentCount := by
    rw [h.maxFragmentCount_eq]
    omega
  obtain ⟨_, _, htake, hfragments, hassemblies, hcollects, hresult⟩ :=
    h.collects.take List.mem_cons_self hs hfits' (by omega) hi hnew haccepts
      (fun q hq _ _ => List.mem_singleton.1 hq)
      fun q hq _ hne => absurd (List.mem_singleton.1 hq) hne
  rw [htake]
  refine ⟨⟨hcollects, hfragments.trans h.maxFragmentCount_eq,
    hassemblies.trans h.maxAssemblies_eq⟩, fun hall => ?_⟩
  rcases hresult with ⟨-, rfl⟩ | ⟨⟨k, hk, hmissing⟩, -⟩
  · rfl
  · exact absurd (hall k hk) hmissing

/-- The half that comes first is kept. -/
theorem Holding.first (h : a.Holding settings [] has) (hpos : 0 < settings.maxAssemblies)
    (hfits : 2 ≤ settings.maxFragmentCount) (htwo : p.pieces.length = 2)
    (hi : i < p.pieces.length) :
    a.accepts (p.message i p.pieces[i]) = true ∧
      (a.take (p.message i p.pieces[i])).2.Holding settings [p] (· = p.first + i) := by
  have hs : p.isSplit = true := decide_eq_true (by omega)
  have hopen : a.Holding settings [p] fun _ => False :=
    ⟨h.collects.open_one fun _ _ => id, h.maxFragmentCount_eq, h.maxAssemblies_eq⟩
  have haccepts : a.accepts (p.message i p.pieces[i]) = true :=
    hopen.collects.accepts_of_few List.mem_cons_self hs (by rwa [h.maxAssemblies_eq]) i _
  obtain ⟨htake, -⟩ := hopen.take hfits htwo hi id haccepts
  simp only [false_or] at htake
  exact ⟨haccepts, htake⟩

/-- One half is there, and whatever goes by the number of its parcel has room. -/
theorem Holding.gathered (h : a.Holding settings [p] (· = p.first + i))
    (hfits : 2 ≤ settings.maxFragmentCount) (htwo : p.pieces.length = 2) (hi : i < 2) :
    (∃ assembly, a.assemblies[UInt16.ofNat p.cut]? = some assembly ∧
      assembly.Gathers p (· = i)) ∧
      ∀ (m : Message) (mark : FragmentMark), m.fragment = some mark →
        m.reliability.isReliable = true → mark.id = UInt16.ofNat p.cut → a.accepts m = true := by
  have hfits' : p.pieces.length ≤ a.maxFragmentCount := by
    rw [h.maxFragmentCount_eq]
    omega
  obtain ⟨assembly, hget, hgathers⟩ := h.collects.gathered p List.mem_cons_self
    ⟨decide_eq_true (by omega), hfits', ⟨i, by omega, rfl⟩, ⟨1 - i, by omega, by omega⟩⟩
  refine ⟨⟨assembly, hget, hgathers.congr fun k _ => Nat.add_left_cancel_iff⟩, ?_⟩
  intro m mark hmark hreliable hid
  refine (h.collects.accepts_iff hmark hreliable).2 (Or.inl ?_)
  rw [hid, Std.TreeMap.mem_iff_isSome_getElem?, hget]
  rfl

/-- The other half brings out the parcel. -/
theorem Holding.second (h : a.Holding settings [p] (· = p.first + i))
    (hfits : 2 ≤ settings.maxFragmentCount) (htwo : p.pieces.length = 2) (hi : i < 2)
    (hj : j < p.pieces.length) (hij : j ≠ i) :
    a.accepts (p.message j p.pieces[j]) = true ∧
      (a.take (p.message j p.pieces[j])).1 = .ok (some p.whole) ∧
      (a.take (p.message j p.pieces[j])).2.Holding settings [] fun _ => False := by
  have hs : p.isSplit = true := decide_eq_true (by omega)
  have haccepts : a.accepts (p.message j p.pieces[j]) = true :=
    (h.gathered hfits htwo hi).2 _ _ (Parcel.fragment_message hs j _)
      (Parcel.isReliable_of_isSplit hs) rfl
  have hall : ∀ k < p.pieces.length, p.first + k = p.first + i ∨ p.first + k = p.first + j := by
    omega
  obtain ⟨hheld, hwhole⟩ := h.take hfits htwo hj (by omega) haccepts
  exact ⟨haccepts, hwhole hall, hheld.collects.close_one hall, hheld.maxFragmentCount_eq,
    hheld.maxAssemblies_eq⟩

/-- **A fragment that goes by the number and the place of one that is there is swallowed**, whatever
parcel it is of. -/
theorem Holding.swallow (h : a.Holding settings [q] (· = q.first + i))
    (hfits : 2 ≤ settings.maxFragmentCount) (hq : q.pieces.length = 2)
    (hp : p.pieces.length = 2) (hi : i < 2) (hid : UInt16.ofNat p.cut = UInt16.ofNat q.cut)
    (x : Octets) : a.accepts (p.message i x) = true ∧ (a.take (p.message i x)).2 = a := by
  have hs : p.isSplit = true := decide_eq_true (by omega)
  obtain ⟨⟨assembly, hget, hgathers⟩, haccepts⟩ := h.gathered hfits hq hi
  refine ⟨haccepts _ _ (Parcel.fragment_message hs i x) (Parcel.isReliable_of_isSplit hs) hid, ?_⟩
  have hindex : ¬ UInt32.ofNat 2 ≤ UInt32.ofNat i := by
    obtain rfl | rfl : i = 0 ∨ i = 1 := by omega
    · decide
    · decide
  have hfits' : ¬ a.maxFragmentCount < (UInt32.ofNat 2).toNat := by
    rw [h.maxFragmentCount_eq]
    exact Nat.not_lt.2 hfits
  have hcount : assembly.count = UInt32.ofNat 2 := by rw [hgathers.count_eq, hq]
  have hhas : assembly.has (UInt32.ofNat i) = true :=
    (hgathers.has_iff (by omega) (by omega)).2 rfl
  rw [take_message hs]
  simp only [takeFragment, hp, if_neg hindex, if_neg hfits', Assembler.start, hid, hget, hcount,
    if_true, Assembler.join, hhas]

/-- **The second half of a payload is as good as that of another one with the same number.** -/
theorem Holding.mix (h : a.Holding settings [pair length n'] (· = 2 * n' + 1))
    (hfits : 2 ≤ settings.maxFragmentCount) (hid : UInt16.ofNat n = UInt16.ofNat n') :
    a.Holding settings [Parcel.mixed length n n'] (· = 2 * n + 1) := by
  have hone : 1 < (pair length n').pieces.length := Nat.one_lt_two
  obtain ⟨⟨assembly, hget, hgathers⟩, -⟩ :=
    h.gathered (p := pair length n') (i := 1) hfits rfl Nat.one_lt_two
  refine ⟨⟨fun r hr _ => ?_, fun id hmem => ?_⟩, h.maxFragmentCount_eq, h.maxAssemblies_eq⟩
  · rw [List.mem_singleton.1 hr]
    refine ⟨assembly, ?_, hgathers.isReliable_eq, hgathers.count_eq, ?_, ?_, ?_⟩
    · rw [← hget]
      exact congrArg (a.assemblies[·]?) hid
    · exact fun hzero => absurd hzero (Nat.ne_of_lt (Nat.lt_succ_self (2 * n)))
    · intro k hk heq
      obtain rfl : k = 1 := Nat.add_left_cancel heq
      exact hgathers.present 1 hone rfl
    · intro key hkey
      obtain ⟨k, hk, rfl, heq⟩ := hgathers.absent key hkey
      exact ⟨1, hk, rfl, heq⟩
  · obtain ⟨r, hr, -, heq⟩ := h.collects.only id hmem
    rw [List.mem_singleton.1 hr] at heq
    refine ⟨_, List.mem_cons_self, ⟨rfl, ?_, ⟨1, hone, rfl⟩, ⟨0, Nat.zero_lt_two, ?_⟩⟩,
      heq.trans hid.symm⟩
    · rwa [h.maxFragmentCount_eq]
    · exact Nat.ne_of_lt (Nat.lt_succ_self (2 * n))

end Assembler

end Receiver

namespace Exchange

open Receiver.Assembler (Holding)

variable {settings : Settings} {mtu mtu' : UInt16} {sent : Exchange} {length n : Nat}
  {has has' : Nat → Prop} {held held' : Receiver.Assembler → Prop}

/-! ## The order of arrival -/

/-- What was sent can come to the other end in such an order that these numbers are known and the
assembler is as it is said. -/
def Reaches (settings : Settings) (mtu mtu' : UInt16) (sent : Exchange) (has : Nat → Prop)
    (held : Receiver.Assembler → Prop) : Prop :=
  ∃ w, Run settings mtu mtu' Carried w ∧ w.accepted = sent.accepted ∧
    w.datagrams = sent.datagrams ∧ w.target.receiver.Knows settings has ∧
    held w.target.receiver.assembler

theorem Reaches.arrive (hreaches : Reaches settings mtu mtu' sent has held)
    (h : Posted settings mtu' length 131073 sent) (hpos : 0 < settings.receiveWindow) (k i : Nat)
    (hk : k < 131073) (hi : i < 2) (hnew : ¬ has (2 * k + i))
    (hnear : ∀ j, j + settings.receiveWindow ≤ 2 * k + i → has j)
    (hhas : ∀ j, has j ∨ j = 2 * k + i ↔ has' j)
    (htake : ∀ a, held a → a.accepts ((pair length k).message i (half length k)) = true ∧
      held' (a.take ((pair length k).message i (half length k))).2) :
    Reaches settings mtu mtu' sent has' held' := by
  obtain ⟨w, run, haccepted, hdatagrams, hknows, hheld⟩ := hreaches
  obtain ⟨haccepts, hheld'⟩ := htake _ hheld
  obtain ⟨hknows', hassembler, -⟩ :=
    hknows.receive hpos (by omega) hnew hnear rfl (Receiver.hasRoom_of_order_eq_none rfl haccepts)
  have hsame : (fun j => has j ∨ j = 2 * k + i) = has' := funext fun j => propext (hhas j)
  have hd := h.mem_datagrams hk hi
  rw [hsame] at hknows'
  rw [← hassembler] at hheld'
  rw [← hdatagrams] at hd
  exact ⟨_, run.next (e := .arrive _) hd, haccepted, hdatagrams, hknows', hheld'⟩

/-- Everything of the first round can come except the first payload. -/
theorem Posted.reaches_round (h : Posted settings mtu' length 131073 sent)
    (run : Run settings mtu mtu' Carried sent) (hwide : 131072 ≤ settings.receiveWindow)
    (hfits : 2 ≤ settings.maxFragmentCount) (hpos : 0 < settings.maxAssemblies) (hn : n ≤ 65535) :
    Reaches settings mtu mtu' sent (fun j => 2 ≤ j ∧ j < 2 * n + 2)
      (Holding settings [] fun _ => False) := by
  induction n with
  | zero =>
    have hnone : (fun j => 2 ≤ j ∧ j < 2 * 0 + 2) = fun _ => False :=
      funext fun j => eq_false (by omega)
    rw [hnone]
    refine ⟨sent, run, rfl, rfl, ?_, ?_⟩
    · rw [h.target_eq]
      exact Receiver.knows_fresh settings
    · rw [h.target_eq]
      exact ⟨Receiver.Assembler.collects_fresh _ _ fun _ => id, rfl, rfl⟩
  | succ n ih =>
    have hfirst : Reaches settings mtu mtu' sent (fun j => 2 ≤ j ∧ j < 2 * (n + 1) + 1)
        (Holding settings [pair length (n + 1)] (· = 2 * (n + 1) + 0)) := by
      refine (ih (by omega)).arrive h (by omega) (n + 1) 0 (by omega) (by omega) (by omega)
        (by omega) (by omega) fun a ha => ?_
      exact ha.first (p := pair length (n + 1)) hpos hfits rfl Nat.zero_lt_two
    refine hfirst.arrive h (by omega) (n + 1) 1 (by omega) (by omega) (by omega) (by omega)
      (by omega) fun a ha => ?_
    obtain ⟨haccepts, -, hheld⟩ := ha.second (i := 0) (j := 1) hfits rfl Nat.zero_lt_two
      Nat.one_lt_two Nat.one_ne_zero
    exact ⟨haccepts, hheld⟩

/-- And then a second half can be left that waits for a first half in vain. -/
theorem Posted.reaches_stale (h : Posted settings mtu' length 131073 sent)
    (run : Run settings mtu mtu' Carried sent) (hwide : 131072 ≤ settings.receiveWindow)
    (hfits : 2 ≤ settings.maxFragmentCount) (hpos : 0 < settings.maxAssemblies) :
    Reaches settings mtu mtu' sent (fun j => j < 131074)
      (Holding settings [pair length 65536] (· = 2 * 65536 + 1)) := by
  have hround := h.reaches_round run hwide hfits hpos (n := 65535) (Nat.le_refl _)
  have hfirst : Reaches settings mtu mtu' sent (fun j => j ≠ 1 ∧ j < 131072)
      (Holding settings [pair length 0] (· = 2 * 0 + 0)) := by
    refine hround.arrive h (by omega) 0 0 (by omega) (by omega) (by omega) (by omega) (by omega)
      fun a ha => ?_
    exact ha.first (p := pair length 0) hpos hfits rfl Nat.zero_lt_two
  have hswallowed : Reaches settings mtu mtu' sent (fun j => j ≠ 1 ∧ j < 131073)
      (Holding settings [pair length 0] (· = 2 * 0 + 0)) := by
    have hid : UInt16.ofNat 65536 = UInt16.ofNat 0 := by decide
    refine hfirst.arrive h (by omega) 65536 0 (by omega) (by omega) (by omega) (by omega)
      (by omega) fun a ha => ?_
    obtain ⟨haccepts, hsame⟩ := ha.swallow (p := pair length 65536) (i := 0) hfits rfl rfl
      Nat.zero_lt_two hid (half length 65536)
    exact ⟨haccepts, by rwa [hsame]⟩
  have hcomplete : Reaches settings mtu mtu' sent (fun j => j < 131073)
      (Holding settings [] fun _ => False) := by
    refine hswallowed.arrive h (by omega) 0 1 (by omega) (by omega) (by omega) (by omega)
      (by omega) fun a ha => ?_
    obtain ⟨haccepts, -, hheld⟩ := ha.second (i := 0) (j := 1) hfits rfl Nat.zero_lt_two
      Nat.one_lt_two Nat.one_ne_zero
    exact ⟨haccepts, hheld⟩
  refine hcomplete.arrive h (by omega) 65536 1 (by omega) (by omega) (by omega) (by omega)
    (by omega) fun a ha => ?_
  exact ha.first (p := pair length 65536) hpos hfits rfl Nat.one_lt_two

/-- **In a window of 131072 places halves of two payloads can be put together**, without that
anything is lost or comes twice. -/
theorem exists_mixed (hvalid : settings.Valid) (hmtu : settings.minMtu ≤ mtu) (mtu' : UInt16)
    (hwide : 131072 ≤ settings.receiveWindow) (hsend : 2 ≤ settings.maxFragmentsPerSend)
    (hfits : 2 ≤ settings.maxFragmentCount) :
    ∃ w, Run settings mtu mtu' Carried w ∧ w.created.length < Serial.half ∧
      ∃ d ∈ w.datagrams, ∃ m ∈ Receiver.reassembled d.messages w.target.receiver,
        ∀ s ∈ w.accepted, m.payload ≠ s.payload := by
  obtain ⟨hmin, -, hpos, -, -, -, hchannels⟩ := hvalid.bounds
  rw [UInt16.le_iff_toNat_le] at hmtu
  obtain ⟨length, hlength⟩ : ∃ length, mtu.toNat = length + 48 := ⟨mtu.toNat - 48, by omega⟩
  obtain ⟨sent, run, h⟩ := exists_posted hlength (by omega) hchannels hsend mtu' 131073
  obtain ⟨w, run', haccepted, hdatagrams, hknows, hheld⟩ := h.reaches_stale run hwide hfits hpos
  have hcreated : w.created.length < Serial.half := by
    rw [created, haccepted, ← created, h.length_created]
    decide
  have hd := h.mem_datagrams (k := 131072) (i := 0) (by omega) (by omega)
  rw [← hdatagrams] at hd
  -- the first half of the last payload, put to what has been waiting
  have hmixed : w.target.receiver.assembler.Holding settings [Parcel.mixed length 131072 65536]
      (· = 2 * 131072 + 1) := hheld.mix hfits (by decide)
  obtain ⟨haccepts, hwhole, -⟩ := hmixed.second (i := 1) (j := 0) hfits rfl Nat.one_lt_two
    Nat.zero_lt_two Nat.zero_ne_one
  have hadmission : w.target.receiver.admission
      ((pair length 131072).message 0 (half length 131072)) = .fresh :=
    hknows.admission (k := 262144) (by omega) (by omega) (by omega) rfl
      (Receiver.hasRoom_of_order_eq_none rfl haccepts)
  have hcompleted : w.target.receiver.completed?
      ((pair length 131072).message 0 (half length 131072))
      = some (Parcel.mixed length 131072 65536).whole := by
    have htake : (w.target.receiver.assembler.take
        ((pair length 131072).message 0 (half length 131072))).1
        = .ok (some (Parcel.mixed length 131072 65536).whole) := hwhole
    simp only [Receiver.completed?, hadmission, if_true, htake]
  refine ⟨w, run', hcreated, _, hd, (Parcel.mixed length 131072 65536).whole, ?_, ?_⟩
  · refine List.mem_append_left _ ?_
    rw [hcompleted]
    exact List.mem_cons_self
  · intro s hs heq
    rw [haccepted, h.accepted_eq] at hs
    obtain ⟨k, -, rfl⟩ := List.mem_map.1 hs
    have hhalves : half length 131072 ++ (half length 65536 ++ [])
        = half length k ++ (half length k ++ []) := heq
    obtain ⟨hfirst, hsecond⟩ := List.append_inj hhalves (by simp)
    have hsame : half length 131072 = half length 65536 :=
      hfirst.trans (List.append_cancel_right hsecond).symm
    rw [half, half, List.replicate_inj] at hsame
    exact absurd (hsame.2.resolve_left (by omega)) (by decide)

end Exchange

/-! ## Settings with which nothing is put together -/

namespace Receiver

theorem Assembler.maxFragmentCount_take (m : Message) (a : Assembler) :
    (a.take m).2.maxFragmentCount = a.maxFragmentCount := by
  have hroom : a.makeRoom.maxFragmentCount = a.maxFragmentCount := by
    unfold makeRoom
    split <;> rfl
  have hjoin : ∀ (a : Assembler) (mark : FragmentMark) (assembly : Assembly),
      (a.join m mark assembly).2.maxFragmentCount = a.maxFragmentCount := by
    intro a mark assembly
    unfold join
    split
    · rfl
    · simp only
      split <;> rfl
  have hstart : ∀ mark, (a.start m mark).2.maxFragmentCount = a.maxFragmentCount := by
    intro mark
    unfold start
    split
    · rfl
    · simp only
      split <;> exact hroom
  unfold take
  split
  · rfl
  next mark _ =>
    unfold takeFragment
    split
    · rfl
    · split
      · rfl
      · have hmark := hstart mark
        split
        next heq => rwa [heq] at hmark
        next heq =>
          rw [heq] at hmark
          split
          · exact (hjoin _ _ _).trans hmark
          · exact hmark

variable {settings : Settings} {ps : List Parcel} {t : Tally} {r : Receiver} {d : Datagram}
  {ms : List Message}

theorem maxFragmentCount_take (m : Message) (r : Receiver) :
    (r.take m).2.assembler.maxFragmentCount = r.assembler.maxFragmentCount := by
  cases h : r.admission m with
  | fresh => rw [(take_of_admission h).2, Assembler.maxFragmentCount_take]
  | duplicate | beyond => rw [Receiver.take, h]

theorem maxFragmentCount_collect (ms : List Message) (r : Receiver) :
    (Stepwise.collect take ms r).2.assembler.maxFragmentCount = r.assembler.maxFragmentCount := by
  induction ms generalizing r with
  | nil => rfl
  | cons m ms ih => rw [Stepwise.collect_cons, ih, maxFragmentCount_take]

theorem maxFragmentCount_receive (d : Datagram) (r : Receiver) :
    (r.receive d).2.assembler.maxFragmentCount = r.assembler.maxFragmentCount := by
  rcases receive_cases d r with ⟨r₀, heq, halike, -⟩ | ⟨r', heq, halike, -⟩
  · obtain ⟨r', hunpack, -, hassembler, -⟩ := unpack_eq d r₀
    rw [heq, hunpack, hassembler, maxFragmentCount_collect, halike.assembler_eq]
  · rw [heq]
    show r'.assembler.maxFragmentCount = _
    rw [halike.assembler_eq]

/-- Nothing is put together if whatever is split is split into more fragments than are allowed. -/
theorem reassembled_eq_nil (hm : Manifest settings ps t)
    (hmany : ∀ p ∈ ps, p.isSplit = true → r.assembler.maxFragmentCount < p.pieces.length)
    (hms : ∀ m ∈ ms, m ∈ Laid.created ps) : reassembled ms r = [] := by
  induction ms generalizing r with
  | nil => rfl
  | cons m ms ih =>
    rw [reassembled, ih (by rwa [maxFragmentCount_take]) fun m' hm' =>
      hms m' (List.mem_cons_of_mem _ hm'), List.append_nil]
    obtain ⟨p, hp, hmem⟩ := List.mem_flatMap.1 (hms m List.mem_cons_self)
    obtain ⟨i, hi, rfl⟩ := Parcel.mem_messages.1 hmem
    by_cases hs : p.isSplit = true
    · obtain ⟨cause, htake⟩ := Assembler.take_of_not_fits hs
        (Nat.lt_trans (hm.length_lt hp) (by decide)) hi (Nat.not_le.2 (hmany p hp hs))
      have hnone : r.completed? (p.message i p.pieces[i]) = none := by
        simp only [completed?, htake, ite_self]
      rw [hnone]
      exact ite_self []
    · rw [if_neg]
      rw [show (p.message i p.pieces[i]).fragment = none from if_neg hs]
      exact Bool.false_ne_true

end Receiver

namespace Exchange

variable {settings : Settings} {mtu mtu' : UInt16} {allowed : Exchange → Event → Prop}
  {w : Exchange}

theorem Course.maxFragmentCount_eq (course : Course settings mtu mtu' allowed w) :
    w.target.receiver.assembler.maxFragmentCount = settings.maxFragmentCount := by
  induction course with
  | start => rfl
  | clear _ ih => exact ih
  | @next w e _ _ ih =>
    cases e with
    | arrive d => exact (Receiver.maxFragmentCount_receive d w.target.receiver).trans ih
    | submit r channel payload =>
      simp only [step]
      split <;> exact ih
    | _ => exact ih

/-- **Exactly with these settings is everything that is put together what was accepted**, in all
runs: those with a window of 131071 places at the most, and those with which nothing is split or
nothing that is split is put together. -/
theorem reassembled_accepted_iff (hvalid : settings.Valid) (hmtu : settings.minMtu ≤ mtu) :
    (∀ w, Course settings mtu mtu' Carried w → w.created.length < Serial.half →
        ∀ d ∈ w.datagrams, ∀ m ∈ Receiver.reassembled d.messages w.target.receiver,
          ∃ s ∈ w.accepted, m.payload = s.payload) ↔
      settings.receiveWindow ≤ 131071 ∨ settings.maxFragmentsPerSend < 2 ∨
        settings.maxFragmentCount < 2 := by
  constructor
  · intro hall
    by_contra hnot
    simp only [not_or, Nat.not_le, Nat.not_lt] at hnot
    obtain ⟨hwide, hsend, hfits⟩ := hnot
    obtain ⟨w, run, few, d, hd, m, hm, hmixed⟩ :=
      exists_mixed hvalid hmtu mtu' hwide hsend hfits
    obtain ⟨s, hs, heq⟩ := hall w run.course few d hd m hm
    exact hmixed s hs heq
  · intro hsettings w course few d hd m hm
    rcases hsettings with hwindow | hlimits
    · obtain ⟨s, hs, -, first, -, rfl⟩ :=
        reassembled_accepted hvalid hmtu course few (Or.inl hwindow) hd hm
      exact ⟨s, hs, rfl⟩
    · obtain ⟨ps, t, hledger⟩ := course.ledger hvalid hmtu few
      have hmany : ∀ p ∈ ps, p.isSplit = true →
          w.target.receiver.assembler.maxFragmentCount < p.pieces.length := by
        intro p hp hs
        have htwo : 1 < p.pieces.length := of_decide_eq_true hs
        have hle := hledger.manifest.pieces_le p hp hs
        rw [course.maxFragmentCount_eq]
        omega
      rw [Receiver.reassembled_eq_nil hledger.manifest hmany (hledger.sent d hd)] at hm
      cases hm

/-- One place more than is safe, and settings as they are by default otherwise. -/
theorem not_reassembled_accepted_wide :
    ¬ ∀ w, Course { receiveWindow := 131072 } 1464 1464 Carried w →
      w.created.length < Serial.half → ∀ d ∈ w.datagrams,
        ∀ m ∈ Receiver.reassembled d.messages w.target.receiver,
          ∃ s ∈ w.accepted, m.payload = s.payload := by
  rw [reassembled_accepted_iff (by decide) (by decide)]
  decide

end Exchange

end DatagramTransport

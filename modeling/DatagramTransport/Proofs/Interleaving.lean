import DatagramTransport.Proofs.Assembly
import DatagramTransport.Proofs.Submissions

/-!
# Interleaving — fragments of many payloads in any order

What a queue has cut comes to an assembler, all of it, in any order, the fragments of many payloads
among each other and each any number of times. **Each payload comes out once**, at the arrival of
the last of its fragments that was missing, as it was accepted, and nothing is left behind. A copy
must not come when its payload is complete: the assembler has forgotten the payload by then and
would start anew.

`Collects` has what an assembler holds after a part of the arrivals, by the fragments that are among
them. The payloads have to be told apart for that, and there has to be room for all of them at once:
`Separate` says so of the parcels that a queue has made.
-/

set_option autoImplicit false

namespace DatagramTransport

namespace Submission

/-- All that it is sent as is there. -/
def Complete (arrived : List Message) (s : Submission) : Prop := ∀ m ∈ s.messages, m ∈ arrived

instance (arrived : List Message) (s : Submission) : Decidable (s.Complete arrived) :=
  inferInstanceAs (Decidable (∀ m ∈ s.messages, m ∈ arrived))

/-- The message that the fragments of a payload make up: it has the index of the first of them and
the guarantee of all of them. -/
def whole (s : Submission) : Message where
  reliability := s.reliability.ofFragments
  index := s.messages.head?.bind Message.index
  order := s.messages.head?.bind Message.order
  fragment := none
  payload := s.payload

/-- Each arrival is a fragment of a payload that is not complete by then. Something may have arrived
before. -/
def Due (payloads : List Submission) (arrived arrivals : List Message) : Prop :=
  ∀ (n : Nat) (h : n < arrivals.length), ∃ s ∈ payloads,
    arrivals[n] ∈ s.messages ∧ ¬ s.Complete (arrived ++ arrivals.take n)

instance (payloads : List Submission) (arrived arrivals : List Message) :
    Decidable (Due payloads arrived arrivals) :=
  inferInstanceAs (Decidable (∀ (n : Nat) (h : n < arrivals.length), ∃ s ∈ payloads,
    arrivals[n] ∈ s.messages ∧ ¬ s.Complete (arrived ++ arrivals.take n)))

theorem Due.cons {payloads : List Submission} {arrived rest : List Message} {m : Message}
    (h : Due payloads arrived (m :: rest)) :
    (∃ s ∈ payloads, m ∈ s.messages ∧ ¬ s.Complete arrived) ∧
      Due payloads (arrived ++ [m]) rest := by
  constructor
  · obtain ⟨s, hs, hm, hopen⟩ := h 0 (Nat.succ_pos _)
    rw [List.take_zero, List.append_nil] at hopen
    exact ⟨s, hs, hm, hopen⟩
  · intro n hn
    obtain ⟨s, hs, hm, hopen⟩ := h (n + 1) (Nat.succ_lt_succ hn)
    rw [List.take_succ_cons, List.append_cons] at hopen
    exact ⟨s, hs, hm, hopen⟩

end Submission

theorem Parcel.whole_submission {p : Parcel} (h : p.isSplit = true) :
    p.submission.whole = p.whole := by
  obtain ⟨piece, rest, hpieces⟩ := List.exists_cons_of_ne_nil p.nonempty
  have hhead : p.messages.head? = some (p.message 0 piece) := by
    rw [messages, hpieces, List.mapIdx_cons, List.head?_cons]
  have hsent : p.sentAs = p.reliability.ofFragments := if_pos h
  simp only [Submission.whole, submission, hhead, Option.bind_some, whole, message, hsent]

namespace Receiver

namespace Assembler

variable {a : Assembler} {ps : List Parcel} {p q : Parcel} {has : Nat → Prop} {i j : Nat}
  {arrived arrivals : List Message} {m : Message}

/-- Parcels whose fragments can be told apart, none of them in too many pieces. -/
structure Separate (ps : List Parcel) (maxFragmentCount : Nat) : Prop where
  few : maxFragmentCount < 4294967296
  nodup : ps.Nodup
  isSplit : ∀ p ∈ ps, p.isSplit = true
  fits : ∀ p ∈ ps, p.pieces.length ≤ maxFragmentCount
  alone : ∀ p ∈ ps, ∀ q ∈ ps, UInt16.ofNat q.cut = UInt16.ofNat p.cut → q = p
  apart : ∀ p ∈ ps, ∀ q ∈ ps, q ≠ p → ∀ i < p.pieces.length, ∀ j < q.pieces.length,
    q.first + j ≠ p.first + i

/-- The fragment with an index is among the arrivals. -/
def Here (ps : List Parcel) (arrived : List Message) (k : Nat) : Prop :=
  ∃ p ∈ ps, ∃ i, ∃ h : i < p.pieces.length, p.first + i = k ∧ p.message i p.pieces[i] ∈ arrived

section Separate

variable {most : Nat} (sep : Separate ps most)
include sep

theorem Separate.length_lt (hp : p ∈ ps) : p.pieces.length < 4294967296 :=
  Nat.lt_of_le_of_lt (sep.fits p hp) sep.few

theorem Separate.eq_of_mem (hp : p ∈ ps) (hq : q ∈ ps) (hmp : m ∈ p.messages)
    (hmq : m ∈ q.messages) : q = p := by
  obtain ⟨i, hi, rfl⟩ := Parcel.mem_messages.1 hmp
  obtain ⟨j, hj, heq⟩ := Parcel.mem_messages.1 hmq
  have hmark := congrArg Message.fragment heq
  rw [Parcel.fragment_message (sep.isSplit p hp), Parcel.fragment_message (sep.isSplit q hq),
    Option.some.injEq] at hmark
  exact sep.alone p hp q hq (congrArg FragmentMark.id hmark).symm

theorem Separate.here_iff (hp : p ∈ ps) (hi : i < p.pieces.length) :
    Here ps arrived (p.first + i) ↔ p.message i p.pieces[i] ∈ arrived := by
  constructor
  · rintro ⟨q, hq, j, hj, hindex, hmem⟩
    by_cases hqp : q = p
    · subst hqp
      obtain rfl : j = i := by omega
      exact hmem
    · exact absurd hindex (sep.apart p hp q hq hqp i hi j hj)
  · exact fun hmem => ⟨p, hp, i, hi, rfl, hmem⟩

theorem Separate.complete_iff (hp : p ∈ ps) :
    p.submission.Complete arrived ↔ ∀ i < p.pieces.length, Here ps arrived (p.first + i) := by
  constructor
  · exact fun h i hi => (sep.here_iff hp hi).2 (h _ (Parcel.mem_messages.2 ⟨i, hi, rfl⟩))
  · intro h m hm
    obtain ⟨i, hi, rfl⟩ := Parcel.mem_messages.1 hm
    exact (sep.here_iff hp hi).1 (h i hi)

/-- One more fragment of a parcel is one more index. -/
theorem Separate.here_snoc (hp : p ∈ ps) (hi : i < p.pieces.length) (hq : q ∈ ps)
    (hj : j < q.pieces.length) :
    (Here ps arrived (q.first + j) ∨ q.first + j = p.first + i)
      ↔ Here ps (arrived ++ [p.message i p.pieces[i]]) (q.first + j) := by
  rw [sep.here_iff hq hj, sep.here_iff hq hj, List.mem_append, List.mem_singleton]
  refine or_congr_right ⟨fun hindex => ?_, fun hmessage => ?_⟩
  · by_cases hqp : q = p
    · subst hqp
      obtain rfl : j = i := by omega
      rfl
    · exact absurd hindex (sep.apart p hp q hq hqp i hi j hj)
  · obtain rfl : q = p := sep.eq_of_mem hp hq
      (hmessage ▸ Parcel.mem_messages.2 ⟨i, hi, rfl⟩) (Parcel.mem_messages.2 ⟨j, hj, rfl⟩)
    have hmark := congrArg Message.fragment hmessage
    rw [Parcel.fragment_message (sep.isSplit q hq), Parcel.fragment_message (sep.isSplit q hq),
      Option.some.injEq] at hmark
    have hlength := sep.length_lt hq
    rw [Assembly.ofNat_inj_of_lt (by omega) (by omega) (congrArg FragmentMark.index hmark)]

/-- An arrival completes no parcel but its own. -/
theorem Separate.complete_snoc_of_ne (hp : p ∈ ps) (hq : q ∈ ps) (hm : m ∈ p.messages)
    (hne : q ≠ p) : q.submission.Complete (arrived ++ [m]) ↔ q.submission.Complete arrived := by
  constructor
  · intro h m' hm'
    rcases List.mem_append.1 (h m' hm') with hold | hnew
    · exact hold
    · rw [List.mem_singleton.1 hnew] at hm'
      exact absurd (sep.eq_of_mem hp hq hm hm') hne
  · exact fun h m' hm' => List.mem_append_left _ (h m' hm')

end Separate

/-! ## One arrival -/

/-- A fragment that is there already is ignored. -/
theorem Collects.take_again (h : a.Collects ps has) (hp : p ∈ ps)
    (hlength : p.pieces.length < 4294967296) (hi : i < p.pieces.length)
    (hopen : Open p a.maxFragmentCount has) (hhas : has (p.first + i)) :
    a.take (p.message i p.pieces[i]) = (.ok none, a) := by
  obtain ⟨assembly, hget, hgathers⟩ := h.gathered p hp hopen
  have hmark := Parcel.fragment_message hopen.isSplit i p.pieces[i]
  have hthere : assembly.has (UInt32.ofNat i) = true := (hgathers.has_iff hlength hi).2 hhas
  have hstart : a.start (p.message i p.pieces[i])
      ⟨UInt32.ofNat p.pieces.length, UInt16.ofNat p.cut, UInt32.ofNat i⟩ = (some assembly, a) := by
    rw [Assembler.start, hget]
  rw [take_of_fits hopen.isSplit hlength hi hopen.fits hmark hstart hgathers.count_eq,
    Assembler.join, if_pos hthere]

/-- **One arrival**: it brings out its parcel if it completes it, and nothing otherwise. -/
theorem Collects.arrive (h : a.Collects ps (Here ps arrived)) (sep : Separate ps a.maxFragmentCount)
    (hmany : ps.length ≤ a.maxAssemblies) (hp : p ∈ ps) (hm : m ∈ p.messages)
    (hdue : ¬ p.submission.Complete arrived) :
    ∃ a', a.take m
        = (.ok (if p.submission.Complete (arrived ++ [m]) then some p.whole else none), a') ∧
      a'.maxFragmentCount = a.maxFragmentCount ∧ a'.maxAssemblies = a.maxAssemblies ∧
      a'.Collects ps (Here ps (arrived ++ [m])) := by
  have hs := sep.isSplit p hp
  have hlength := sep.length_lt hp
  obtain ⟨i, hi, rfl⟩ := Parcel.mem_messages.1 hm
  by_cases hnew : Here ps arrived (p.first + i)
  · -- a copy: its parcel is open, as something of it is there and something is missing
    have hmem := (sep.here_iff hp hi).1 hnew
    have hmissing : ∃ j < p.pieces.length, ¬ Here ps arrived (p.first + j) := by
      simpa only [sep.complete_iff hp, not_forall, exists_prop] using hdue
    have hstays : ¬ p.submission.Complete (arrived ++ [p.message i p.pieces[i]]) := fun hall =>
      hdue fun m' hm' => (List.mem_append.1 (hall m' hm')).elim id fun heq =>
        List.mem_singleton.1 heq ▸ hmem
    have htake := h.take_again hp hlength hi ⟨hs, sep.fits p hp, ⟨i, hi, hnew⟩, hmissing⟩ hnew
    refine ⟨a, by rw [htake, if_neg hstays], rfl, rfl, h.congr fun q hq _ _ j hj => ?_⟩
    rw [← sep.here_snoc hp hi hq hj]
    exact (or_iff_left_of_imp fun heq => heq ▸ hnew).symm
  · have haccepts := h.accepts_of_few hp hs hmany i p.pieces[i]
    obtain ⟨result, a', htake, hmax, hmax', hcollects, hresult⟩ :=
      h.take hp hs (sep.fits p hp) hlength hi hnew haccepts
        (fun q hq _ hid => sep.alone p hp q hq hid)
        fun q hq _ hne j hj => sep.apart p hp q hq hne i hi j hj
    have hcomplete : p.submission.Complete (arrived ++ [p.message i p.pieces[i]])
        ↔ ∀ j < p.pieces.length, Here ps arrived (p.first + j) ∨ p.first + j = p.first + i := by
      rw [sep.complete_iff hp]
      exact forall₂_congr fun j hj => (sep.here_snoc hp hi hp hj).symm
    refine ⟨a', ?_, hmax, hmax', hcollects.congr fun q hq _ _ j hj => sep.here_snoc hp hi hq hj⟩
    rcases hresult with ⟨hall, rfl⟩ | ⟨⟨j, hj, hmissing⟩, rfl⟩
    · rw [htake, if_pos (hcomplete.2 hall)]
    · rw [htake, if_neg fun hall => hmissing (hcomplete.1 hall j hj)]

/-! ## All arrivals -/

def takeAll (arrivals : List Message) (a : Assembler) :
    List (Except Malformation (Option Message)) × Assembler :=
  Stepwise.collect (fun m a => a.take m) arrivals a

/-- The messages among the results. -/
def returned (results : List (Except Malformation (Option Message))) : List Message :=
  results.filterMap fun
    | .ok complete => complete
    | .error _ => none

theorem returned_ok_cons (complete : Option Message)
    (results : List (Except Malformation (Option Message))) :
    returned (.ok complete :: results) = complete.toList ++ returned results := by
  cases complete <;> rfl

/-- What an arrival completes is the one parcel that it brings out. -/
theorem Separate.perm_whole {most : Nat} (sep : Separate ps most) (hp : p ∈ ps)
    (hm : m ∈ p.messages) (hdue : ¬ p.submission.Complete arrived) :
    ((if p.submission.Complete (arrived ++ [m]) then some p.whole else none).toList
        ++ (ps.filter fun q => q.submission.Complete arrived).map Parcel.whole).Perm
      ((ps.filter fun q => q.submission.Complete (arrived ++ [m])).map Parcel.whole) := by
  have hother : ∀ q ∈ ps, q ≠ p →
      (q.submission.Complete (arrived ++ [m]) ↔ q.submission.Complete arrived) :=
    fun q hq hne => sep.complete_snoc_of_ne hp hq hm hne
  by_cases hnow : p.submission.Complete (arrived ++ [m])
  · rw [if_pos hnow]
    have hnot : p ∉ ps.filter fun q => q.submission.Complete arrived := by
      simp [hdue]
    have hperm : (p :: ps.filter fun q => q.submission.Complete arrived).Perm
        (ps.filter fun q => q.submission.Complete (arrived ++ [m])) := by
      refine (List.perm_ext_iff_of_nodup (List.nodup_cons.2 ⟨hnot, sep.nodup.filter _⟩)
        (sep.nodup.filter _)).2 fun q => ?_
      by_cases hqp : q = p
      · simp [hqp, hp, hnow]
      · simp only [List.mem_cons, hqp, false_or, List.mem_filter, decide_eq_true_eq]
        exact and_congr_right fun hq => (hother q hq hqp).symm
    exact hperm.map Parcel.whole
  · rw [if_neg hnow]
    refine List.Perm.of_eq (congrArg (List.map Parcel.whole) (List.filter_congr fun q hq => ?_))
    by_cases hqp : q = p
    · simp [hqp, hdue, hnow]
    · simp [hother q hq hqp]

/-- **All arrivals**, from any point on: each brings out its parcel if it completes it, and what is
brought out are the parcels that were completed. -/
theorem Collects.takeAll (h : a.Collects ps (Here ps arrived))
    (sep : Separate ps a.maxFragmentCount) (hmany : ps.length ≤ a.maxAssemblies)
    (hdue : Submission.Due (ps.map Parcel.submission) arrived arrivals) :
    (∀ (n : Nat) (m : Message), arrivals[n]? = some m → ∀ p ∈ ps, m ∈ p.messages →
      (a.takeAll arrivals).1[n]? = some (.ok
        (if p.submission.Complete (arrived ++ arrivals.take (n + 1)) then some p.whole
          else none))) ∧
    (returned (a.takeAll arrivals).1
        ++ (ps.filter fun p => p.submission.Complete arrived).map Parcel.whole).Perm
      ((ps.filter fun p => p.submission.Complete (arrived ++ arrivals)).map Parcel.whole) ∧
    (a.takeAll arrivals).2.Collects ps (Here ps (arrived ++ arrivals)) := by
  induction arrivals generalizing a arrived with
  | nil =>
    rw [List.append_nil]
    exact ⟨fun n m hget => absurd hget (by simp), List.Perm.refl _, h⟩
  | cons m rest ih =>
    obtain ⟨⟨s, hs, hm, hopen⟩, hrest⟩ := hdue.cons
    obtain ⟨p, hp, rfl⟩ := List.mem_map.1 hs
    obtain ⟨a', htake, hmax, hmax', h'⟩ := h.arrive sep hmany hp hm hopen
    obtain ⟨hresults, hperm, hcollects⟩ := ih h' (hmax ▸ sep) (hmax' ▸ hmany) hrest
    have hall : a.takeAll (m :: rest)
        = (.ok (if p.submission.Complete (arrived ++ [m]) then some p.whole else none)
            :: (a'.takeAll rest).1, (a'.takeAll rest).2) := by
      rw [Assembler.takeAll, Stepwise.collect_cons, htake]
      rfl
    rw [hall]
    refine ⟨fun n m' hget q hq hmq => ?_, ?_, ?_⟩
    · cases n with
      | zero =>
        obtain rfl : m = m' := Option.some.inj hget
        obtain rfl := sep.eq_of_mem hp hq hm hmq
        rfl
      | succ n =>
        have hresult := hresults n m' hget q hq hmq
        rw [List.append_assoc] at hresult
        exact hresult
    · have hone := sep.perm_whole hp hm hopen
      rw [List.append_assoc] at hperm
      rw [returned_ok_cons, List.append_assoc]
      exact (List.perm_append_comm_assoc _ _ _).trans ((hone.append_left _).trans hperm)
    · rwa [List.append_assoc] at hcollects

theorem collects_nothing (maxFragmentCount maxAssemblies : Nat) :
    (fresh maxFragmentCount maxAssemblies).Collects ps (Here ps []) := by
  refine collects_fresh _ _ fun k hhere => ?_
  obtain ⟨p, -, i, hi, -, hmem⟩ := hhere
  cases hmem

theorem Separate.not_complete_nil {most : Nat} (sep : Separate ps most) (hp : p ∈ ps) :
    ¬ p.submission.Complete [] := fun hall => by
  obtain ⟨q, -, i, hi, -, hmem⟩ := (sep.complete_iff hp).1 hall 0 p.length_pos
  cases hmem

/-- Nothing is left of parcels that are complete. -/
theorem Collects.pending_eq_zero {most : Nat} (h : a.Collects ps (Here ps arrived))
    (sep : Separate ps most) (hall : ∀ p ∈ ps, p.submission.Complete arrived) : a.pending = 0 := by
  have hempty : a.assemblies.isEmpty = true := by
    refine Std.TreeMap.isEmpty_iff_forall_not_mem.2 fun id hid => ?_
    obtain ⟨p, hp, hopen, -⟩ := h.only id hid
    obtain ⟨i, hi, hmissing⟩ := hopen.missing
    exact hmissing ((sep.complete_iff hp).1 (hall p hp) i hi)
  rwa [Std.TreeMap.isEmpty_eq_size_eq_zero, beq_iff_eq] at hempty

/-! ## What one queue has made -/

/-- The parcels that a queue has cut can be told apart until the fragment numbers come round. -/
theorem separate_of_numbered {start t : Tally} {most : Nat} (h : Numbered start ps t)
    (hmost : most < 4294967296) (hfew : (ps.filter Parcel.isSplit).length ≤ 65536)
    (hfits : ∀ p ∈ ps.filter Parcel.isSplit, p.pieces.length ≤ most) :
    Separate (ps.filter Parcel.isSplit) most where
  few := hmost
  nodup := h.nodup_reliable.sublist
    (List.monotone_filter_right ps fun _ hs => Parcel.isReliable_of_isSplit hs)
  isSplit := fun p hp => (List.mem_filter.1 hp).2
  fits := hfits
  alone := by
    intro p hp q hq hid
    obtain ⟨hp, hps⟩ := List.mem_filter.1 hp
    obtain ⟨hq, hqs⟩ := List.mem_filter.1 hq
    have hmod := congrArg UInt16.toNat hid
    simp only [UInt16.toNat_ofNat'] at hmod
    -- all the numbers lie within one turn of the counter
    rw [← List.countP_eq_length_filter] at hfew
    have hcuts := h.cuts_eq
    have hpcut := (h.past p hp).cut_lt hps
    have hqcut := (h.past q hq).cut_lt hqs
    have hpstart := h.cuts_le p hp
    have hqstart := h.cuts_le q hq
    rcases h.trichotomy hp hq with heq | hpq | hqp
    · exact heq.symm
    · have := hpq.cut_lt hps
      omega
    · have := hqp.cut_lt hqs
      omega
  apart := by
    intro p hp q hq hne i hi j hj
    obtain ⟨hp, hps⟩ := List.mem_filter.1 hp
    obtain ⟨hq, hqs⟩ := List.mem_filter.1 hq
    have hpspan := Parcel.span_of_isReliable (Parcel.isReliable_of_isSplit hps)
    have hqspan := Parcel.span_of_isReliable (Parcel.isReliable_of_isSplit hqs)
    rcases h.trichotomy hp hq with heq | hpq | hqp
    · exact absurd heq.symm hne
    · have := hpq.stop_le
      simp only [Parcel.stop] at this
      omega
    · have := hqp.stop_le
      simp only [Parcel.stop] at this
      omega

open Sender (Queue)

variable {settings : Settings} {mtu : UInt16} {q : Queue} {cut : List Submission}

/-- **Reassembly undoes cutting.** Take the payloads that a queue has cut in the course of any
calls, and let all of their fragments arrive, in any order and any number of times, except that none
comes when its payload is complete. If there is room for as many assemblies, and no payload has too
many fragments, every arrival is taken in: it brings out its payload as it was accepted if that is
complete now, and nothing otherwise. So each payload comes out once, and nothing is left behind. -/
theorem brings_out_each_once (hvalid : settings.Valid) (hmtu : settings.minMtu ≤ mtu)
    (hcount : settings.maxFragmentCount < 4294967296) (hq : q.Suits settings mtu)
    (calls : List Queue.Call)
    (hcut : ((⟨q, []⟩ : Queue.Watched).steps calls).accepted.filter Submission.isCut = cut)
    (hassemblies : cut.length ≤ settings.maxAssemblies) (hnumbers : cut.length < 65536)
    (hfits : ∀ s ∈ cut, s.messages.length ≤ settings.maxFragmentCount) (arrivals : List Message)
    (hdue : Submission.Due cut [] arrivals) (hall : ∀ s ∈ cut, s.Complete arrivals) :
    let out := (fresh settings.maxFragmentCount settings.maxAssemblies).takeAll arrivals
    (∀ (n : Nat) (m : Message), arrivals[n]? = some m → ∀ s ∈ cut, m ∈ s.messages →
      out.1[n]? = some (.ok
        (if s.Complete (arrivals.take (n + 1)) then some s.whole else none))) ∧
    (returned out.1).Perm (cut.map Submission.whole) ∧ out.2.pending = 0 := by
  intro out
  obtain ⟨ps, t, h⟩ := (Queue.follows_start q.counts_tally hq).steps hvalid hmtu calls
  rw [h.accepted_eq, Parcel.filter_submission _ _ Parcel.isCut_submission] at hcut
  subst hcut
  have hwhole : ∀ p ∈ ps.filter Parcel.isSplit, p.submission.whole = p.whole := fun p hp =>
    Parcel.whole_submission (List.mem_filter.1 hp).2
  simp only [List.length_map, List.forall_mem_map] at hassemblies hnumbers hfits hall
  have hsep : Separate (ps.filter Parcel.isSplit) settings.maxFragmentCount :=
    separate_of_numbered h.numbered hcount (Nat.le_of_lt hnumbers) fun p hp =>
      p.length_messages ▸ hfits p hp
  obtain ⟨hresults, hperm, hcollects⟩ :=
    (collects_nothing _ _).takeAll hsep hassemblies hdue
  refine ⟨fun n m hget s hs hm => ?_, ?_, hcollects.pending_eq_zero hsep hall⟩
  · obtain ⟨p, hp, rfl⟩ := List.mem_map.1 hs
    rw [hwhole p hp]
    exact hresults n m hget p hp hm
  · have hnone : (ps.filter Parcel.isSplit).filter (fun p => p.submission.Complete []) = [] :=
      List.filter_eq_nil_iff.2 fun p hp hnil => hsep.not_complete_nil hp (of_decide_eq_true hnil)
    have hevery : (ps.filter Parcel.isSplit).filter (fun p => p.submission.Complete arrivals)
        = ps.filter Parcel.isSplit :=
      List.filter_eq_self.2 fun p hp => decide_eq_true (hall p hp)
    have hmap : (ps.filter Parcel.isSplit).map (Submission.whole ∘ Parcel.submission)
        = (ps.filter Parcel.isSplit).map Parcel.whole := List.map_congr_left hwhole
    rw [hnone, List.map_nil, List.append_nil, List.nil_append, hevery] at hperm
    rwa [List.map_map, hmap]

/-- Two payloads, of two fragments and of three, that arrive from the end on and among each other,
three of the fragments twice. -/
theorem brings_out_each_once_mixed :
    let settings : Settings := {}
    let empty := Queue.fresh 400 32 128
    let calls : List Queue.Call :=
      [.enqueue .unreliable 0 (List.replicate 400 1) none, .enqueue .reliable 0 [5] none, .pack 1,
        .enqueue .reliableOrdered 3 (List.replicate 800 2) none]
    let s := (⟨empty, []⟩ : Queue.Watched).steps calls
    let cut := s.accepted.filter Submission.isCut
    let arrivals := [4, 1, 4, 3, 1, 0, 3, 5].filterMap (s.created[·]?)
    let out := (fresh 128 64).takeAll arrivals
    settings.Valid ∧ settings.minMtu ≤ 400 ∧ empty.Suits settings 400 ∧
      cut.map (fun s => s.messages.length) = [2, 3] ∧ arrivals.length = 8 ∧
      Submission.Due cut [] arrivals ∧ (∀ s ∈ cut, s.Complete arrivals) ∧
      (returned out.1).map (fun m => (m.reliability, m.payload.length))
        = [(.reliable, 400), (.reliableOrdered, 800)] ∧
      (returned out.1).Perm (cut.map Submission.whole) ∧ out.2.pending = 0 := by
  intro settings empty calls s cut arrivals out
  have hvalid : settings.Valid := by decide +kernel
  have hmtu : settings.minMtu ≤ 400 := by decide
  have hq : empty.Suits settings 400 := Queue.suits_fresh settings 400
  have hcut : s.accepted.filter Submission.isCut = cut := rfl
  have hlengths : cut.map (fun s => s.messages.length) = [2, 3] := by decide +kernel
  have hassemblies : cut.length ≤ settings.maxAssemblies := by decide +kernel
  have hnumbers : cut.length < 65536 := by decide +kernel
  have hfits : ∀ s ∈ cut, s.messages.length ≤ settings.maxFragmentCount := by decide +kernel
  have hdue : Submission.Due cut [] arrivals := by decide +kernel
  have hall : ∀ s ∈ cut, s.Complete arrivals := by decide +kernel
  obtain ⟨-, hperm, hpending⟩ :=
    brings_out_each_once hvalid hmtu (by decide) hq calls hcut hassemblies hnumbers hfits arrivals
      hdue hall
  exact ⟨hvalid, hmtu, hq, hlengths, by decide +kernel, hdue, hall, by decide +kernel, hperm,
    hpending⟩

end Assembler

end Receiver

end DatagramTransport

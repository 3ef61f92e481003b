import DatagramTransport.Proofs.Completion

/-!
# Rows — what comes out with the guarantee of another

An ordered payload that comes early waits for those before it, and **what waits is the payload
alone**. When the last of those before it is complete, the payload comes out with it, on the right
channel and in the right order, but with the guarantee of the one that it has waited for.

So what comes out of a channel falls into rows. A row is led by a parcel that comes out as soon as
it is complete and therefore as itself; those behind it were complete before. Read one after the
other the rows are what comes next in the order of the channel, whatever the order of arrival.

Nothing ever waits if one of the two windows has a single place: then every row has one parcel.
-/

set_option autoImplicit false

namespace DatagramTransport

namespace Submission

/-- What comes out if it comes out with the guarantee that it was accepted with. -/
def own (s : Submission) : Delivery := ⟨s.reliability, s.channel, s.payload⟩

/-- What comes out of a row: all of it with the guarantee of the first. -/
def together : List Submission → List Delivery
  | [] => []
  | s :: waiting => (s :: waiting).map fun q => ⟨s.reliability, q.channel, q.payload⟩

@[simp] theorem length_together (row : List Submission) :
    (together row).length = row.length := by
  cases row with
  | nil => rfl
  | cons s waiting => rw [together, List.length_map]

/-- The only one in a row comes out as itself. -/
theorem together_eq_map_own {row : List Submission} (h : row.length ≤ 1) :
    together row = row.map own := by
  match row, h with
  | [], _ => rfl
  | [s], _ => rfl

/-- All of a row comes out on its channel. -/
theorem filter_together {channel c : UInt8} {row : List Submission}
    (h : ∀ s ∈ row, s.isOrderedOn channel = true) :
    (together row).filter (Delivery.isOrderedOn c) = if channel = c then together row else [] := by
  cases row with
  | nil => rw [together, List.filter_nil, ite_self]
  | cons s waiting =>
    have ho : s.reliability.isOrdered = true :=
      (Bool.and_eq_true_iff.1 (h s List.mem_cons_self)).1
    have hchannel : ∀ q ∈ s :: waiting, q.channel = channel := fun q hq =>
      beq_iff_eq.1 (Bool.and_eq_true_iff.1 (h q hq)).2
    split
    next heq =>
      refine List.filter_eq_self.2 fun d hd => ?_
      obtain ⟨q, hq, rfl⟩ := List.mem_map.1 hd
      rw [Delivery.isOrderedOn, ho, hchannel q hq, heq, beq_self_eq_true, Bool.and_true]
    next hne =>
      refine List.filter_eq_nil_iff.2 fun d hd => ?_
      obtain ⟨q, hq, rfl⟩ := List.mem_map.1 hd
      rw [Delivery.isOrderedOn, hchannel q hq, beq_false_of_ne hne, Bool.and_false]
      exact Bool.false_ne_true

end Submission

namespace Parcel

def together (row : List Parcel) : List Delivery :=
  Submission.together (row.map Parcel.submission)

theorem together_cons (p : Parcel) (waiting : List Parcel) :
    together (p :: waiting)
      = (p :: waiting).map fun q => ⟨p.reliability, q.channel, q.payload⟩ := by
  rw [together, List.map_cons, Submission.together, ← List.map_cons, List.map_map]
  rfl

end Parcel

namespace Receiver

variable {settings : Settings} {ps done : List Parcel} {t : Tally} {out ds : List Delivery}
  {r : Receiver} {p q : Parcel} {cs cs' : Channels} {m : Message} {ms : List Message} {c : UInt8}
  {i n : Nat}

/-! ## A row comes out -/

/-- What may come out with `p`, when `done` are complete and `n` came out of the channel: the next
ones, of which `p` is the first and all others are complete. -/
structure Row (ps done : List Parcel) (c : UInt8) (n : Nat) (p : Parcel) (row : List Parcel) :
    Prop where
  next : row <+: (ps.filter (Parcel.isOrderedOn c)).drop n
  head : ∀ q ∈ row.head?, q = p
  waited : ∀ q ∈ row.tail, q ∈ done

/-- What an ordered parcel brings out, as payloads: some of those that come next, if it is the first
of them, and as far as they are complete. -/
theorem payloads_of_release (hm : Manifest settings ps t)
    (h : Reception settings ps t done out r) (hp : p ∈ ps) (ho : p.isOrdered = true)
    (hnotin : p ∉ done) (hn : (orderedOutput p.channel out).length = n)
    (hrelease : Receiver.release p.whole r.channels = .ok (ds, cs')) :
    ∃ count, (0 < count → p.place = n) ∧
      (∀ k < n + count, k ≠ p.place →
        ∃ q ∈ done, q.isOrderedOn p.channel = true ∧ q.place = k) ∧
      ds = p.deliveries ((((ps.filter (Parcel.isOrderedOn p.channel)).drop n).take count).map
        Parcel.payload) := by
  have hself : p.isOrderedOn p.channel = true := Parcel.isOrderedOn_iff.2 ⟨ho, rfl⟩
  have hnew := h.taken_eq_none hm hp ho hnotin
  obtain ⟨channel, next, hget, hreads, hout⟩ := h.yields.reads p.channel (hm.channel_lt p hp)
  obtain rfl : next = n := by
    rw [← hn, hout, Channel.length_between fun k _ hk => hreads.filled k hk, Nat.sub_zero]
  obtain ⟨next', hle, hreads', hpayloads⟩ := hreads.take (x := p.payload) (hm.place_lt hp ho) hnew
  obtain ⟨count, rfl⟩ := Nat.exists_eq_add_of_le hle
  rw [← taken_append hself hnew] at hreads' hpayloads
  refine ⟨count, fun hpos => ?_, fun k hk hne => ?_, ?_⟩
  · -- the place at which the channel stood is filled now, and it was not before
    have hsome := hreads'.filled next (by omega)
    rw [taken_append hself hnew] at hsome
    by_contra hne
    rw [Channel.fill_of_ne _ fun heq => hne heq.symm, hreads.missing] at hsome
    cases hsome
  · obtain ⟨q, hq, hon, hplace⟩ := taken_isSome_iff.1 (hreads'.filled k hk)
    rcases List.mem_append.1 hq with hq | hq
    · exact ⟨q, hq, hon, hplace⟩
    · rw [List.mem_singleton.1 hq] at hplace
      exact absurd hplace.symm hne
  · have hmem : ∀ q ∈ done ++ [p], q ∈ ps := by
      intro q hq
      rcases List.mem_append.1 hq with hq | hq
      · exact h.done_mem q hq
      · rwa [List.mem_singleton.1 hq]
    have hbetween : Channel.between (taken (done ++ [p]) p.channel) next (next + count)
        = ((orderedInput p.channel ps).drop next).take count := by
      have hall := between_taken hm hmem hreads'.filled
      have hbehind := between_taken hm hmem (n := next) fun k hk => hreads'.filled k (by omega)
      rw [← Channel.between_append _ (Nat.zero_le _) hle, hbehind, List.take_add] at hall
      exact List.append_cancel_left hall
    rw [release_of_isOrdered ho hget] at hrelease
    cases hrelease
    rw [hpayloads, hbetween, orderedInput, ← List.map_drop, ← List.map_take]

/-- **What comes out with an ordered parcel is a row**: nothing, or the parcel and behind it those
that were complete before. -/
theorem row_of_release (hm : Manifest settings ps t) (h : Reception settings ps t done out r)
    (hp : p ∈ ps) (ho : p.isOrdered = true) (hnotin : p ∉ done)
    (hrelease : Receiver.release p.whole r.channels = .ok (ds, cs')) :
    ∃ row, Row ps done p.channel (orderedOutput p.channel out).length p row ∧
      ds = Parcel.together row := by
  have hself : p.isOrderedOn p.channel = true := Parcel.isOrderedOn_iff.2 ⟨ho, rfl⟩
  obtain ⟨count, hfirst, hwaited, hds⟩ := payloads_of_release hm h hp ho hnotin rfl hrelease
  generalize (orderedOutput p.channel out).length = n at hfirst hwaited hds ⊢
  cases count with
  | zero =>
    rw [List.take_zero] at hds
    exact ⟨[], ⟨List.nil_prefix, nofun, nofun⟩, hds⟩
  | succ count =>
    obtain rfl := hfirst (Nat.succ_pos count)
    obtain ⟨hlt, hat⟩ := List.getElem?_eq_some_iff.1 (hm.laid.getElem?_ordered hp hself)
    have hrow : ((ps.filter (Parcel.isOrderedOn p.channel)).drop p.place).take (count + 1)
        = p :: ((ps.filter (Parcel.isOrderedOn p.channel)).drop (p.place + 1)).take count := by
      rw [List.drop_eq_getElem_cons hlt, hat, List.take_succ_cons]
    -- whatever is behind it has one of the places that are filled
    have hwaiting : ∀ q ∈ ((ps.filter (Parcel.isOrderedOn p.channel)).drop (p.place + 1)).take
        count, q ∈ done ∧ q.channel = p.channel := by
      intro q hq
      obtain ⟨hqps, hqon, hge, hlt'⟩ := hm.laid.mem_take_drop hq
      obtain ⟨q', hq', hon, heq⟩ := hwaited q.place (by omega) (by omega)
      rw [hm.laid.eq_of_place (h.done_mem q' hq') hqps hon hqon heq] at hq'
      exact ⟨hq', (Parcel.isOrderedOn_iff.1 hqon).2⟩
    have hnext := List.take_prefix (count + 1)
      ((ps.filter (Parcel.isOrderedOn p.channel)).drop p.place)
    rw [hrow] at hds hnext
    refine ⟨_, ⟨hnext, fun q hq => ?_, fun q hq => ?_⟩, ?_⟩
    · rw [List.head?_cons, Option.mem_some_iff] at hq
      exact hq.symm
    · exact (hwaiting q hq).1
    · rw [hds, Parcel.deliveries, Parcel.together_cons, List.map_map]
      refine List.map_congr_left fun q hq => ?_
      have hchannel : q.channel = p.channel := by
        rcases List.mem_cons.1 hq with rfl | hq
        · rfl
        · exact (hwaiting q hq).2
      rw [hchannel]
      rfl

theorem Row.isOrderedOn {row : List Parcel} (h : Row ps done c n p row) :
    ∀ q ∈ row, q ∈ ps ∧ q.isOrderedOn c = true := fun _ hq =>
  List.mem_filter.1 (List.mem_of_mem_drop (h.next.subset hq))

/-- With a window of one place nothing is complete before what stands before it on its channel. -/
theorem Row.length_le_one {row : List Parcel} (hrow : Row ps done c n p row)
    (hm : Manifest settings ps t) (h : Reception settings ps t done out r)
    (hi : i < p.pieces.length) (hnew : ¬ r.Registered (p.first + i))
    (hnarrow : settings.receiveWindow = 1 ∨ settings.orderingWindow = 1) : row.length ≤ 1 := by
  match row, hrow with
  | [], _ => exact Nat.zero_le 1
  | [_], _ => exact Nat.le_refl 1
  | p' :: q :: behind, hrow =>
    obtain rfl : p' = p := hrow.head p' rfl
    have hq : q ∈ done := hrow.waited q List.mem_cons_self
    obtain ⟨hp, hpon⟩ := hrow.isOrderedOn p' List.mem_cons_self
    obtain ⟨hqps, hqon⟩ := hrow.isOrderedOn q (List.mem_cons_of_mem _ List.mem_cons_self)
    obtain ⟨ho, hchannel⟩ := Parcel.isOrderedOn_iff.1 hpon
    obtain ⟨hqo, hqchannel⟩ := Parcel.isOrderedOn_iff.1 hqon
    have hprecedes : p'.Precedes q := by
      have hsub : (p' :: q :: behind).Sublist ps :=
        hrow.next.sublist.trans ((List.drop_sublist _ _).trans List.filter_sublist)
      exact List.rel_of_pairwise_cons (hm.laid.pairwise.sublist hsub) List.mem_cons_self
    have hqr := Parcel.isReliable_of_isOrdered hqo
    have hstarted : r.Registered (q.first + 0) := ((h.complete q hqps hqr).1 hq).2 0 q.length_pos
    refine absurd ?_ hnew
    rcases hnarrow with hone | hone
    · -- the window stands behind what it holds
      have hreach := h.window.has_lt hstarted
      rw [h.capacity_eq, hone] at hreach
      have hbase : q.first ≠ r.messages.base.val := by
        intro heq
        rw [Nat.add_zero, heq] at hstarted
        exact h.window.standing.not_holds_base hstarted
      have hstop := hprecedes.stop_le
      rw [Parcel.stop, Parcel.span_of_isReliable (Parcel.isReliable_of_isOrdered ho)] at hstop
      exact Window.has_of_lt_base (by omega)
    · -- it was let in when all before it were complete
      have hplace := hprecedes.place_lt ho hqo (hchannel.trans hqchannel.symm)
      rw [← hqchannel] at hpon
      have hdone := h.admitted q hqps hqo ⟨0, q.length_pos, hstarted⟩ p' hp hpon (by omega)
      exact ((h.complete p' hp (Parcel.isReliable_of_isOrdered ho)).1 hdone).2 i hi

/-- **What a message brings out of a channel is a row**, led by its own parcel. -/
theorem row_of_take (hm : Manifest settings ps t)
    (spaced : settings.receiveWindow ≤ 131071 ∨ t.cuts ≤ 65536)
    (h : Reception settings ps t done out r) (hp : p ∈ ps) (hi : i < p.pieces.length) (c : UInt8) :
    ∃ row, Row ps done c (orderedOutput c out).length p row ∧
      (r.take (p.message i p.pieces[i])).1.deliveries.filter (Delivery.isOrderedOn c)
        = Parcel.together row ∧
      (settings.receiveWindow = 1 ∨ settings.orderingWindow = 1 → row.length ≤ 1) := by
  have hnone : Row ps done c (orderedOutput c out).length p [] :=
    ⟨List.nil_prefix, nofun, nofun⟩
  rcases take_cases (p.message i p.pieces[i]) r with ⟨hnil, -⟩ | ⟨whole, hwhole, hrelease⟩
  · rw [hnil]
    exact ⟨[], hnone, rfl, fun _ => Nat.zero_le 1⟩
  · obtain rfl := h.completed?_eq hm spaced hp hi hwhole
    by_cases ho : p.isOrdered = true
    · have hr := Parcel.isReliable_of_isOrdered ho
      obtain ⟨hfresh, -⟩ := (admission_eq_fresh_iff (Parcel.index_message hr i p.pieces[i])).1
        (completed?_eq_some_iff.1 hwhole).1
      obtain ⟨-, hnew, -⟩ := h.has_insert hm (hm.index_lt hp hr hi) hfresh
      have hnotin : p ∉ done := fun hin => hnew (((h.complete p hp hr).1 hin).2 i hi)
      obtain ⟨row, hrow, hds⟩ := row_of_release hm h hp ho hnotin hrelease
      have hon : ∀ s ∈ row.map Parcel.submission, s.isOrderedOn p.channel = true := by
        intro s hs
        obtain ⟨q, hq, rfl⟩ := List.mem_map.1 hs
        exact (hrow.isOrderedOn q hq).2
      rw [hds, Parcel.together, Submission.filter_together hon]
      by_cases hc : p.channel = c
      · subst hc
        rw [if_pos rfl]
        exact ⟨row, hrow, rfl, hrow.length_le_one hm h hi hnew⟩
      · rw [if_neg hc]
        exact ⟨[], hnone, rfl, fun _ => Nat.zero_le 1⟩
    · refine ⟨[], hnone, List.filter_eq_nil_iff.2 fun d hd => ?_, fun _ => Nat.zero_le 1⟩
      have hreliability : d.reliability = p.sentAs := reliability_of_release hrelease d hd
      rw [Delivery.isOrderedOn, hreliability, p.isOrdered_sentAs, Bool.and_eq_true]
      exact fun hboth => ho hboth.1

/-! ## Rows, one after the other -/

/-- The next ones on a channel in rows, when `n` came out of it. Each row is led by a parcel with
one of these messages, and with a window of one place it has no other. -/
structure Rows (settings : Settings) (ps : List Parcel) (c : UInt8) (n : Nat) (ms : List Message)
    (rows : List (List Parcel)) : Prop where
  next : rows.flatten <+: (ps.filter (Parcel.isOrderedOn c)).drop n
  led : ∀ row ∈ rows, ∃ p ∈ row.head?, ∃ m ∈ p.messages, m ∈ ms
  single : settings.receiveWindow = 1 ∨ settings.orderingWindow = 1 →
    ∀ row ∈ rows, row.length ≤ 1

theorem rows_nil (settings : Settings) (ps : List Parcel) (c : UInt8) (n : Nat)
    (ms : List Message) : Rows settings ps c n ms [] :=
  ⟨List.nil_prefix, nofun, nofun⟩

theorem Rows.mono {rows : List (List Parcel)} {ms' : List Message}
    (h : Rows settings ps c n ms rows) (hms : ms ⊆ ms') : Rows settings ps c n ms' rows where
  next := h.next
  led := by
    intro row hrow
    obtain ⟨p, hp, m, hm, hmem⟩ := h.led row hrow
    exact ⟨p, hp, m, hm, hms hmem⟩
  single := h.single

/-- A row in front of others, if it is not empty. -/
theorem Rows.cons {row : List Parcel} {rows : List (List Parcel)} (hrow : Row ps done c n p row)
    (hm : m ∈ p.messages) (hmem : m ∈ ms)
    (hsingle : settings.receiveWindow = 1 ∨ settings.orderingWindow = 1 → row.length ≤ 1)
    (h : Rows settings ps c (n + row.length) ms rows) :
    ∃ rows', Rows settings ps c n ms rows' ∧ rows'.flatMap Parcel.together
      = Parcel.together row ++ rows.flatMap Parcel.together := by
  match row, hrow with
  | [], _ => exact ⟨rows, h, rfl⟩
  | p' :: waiting, hrow =>
    refine ⟨(p' :: waiting) :: rows, ⟨?_, fun row' hrow' => ?_, fun hnarrow row' hrow' => ?_⟩, rfl⟩
    · obtain ⟨rest, hrest⟩ := hrow.next
      have hnext := h.next
      rw [← List.drop_drop, ← hrest, List.drop_left] at hnext
      rw [List.flatten_cons, ← hrest]
      exact (List.prefix_append_right_inj _).2 hnext
    · rcases List.mem_cons.1 hrow' with rfl | hrow'
      · refine ⟨p', rfl, m, ?_, hmem⟩
        rwa [hrow.head p' rfl]
      · exact h.led row' hrow'
    · rcases List.mem_cons.1 hrow' with rfl | hrow'
      · exact hsingle hnarrow
      · exact h.single hnarrow row' hrow'

theorem rows_of_collect (hm : Manifest settings ps t)
    (spaced : settings.receiveWindow ≤ 131071 ∨ t.cuts ≤ 65536)
    (hpos : 0 < settings.maxFragmentCount) (h : Reception settings ps t done out r)
    (hms : ∀ m ∈ ms, m ∈ Laid.created ps) (c : UInt8) :
    ∃ rows, Rows settings ps c (orderedOutput c out).length ms rows ∧
      ((Stepwise.collect Receiver.take ms r).1.flatMap Intake.deliveries).filter
          (Delivery.isOrderedOn c)
        = rows.flatMap Parcel.together := by
  induction ms generalizing r done out with
  | nil => exact ⟨[], rows_nil _ _ _ _ _, rfl⟩
  | cons m ms ih =>
    obtain ⟨p, hp, hmem⟩ := List.mem_flatMap.1 (hms m List.mem_cons_self)
    obtain ⟨i, hi, rfl⟩ := Parcel.mem_messages.1 hmem
    obtain ⟨done', h'⟩ := h.take hm spaced hpos hp hi
    obtain ⟨row, hrow, hout, hsingle⟩ := row_of_take hm spaced h hp hi c
    obtain ⟨rows, hrows, houts⟩ := ih h' fun m' hm' => hms m' (List.mem_cons_of_mem _ hm')
    -- the others come behind this one
    have hlength : (orderedOutput c
        (out ++ (r.take (p.message i p.pieces[i])).1.deliveries)).length
          = (orderedOutput c out).length + row.length := by
      rw [orderedOutput_append, List.length_append, orderedOutput, orderedOutput, List.length_map,
        List.length_map, hout, Parcel.together, Submission.length_together, List.length_map]
    rw [hlength] at hrows
    obtain ⟨rows', hrows', heq⟩ :=
      Rows.cons hrow hmem List.mem_cons_self hsingle (hrows.mono (List.subset_cons_self _ _))
    refine ⟨rows', hrows', ?_⟩
    rw [Stepwise.collect_cons, List.flatMap_cons, List.filter_append, hout, houts, heq]

/-- **What a datagram brings out of a channel are rows.** -/
theorem rows_of_receive (hm : Manifest settings ps t)
    (spaced : settings.receiveWindow ≤ 131071 ∨ t.cuts ≤ 65536)
    (hpos : 0 < settings.maxFragmentCount) (h : Reception settings ps t done out r)
    {d : Datagram} (hd : ∀ m ∈ d.messages, m ∈ Laid.created ps) (c : UInt8) :
    ∃ rows, Rows settings ps c (orderedOutput c out).length d.messages rows ∧
      (r.receive d).1.filter (Delivery.isOrderedOn c)
        = rows.flatMap Parcel.together := by
  rcases receive_cases d r with ⟨r₀, heq, halike, -⟩ | ⟨r', heq, -⟩
  · have h₀ := h.congr halike.messages_eq halike.assembler_eq halike.channels_eq
    obtain ⟨r', hunpack, -⟩ := unpack_eq d r₀
    rw [heq, hunpack]
    exact rows_of_collect hm spaced hpos h₀ hd c
  · rw [heq]
    exact ⟨[], rows_nil _ _ _ _ _, rfl⟩

end Receiver

end DatagramTransport

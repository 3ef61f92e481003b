import DatagramTransport.Proofs.Sampling
import Mathlib.Algebra.Order.Ring.Nat
import Mathlib.Logic.Function.Iterate

/-!
# Backing off — how long the timeout can get

The timeout follows the round trips that are measured, by way of floating point, and doubles with
every loss that the time tells of. A timeout that is too short floods the network with copies, and
one that is too long stalls the connection. **It keeps to its range whatever is measured**: a sample
is clamped, so nothing has to be known about the smoothing, and a doubling stops at the upper end.

Doubling several times in a row is exact, with one cut at the end instead of one after each time.
And however many datagrams are found lost at one time, the timeout doubles once.
-/

set_option autoImplicit false

namespace DatagramTransport

namespace RetransmissionTimer

variable {t : RetransmissionTimer} {minRto maxRto : Nanoseconds}

/-- The timer has this range, and its timeout is in it. -/
structure Ranges (t : RetransmissionTimer) (minRto maxRto : Nanoseconds) : Prop where
  minRto_eq : t.minRto = minRto
  maxRto_eq : t.maxRto = maxRto
  low : minRto ≤ t.rto
  high : t.rto ≤ maxRto

theorem clamp_bounds (hrange : minRto ≤ maxRto) (rto : Nanoseconds) :
    minRto ≤ Nanoseconds.clamp minRto maxRto rto ∧
      Nanoseconds.clamp minRto maxRto rto ≤ maxRto :=
  ⟨Nat.le_max_left _ _, Nat.max_le.2 ⟨hrange, Nat.min_le_right _ _⟩⟩

theorem ranges_fresh (hrange : minRto ≤ maxRto) (initialRto granularity : Nanoseconds) :
    (fresh initialRto minRto maxRto granularity).Ranges minRto maxRto := by
  obtain ⟨hlow, hhigh⟩ := clamp_bounds hrange initialRto
  exact ⟨rfl, rfl, hlow, hhigh⟩

theorem Ranges.sample (h : t.Ranges minRto maxRto) (hrange : minRto ≤ maxRto)
    (measured : Nanoseconds) : (t.sample measured).Ranges minRto maxRto := by
  obtain ⟨rfl, rfl, -, -⟩ := h
  exact ⟨rfl, rfl, (clamp_bounds hrange _).1, (clamp_bounds hrange _).2⟩

/-- The greatest length of time is never in the way, as the range ends before it. -/
theorem rto_backOff (hlongest : t.maxRto ≤ Nanoseconds.longest) :
    t.backOff.rto = min (2 * t.rto) t.maxRto := by
  show min (min (t.rto + t.rto) Nanoseconds.longest) t.maxRto = _
  rw [Nat.min_assoc, Nat.min_eq_right hlongest, Nat.two_mul]

theorem backOff_eq (hlongest : t.maxRto ≤ Nanoseconds.longest) :
    t.backOff = { t with rto := min (2 * t.rto) t.maxRto } := by
  rw [← rto_backOff hlongest]
  rfl

theorem Ranges.backOff (h : t.Ranges minRto maxRto) (hlongest : maxRto ≤ Nanoseconds.longest) :
    t.backOff.Ranges minRto maxRto := by
  obtain ⟨rfl, rfl, hlow, hhigh⟩ := h
  refine ⟨rfl, rfl, ?_, ?_⟩
  · rw [rto_backOff hlongest]
    exact Nat.le_min.2 ⟨Nat.le_trans hlow (Nat.le_mul_of_pos_left _ Nat.two_pos),
      Nat.le_trans hlow hhigh⟩
  · rw [rto_backOff hlongest]
    exact Nat.min_le_right _ _

/-- **Whatever happens to a timer, its timeout stays in its range.** -/
theorem Ranges.foldl (h : t.Ranges minRto maxRto) (hrange : minRto ≤ maxRto)
    (hlongest : maxRto ≤ Nanoseconds.longest) (timings : List Timing) :
    (timings.foldl Timing.apply t).Ranges minRto maxRto := by
  induction timings generalizing t with
  | nil => exact h
  | cons timing timings ih =>
    cases timing with
    | sampled place measured => exact ih (h.sample hrange measured)
    | backedOff => exact ih (h.backOff hlongest)

/-- **Doublings in a row are one multiplication**, and what is cut off on the way is cut off at the
end as well. -/
theorem rto_iterate_backOff (h : t.Ranges minRto maxRto)
    (hlongest : maxRto ≤ Nanoseconds.longest) (n : Nat) :
    (backOff^[n] t).Ranges minRto maxRto ∧ (backOff^[n] t).rto = min (2 ^ n * t.rto) maxRto := by
  induction n with
  | zero =>
    refine ⟨h, ?_⟩
    rw [Function.iterate_zero_apply, Nat.pow_zero, Nat.one_mul, Nat.min_eq_left h.high]
  | succ n ih =>
    obtain ⟨hranges, hrto⟩ := ih
    rw [Function.iterate_succ_apply']
    refine ⟨hranges.backOff hlongest, ?_⟩
    have hcut (rto most : Nat) : min (2 * min rto most) most = min (2 * rto) most := by omega
    rw [rto_backOff (hranges.maxRto_eq ▸ hlongest), hrto, hranges.maxRto_eq, hcut, Nat.pow_succ',
      Nat.mul_assoc]

end RetransmissionTimer

namespace Sender

/-- The time tells of a loss if there is a datagram that was sent so long ago. -/
theorem timer_tick (now : Nanoseconds) (s : Sender) :
    ((∃ (k : Serial) (sent : SentDatagram),
        s.inFlight[k]? = some sent ∧ s.timer.rto ≤ now - sent.sentAt) →
      (s.tick now).2.timer = s.timer.backOff) ∧
    ((∀ (k : Serial) (sent : SentDatagram),
        s.inFlight[k]? = some sent → now - sent.sentAt < s.timer.rto) →
      (s.tick now).2.timer = s.timer) := by
  unfold tick
  constructor
  · rintro ⟨k, sent, hget, hlate⟩
    rw [if_pos (any_inFlight_iff.2 ⟨k, sent, hget, decide_eq_true hlate⟩)]
    rfl
  · intro hnone
    have hnot : ¬s.inFlight.any (fun _ sent => s.isExpired now sent) = true := by
      intro hsome
      obtain ⟨k, sent, hget, hlate⟩ := any_inFlight_iff.1 hsome
      exact absurd (hnone k sent hget) (Nat.not_lt.2 (of_decide_eq_true hlate))
    rw [if_neg hnot]

end Sender

namespace Link

variable {settings : Settings}

theorem ranges_after (hrange : settings.minRto ≤ settings.maxRto)
    (hlongest : settings.maxRto ≤ Nanoseconds.longest) (mtu : UInt16) (es : List Event) :
    ((fresh settings mtu).after es).sender.timer.Ranges settings.minRto settings.maxRto := by
  have hmeasured : Journal.empty.Measured (fresh settings mtu).sender [] :=
    ⟨List.nodup_nil, fun _ hn => absurd hn List.not_mem_nil, fun _ hn => absurd hn List.not_mem_nil⟩
  rw [(hmeasured.timings (Journal.tells_empty settings mtu) es).2]
  exact (RetransmissionTimer.ranges_fresh hrange _ _).foldl hrange hlongest _

end Link

namespace RetransmissionTimer

/-- **How long the timeout can get.** Whatever is measured and however often it is doubled, it stays
in its range, and doublings in a row are exact up to the upper end. In any run of a link a look at
the time doubles the timeout once if there are datagrams that were sent so long ago, however many,
and changes nothing about the timer if there are none. -/
theorem timeout_in_range {minRto maxRto : Nanoseconds} (hrange : minRto ≤ maxRto)
    (hlongest : maxRto ≤ Nanoseconds.longest) :
    (∀ (initialRto granularity : Nanoseconds) (timings : List Timing),
      let t := timings.foldl Timing.apply (fresh initialRto minRto maxRto granularity)
      minRto ≤ t.rto ∧ t.rto ≤ maxRto ∧ ∀ n, (backOff^[n] t).rto = min (2 ^ n * t.rto) maxRto) ∧
    ∀ (settings : Settings) (mtu : UInt16) (es : List Link.Event) (now : Nanoseconds),
      settings.minRto = minRto → settings.maxRto = maxRto →
      let l := (Link.fresh settings mtu).after es
      let t := l.sender.timer
      minRto ≤ t.rto ∧ t.rto ≤ maxRto ∧
        ((∃ (k : Serial) (sent : SentDatagram),
            l.sender.inFlight[k]? = some sent ∧ t.rto ≤ now - sent.sentAt) →
          (l.tick now).2.sender.timer = { t with rto := min (2 * t.rto) maxRto }) ∧
        ((∀ (k : Serial) (sent : SentDatagram),
            l.sender.inFlight[k]? = some sent → now - sent.sentAt < t.rto) →
          (l.tick now).2.sender.timer = t) := by
  constructor
  · intro initialRto granularity timings t
    have ht : t.Ranges minRto maxRto :=
      (ranges_fresh hrange initialRto granularity).foldl hrange hlongest timings
    exact ⟨ht.low, ht.high, fun n => (rto_iterate_backOff ht hlongest n).2⟩
  · rintro settings mtu es now rfl rfl l t
    have ht : t.Ranges settings.minRto settings.maxRto := Link.ranges_after hrange hlongest mtu es
    obtain ⟨hdoubled, hunchanged⟩ := l.sender.timer_tick now
    refine ⟨ht.low, ht.high, fun hexpired => ?_, hunchanged⟩
    have hlongest' : t.maxRto ≤ Nanoseconds.longest := ht.maxRto_eq ▸ hlongest
    refine (hdoubled hexpired).trans ?_
    rw [backOff_eq hlongest', ht.maxRto_eq]

/-- Two datagrams that are still in flight after a second. -/
def twoUnanswered : Link := (Link.fresh {} 400).after
  [.submit .reliable 0 [1], .flush 0 1, .submit .reliable 0 [2], .flush 0 1]

theorem timeout_in_range_twoUnanswered :
    Settings.minRto {} ≤ Settings.maxRto {} ∧ Settings.maxRto {} ≤ Nanoseconds.longest ∧
      twoUnanswered.sender.inFlight.size = 2 ∧
      twoUnanswered.sender.timer.rto = 1000000000 ∧
      (twoUnanswered.tick 1000000000).2.sender.timer.rto = 2000000000 := by
  have hrange : Settings.minRto {} ≤ Settings.maxRto {} := by decide
  have hlongest : Settings.maxRto {} ≤ Nanoseconds.longest := by decide
  have hrto : twoUnanswered.sender.timer.rto = 1000000000 := by decide +kernel
  have hsent : (twoUnanswered.sender.inFlight[Serial.ofNat 0]?).map (·.sentAt) = some 0 := by
    decide +kernel
  obtain ⟨sent, hget, hsentAt⟩ := Option.map_eq_some_iff.1 hsent
  have hexpired : twoUnanswered.sender.timer.rto ≤ 1000000000 - sent.sentAt := by
    simp only [hsentAt, hrto, Nat.sub_zero, Nat.le_refl]
  obtain ⟨-, -, hdoubled, -⟩ := (timeout_in_range hrange hlongest).2 {} 400
    [.submit .reliable 0 [1], .flush 0 1, .submit .reliable 0 [2], .flush 0 1] 1000000000 rfl rfl
  refine ⟨hrange, hlongest, by decide +kernel, hrto, ?_⟩
  have hdoubled := congrArg RetransmissionTimer.rto
    (hdoubled ⟨Serial.ofNat 0, sent, hget, hexpired⟩)
  have htwice : min (2 * twoUnanswered.sender.timer.rto) (Settings.maxRto {}) = 2000000000 := by
    rw [hrto]
    decide
  exact hdoubled.trans htwice

end RetransmissionTimer

end DatagramTransport

import DatagramTransport.Proofs.Directory

/-!
# Isolation — peers that do not see each other

Two end points deal with the same ticks, and with the same packets and wishes as far as one address
is concerned; everything else is different, and may be hostile. **As long as the session at that
address is in the table, nobody can tell the two apart there**: not by its state, not by what it
flushes, not by what the application is told.

The proof compares neither of the two with the other. Each is compared with the session by itself,
on which the operations that concern it are performed and no others.
-/

set_option autoImplicit false

namespace DatagramTransport

namespace EndPoint

variable {e e₁ e₂ : EndPoint} {address : Address} {s : Session} {op : Operation}
  {ops₁ ops₂ : List Operation}

/-- What a peer gets to see of a run: the outcomes of the operations that concern it, up to the one
that removes its session. -/
def course (address : Address) : List Operation → EndPoint → List Outcome
  | [], _ => []
  | op :: ops, e =>
    if op.concerns address then
      outcome address op e ::
        if (outcome address op e).session.isSome then course address ops (e.perform op).2 else []
    else course address ops (e.perform op).2

/-- The same, of a session without an end point. -/
def lone : List Operation → Session → List Outcome
  | [], _ => []
  | op :: ops, s =>
    op.apply s ::
      match (op.apply s).session with
      | some s' => lone ops s'
      | none => []

theorem course_of_not_concerns (hop : op.concerns address = false) (ops : List Operation)
    (e : EndPoint) : course address (op :: ops) e = course address ops (e.perform op).2 := by
  rw [course, hop, if_neg Bool.false_ne_true]

theorem course_of_concerns (hop : op.concerns address = true) (ops : List Operation)
    (e : EndPoint) :
    course address (op :: ops) e = outcome address op e ::
      if (outcome address op e).session.isSome then course address ops (e.perform op).2
      else [] := by
  rw [course, hop, if_pos rfl]

/-- **Among others a session does what it does alone.** -/
theorem course_eq_lone (hnodup : e.peers.Nodup) (hs : e.sessions.get? address = some s)
    (ops : List Operation) :
    course address ops e = lone (ops.filter (Operation.concerns address)) s := by
  induction ops generalizing e s with
  | nil => rfl
  | cons op ops ih =>
    have hnext := nodup_perform hnodup op
    cases hop : op.concerns address with
    | false =>
      rw [course_of_not_concerns hop, List.filter_cons_of_neg (by rw [hop]; exact nofun)]
      exact ih hnext ((perform_of_not_concerns hop e).2.2.trans hs)
    | true =>
      have hseen := outcome_of_some hnodup hop hs
      rw [course_of_concerns hop, List.filter_cons_of_pos hop, lone, hseen]
      cases hsession : (op.apply s).session with
      | none => rfl
      | some s' =>
        have hs' : (e.perform op).2.sessions.get? address = some s' :=
          (congrArg Outcome.session hseen).trans hsession
        rw [ih hnext hs']
        rfl

/-- A session that stays is in the end as the last operation that concerned it has left it. -/
theorem get?_conduct (hs : e.sessions.get? address = some s) (ops : List Operation)
    (hstays : ∀ seen ∈ course address ops e, seen.session.isSome = true) :
    (e.conduct ops).2.sessions.get? address
      = ((course address ops e).getLast?.map Outcome.session).getD (some s) := by
  unfold conduct
  induction ops generalizing e s with
  | nil => exact hs
  | cons op ops ih =>
    rw [Stepwise.collect_cons]
    cases hop : op.concerns address with
    | false =>
      rw [course_of_not_concerns hop] at hstays ⊢
      exact ih ((perform_of_not_concerns hop e).2.2.trans hs) hstays
    | true =>
      rw [course_of_concerns hop] at hstays ⊢
      have hsome := hstays _ List.mem_cons_self
      rw [if_pos hsome] at hstays ⊢
      obtain ⟨s', hs'⟩ := Option.isSome_iff_exists.1 hsome
      refine (ih hs' fun seen hseen => hstays seen (List.mem_cons_of_mem _ hseen)).trans ?_
      rw [List.getLast?_cons]
      cases (course address ops (e.perform op).2).getLast? with
      | none => exact hs'.symm
      | some last => rfl

/-- **What a peer gets to see does not depend on anyone else.** Two end points have the same session
at an address, and deal with the same operations that concern it, in the same order; then its
outcomes are the same in both, and so is the session at the end, if it has stayed. An operation that
does not concern an address does nothing there. -/
theorem course_unaffected_by_other_addresses (hnodup₁ : e₁.peers.Nodup)
    (hnodup₂ : e₂.peers.Nodup)
    (hs₁ : e₁.sessions.get? address = some s) (hs₂ : e₂.sessions.get? address = some s)
    (hops : ops₁.filter (Operation.concerns address) = ops₂.filter (Operation.concerns address)) :
    course address ops₁ e₁ = course address ops₂ e₂ ∧
      ((∀ seen ∈ course address ops₁ e₁, seen.session.isSome = true) →
        (e₁.conduct ops₁).2.sessions.get? address = (e₂.conduct ops₂).2.sessions.get? address) ∧
      ∀ (e : EndPoint) (op : Operation), op.concerns address = false →
        (e.perform op).1.eventsFor address = [] ∧ (e.perform op).1.packetsFor address = [] ∧
          (e.perform op).2.sessions.get? address = e.sessions.get? address := by
  have hcourse : course address ops₁ e₁ = course address ops₂ e₂ := by
    rw [course_eq_lone hnodup₁ hs₁, course_eq_lone hnodup₂ hs₂, hops]
  refine ⟨hcourse, fun hstays => ?_, fun e op hop => perform_of_not_concerns hop e⟩
  rw [get?_conduct hs₁ ops₁ hstays, get?_conduct hs₂ ops₂ (hcourse ▸ hstays), hcourse]

/-- One end point has a single peer. The other one has a second peer, who sends octets that mean
nothing and is sent away, and somebody asks to be let in. -/
theorem course_unaffected_by_other_addresses_crowded :
    let a : Address := ⟨.v4 1, 1⟩
    let b : Address := ⟨.v4 2, 2⟩
    let s := (Session.fresh {} .server a 0 1464 0).completeLogin
    let alone : EndPoint := ⟨{}, [(a, s)]⟩
    let crowded : EndPoint := ⟨{}, [(b, Session.fresh {} .server b 0 1464 0), (a, s)]⟩
    let greeting : Octets := [132, 0, 0, 0, 0, 0, 8, 200]
    let ops : List Operation := [.send a .reliable 0 [9], .tick 5, .receive 6 a greeting, .tick 7]
    let more : List Operation := [.receive 1 b [132, 0], .send a .reliable 0 [9], .tick 5,
      .disconnect 6 b, .receive 6 a greeting, .register 6 ⟨.v4 3, 3⟩ 0 1464 .client, .tick 7]
    course a ops alone = course a more crowded ∧
      (course a ops alone).flatMap Outcome.events = [.connected, .message 0 [200]] ∧
      (alone.conduct ops).2.sessions.get? a = (crowded.conduct more).2.sessions.get? a := by
  intro a b s alone crowded greeting ops more
  have hstays : ∀ seen ∈ course a ops alone, seen.session.isSome = true := by decide +kernel
  obtain ⟨hcourse, hsession, -⟩ := course_unaffected_by_other_addresses
    (show alone.peers.Nodup by decide) (show crowded.peers.Nodup by decide)
    (show alone.sessions.get? a = some s from rfl)
    (show crowded.sessions.get? a = some s from rfl)
    (show ops.filter (Operation.concerns a) = more.filter (Operation.concerns a) by decide)
  exact ⟨hcourse, by decide +kernel, hsession hstays⟩

end EndPoint

end DatagramTransport

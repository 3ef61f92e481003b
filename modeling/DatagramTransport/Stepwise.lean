/-!
# One after the other — a step for each item, with a state handed on

Messages of a datagram, datagrams of a flush, ticks of a span of time: each is dealt with in the
state that the one before has left, and each brings something out. `collect` does that for a step of
any kind. **What comes out stands in the order of the items**, one result for each of them.

Results are put together last first and turned round at the end, so that a long list takes no more
room than its results. The two equations `collect_nil` and `collect_cons` say what comes of it, and
nothing else needs to be known.
-/

set_option autoImplicit false

namespace DatagramTransport

namespace Stepwise

variable {α β σ : Type}

/-- Takes a step for each item. The results follow those that are there already, which are given
last first. -/
def collectOnto (step : α → σ → β × σ) : List β → List α → σ → List β × σ
  | done, [], s => (done.reverse, s)
  | done, a :: rest, s =>
    let (b, s) := step a s
    collectOnto step (b :: done) rest s

/-- Takes a step for each item and collects the results. -/
def collect (step : α → σ → β × σ) (items : List α) (s : σ) : List β × σ :=
  collectOnto step [] items s

theorem collectOnto_eq (step : α → σ → β × σ) (done : List β) (items : List α) (s : σ) :
    collectOnto step done items s
      = (done.reverse ++ (collect step items s).1, (collect step items s).2) := by
  induction items generalizing done s with
  | nil => simp [collectOnto, collect]
  | cons a rest ih =>
    simp only [collect, collectOnto]
    rw [ih, ih [(step a s).1]]
    simp

@[simp] theorem collect_nil (step : α → σ → β × σ) (s : σ) : collect step [] s = ([], s) := rfl

theorem collect_cons (step : α → σ → β × σ) (a : α) (rest : List α) (s : σ) :
    collect step (a :: rest) s
      = ((step a s).1 :: (collect step rest (step a s).2).1,
          (collect step rest (step a s).2).2) := by
  simp only [collect, collectOnto]
  rw [collectOnto_eq]
  simp [collect]

end Stepwise

end DatagramTransport

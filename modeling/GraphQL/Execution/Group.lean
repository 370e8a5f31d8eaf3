import GraphQL.Execution.Job

/-!
# Jobs side by side

The jobs of a group that are not done stand in a queue.  The first one is polled: it gets
done and leaves the queue, or it has to wait and goes to its end.  A poll of the group
polls the jobs of the queue in this way until its patience is at an end; the next poll of
the group goes on where the last one stopped.

How much patience there is depends on the size of the group.  A small group is polled in
rounds: all of its jobs that are not done are polled once.  In a large group it is at an
end as soon as two jobs in a row have to wait.

The queue of a group comes to an end, since each poll leaves less to do of one of its jobs:
`wellFounded_polled` says so.
-/

namespace GraphQL

variable {σ α ε : Type}

/-! ## The order of polls -/

/-- How a group of jobs is polled. -/
inductive Polling where
  /-- All jobs that are not done, once each. -/
  | inRounds
  /-- One job after the other, until two in a row have to wait, or the only one that is
  left. -/
  | inPairs
  deriving DecidableEq, Repr

namespace Polling

/-- The number of jobs up to which a group is polled in rounds. -/
def greatestRound : Nat := 30

/-- How a group is polled that may have up to `n` jobs. -/
def ofSize (n : Nat) : Polling := if n ≤ greatestRound then inRounds else inPairs

/-- The patience at the start of a poll of a group with `n` jobs that are not done. -/
def patience : Polling → (n : Nat) → Nat
  | inRounds, n => n
  | inPairs, n => min n 2

/-- The patience that is left after a job got done: there was `left` before, and there are
`n` jobs that are not done. -/
def patienceAfterDone : Polling → (left n : Nat) → Nat
  | inRounds, left, _ => left - 1
  | inPairs, _, n => inPairs.patience n

theorem patience_succ_ne_zero (polling : Polling) (n : Nat) : polling.patience (n + 1) ≠ 0 := by
  cases polling <;> simp only [patience] <;> omega

end Polling

/-! ## The queue -/

namespace Job

/-- Whether `later` is what can be left of a job after a poll in vain. -/
def IsLeftOf (later job : Job σ α) : Prop :=
  ∃ before after : σ, job before = .waiting after later

theorem acc_isLeftOf (job : Job σ α) : Acc IsLeftOf job := by
  have ofStep (step : Step σ α) :
      ∀ after later, step = .waiting after later → Acc IsLeftOf later := by
    induction step with
    | done state value => exact nofun
    | waiting state resume ih =>
      intro after later h
      cases h
      exact .intro _ fun next ⟨before, after, h⟩ => ih before after next h
  exact .intro _ fun later ⟨before, after, h⟩ => ofStep (job before) after later h

end Job

/-- The jobs of a group that are not done, the next one to be polled first. -/
structure Queue (σ α : Type) where
  jobs : List (Job σ α)

namespace Queue

/-- Whether the first queue is what can be left of the second after a poll of its first
job. -/
inductive Polled : Queue σ α → Queue σ α → Prop where
  | done (job : Job σ α) (rest : List (Job σ α)) : Polled ⟨rest⟩ ⟨job :: rest⟩
  | waiting {later job : Job σ α} (rest : List (Job σ α)) (h : later.IsLeftOf job) :
    Polled ⟨rest ++ [later]⟩ ⟨job :: rest⟩

/-- While no job gets done, the jobs in front of any one of them go behind it, and then less
is left of that one. -/
theorem acc_polled (job : Job σ α) (front back : List (Job σ α))
    (shorter : ∀ jobs : List (Job σ α), jobs.length ≤ front.length + back.length →
      Acc Polled (Queue.mk jobs)) :
    Acc Polled (Queue.mk (front ++ job :: back)) := by
  induction job.acc_isLeftOf generalizing front back with
  | intro job _ ihJob =>
    induction front generalizing back with
    | nil =>
      refine ⟨_, fun queue h => ?_⟩
      cases h with
      | done => exact shorter back (by simp)
      | waiting _ h =>
        refine ihJob _ h back [] fun jobs hlen => shorter jobs ?_
        simpa using hlen
    | cons first front ihFront =>
      refine ⟨_, fun queue h => ?_⟩
      cases h with
      | done => exact shorter (front ++ job :: back) (by simp; omega)
      | waiting _ h =>
        rename_i later
        have := ihFront (back ++ [later]) fun jobs hlen => shorter jobs (by
          simp only [List.length_append, List.length_cons, List.length_nil] at hlen ⊢
          omega)
        simpa using this

theorem wellFounded_polled : WellFounded (Polled (σ := σ) (α := α)) := by
  have ofLength (n : Nat) :
      ∀ jobs : List (Job σ α), jobs.length ≤ n → Acc Polled (Queue.mk jobs) := by
    induction n with
    | zero =>
      intro jobs h
      obtain rfl : jobs = [] := by simpa using h
      exact ⟨_, nofun⟩
    | succ n ih =>
      intro jobs h
      cases jobs with
      | nil => exact ⟨_, nofun⟩
      | cons job rest =>
        refine acc_polled job [] rest fun jobs hlen => ih jobs ?_
        simp only [List.length_cons, List.length_nil] at h hlen
        omega
  exact ⟨fun queue => ofLength queue.jobs.length queue.jobs (Nat.le_refl _)⟩

instance : WellFoundedRelation (Queue σ α) := ⟨Polled, wellFounded_polled⟩

end Queue

/-! ## The group -/

namespace Job

/-- Polls the jobs of a queue until all are done.  The result are the values of the jobs and
of those that were `finished` before, the latest first. -/
def pollQueue (polling : Polling) (patience : Nat) (queue : List (Job σ α)) (finished : List α)
    (state : σ) : Step σ (List α) :=
  match queue with
  | [] => .done state finished
  | job :: rest =>
    if patience = 0 then
      .waiting state fun state =>
        pollQueue polling (polling.patience (rest.length + 1)) (job :: rest) finished state
    else
      match _h : job state with
      | .done state value =>
        pollQueue polling (polling.patienceAfterDone patience rest.length) rest
          (value :: finished) state
      | .waiting state later =>
        pollQueue polling (patience - 1) (rest ++ ([later] : List (Job σ α))) finished state
termination_by (Queue.mk queue, if patience = 0 then 1 else 0)
decreasing_by
  · apply Prod.Lex.right
    simp [polling.patience_succ_ne_zero, *]
  · exact Prod.Lex.left _ _ (.done _ _)
  · exact Prod.Lex.left _ _ (.waiting _ ⟨_, _, _h⟩)

/-- All jobs side by side; the values come in the order of the jobs. -/
def all (polling : Polling) (jobs : List (Job σ α)) : Job σ (List α) := do
  let numbered := jobs.zipIdx.map fun (job, i) => do return (i, ← job)
  let finished ← pollQueue polling (polling.patience jobs.length) numbered []
  return (finished.mergeSort fun a b => a.1 ≤ b.1).map (·.2)

/-- All jobs side by side, in a group that was made for up to `size` jobs.  They all get
done, also when some of them fail; of the errors the first in the order of the jobs counts. -/
def sideBySide (size : Nat) (jobs : List (Job σ (Except ε α))) : Job σ (Except ε (List α)) := do
  let results ← all (.ofSize size) jobs
  return results.mapM id

end Job

end GraphQL

/-!
# Jobs that may have to wait

A job works on a shared state.  When it is polled it either gets done or, after some
work, has to wait until it is polled again.  Jobs run one after the other (`bind`,
`Job.inTurn`) or side by side in a group.
-/

namespace GraphQL

/-- How far a job has come by a poll. -/
inductive Step (σ α : Type) where
  | done (state : σ) (value : α)
  /-- The job goes on from here with the state at the next poll. -/
  | waiting (state : σ) (resume : σ → Step σ α)

/-- What happens to a state when a job is polled for the first time. -/
def Job (σ α : Type) : Type := σ → Step σ α

variable {σ α β ε : Type}

namespace Step

/-- Goes on with the value when the job is done. -/
def bind : Step σ α → (α → Job σ β) → Step σ β
  | done state value, next => next value state
  | waiting state resume, next => waiting state fun s => (resume s).bind next

/-- Polls a job until it is done. -/
def finish : Step σ α → α × σ
  | done state value => (value, state)
  | waiting state resume => (resume state).finish

@[simp] theorem finish_bind (step : Step σ α) (next : α → Job σ β) :
    (step.bind next).finish = (next step.finish.1 step.finish.2).finish := by
  induction step with
  | done state value => rfl
  | waiting state resume ih => exact ih state

end Step

namespace Job

instance : Monad (Job σ) where
  pure value := fun state => .done state value
  bind job next := fun state => (job state).bind next

/-- Work that is done at once. -/
def atOnce (work : StateM σ α) : Job σ α := fun state =>
  let (value, state) := work state
  .done state value

/-- Waits until it has been polled `n` times in vain. -/
def wait : Nat → Job σ Unit
  | 0 => pure ()
  | n + 1 => fun state => .waiting state (wait n)

/-- One job after the other, up to the first that fails. -/
def inTurn : List (Job σ (Except ε α)) → Job σ (Except ε (List α))
  | [] => return .ok []
  | job :: rest => do
    match ← job with
    | .error e => return .error e
    | .ok value =>
      match ← inTurn rest with
      | .error e => return .error e
      | .ok values => return .ok (value :: values)

/-- Polls the job until it is done. -/
def run (job : Job σ α) (state : σ) : α × σ := (job state).finish

@[simp] theorem run_pure (value : α) (state : σ) :
    (pure value : Job σ α).run state = (value, state) := rfl

@[simp] theorem run_bind (job : Job σ α) (next : α → Job σ β) (state : σ) :
    (job >>= next).run state = (next (job.run state).1).run (job.run state).2 :=
  Step.finish_bind _ _

@[simp] theorem run_atOnce (work : StateM σ α) (state : σ) :
    (atOnce work).run state = work state := rfl

@[simp] theorem run_wait (n : Nat) (state : σ) : (wait n).run state = ((), state) := by
  induction n with
  | zero => rfl
  | succ n ih => exact ih

end Job

end GraphQL

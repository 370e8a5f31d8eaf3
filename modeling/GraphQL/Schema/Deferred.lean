/-!
# Deferred values

A value that is found when it is first asked for, and kept from then on.  Finding it
may fail; then there is no second attempt.
-/

namespace GraphQL

/-- A value that may still have to be found, by a computation on a state. -/
inductive Deferred (σ α : Type) where
  | resolved (value : α)
  | pending (find : StateM σ (Except String α))
  /-- The computation has failed. -/
  | failed

namespace Deferred

variable {σ α : Type}

def isResolved : Deferred σ α → Bool
  | resolved _ => true
  | pending _ | failed => false

/-- What is said when the value is asked for again after a failure. -/
def failedBefore : String := "thunk initializer panicked during an earlier access"

/-- The value, and what is left of the cell. -/
def get : Deferred σ α → StateM σ (Except String α × Deferred σ α)
  | resolved value => return (.ok value, resolved value)
  | pending find => do
    match ← find with
    | .ok value => return (.ok value, resolved value)
    | .error message => return (.error message, failed)
  | failed => return (.error failedBefore, failed)

/-- The cell as a text, with the value if it is known. -/
def text (valueText : α → String) : Deferred σ α → String
  | resolved value => "Thunk(" ++ valueText value ++ ")"
  | pending _ | failed => "Thunk(<unresolved>)"

end Deferred

end GraphQL

import GraphQL.Validation.Error
import GraphQL.Validation.Merging.Selected

/-!
# Plans for comparisons

The search for fields that cannot be merged is a row of comparisons, each of which may
ask for others.  A `Plan` says what is done for one of them, step by step: it looks at
selection sets, takes charge of pairs of fragments, and asks for further comparisons.
`Plan.run` carries a plan out, and with it the plans of all comparisons that are asked
for.  Those may go on without end; there is no result then.
-/

namespace GraphQL

namespace Merging

/-- Fields that cannot be merged, and the places of both sides. -/
structure Conflict where
  responseKey : String
  reason : ConflictReason
  spans₁ : List (Option Span)
  spans₂ : List (Option Span)

/-- What is compared.  The flag tells that the objects of both sides are known to
differ. -/
inductive Comparison where
  /-- Two fields under a response key, and what they select. -/
  | fields (exclusive : Bool) (key : String) (f₁ f₂ : SelectedField)
  /-- Two fragments, and each with those that the other one reaches. -/
  | fragments (exclusive : Bool) (name₁ name₂ : String)

/-! ## Memory -/

/-- What the search keeps in mind. -/
structure Memory where
  /-- The type that each selection set was first looked at with. -/
  parents : List (Place × Option TypeDef) := []
  /-- The fragments that were compared, and whether their objects differ, the latest
  first. -/
  compared : List ((String × String) × Bool) := []

namespace Memory

/-- The type that the selection set at a place was first looked at with. -/
def parent? (memory : Memory) (place : Place) : Option (Option TypeDef) :=
  (memory.parents.find? (·.1 = place)).map (·.2)

/-- The type that the selection set at a place is looked at with: the given one, if this
is the first time. -/
def look (memory : Memory) (place : Place) (parent : Option TypeDef) :
    Option TypeDef × Memory :=
  match memory.parent? place with
  | some known => (known, memory)
  | none => (parent, { memory with parents := (place, parent) :: memory.parents })

/-- Whether two fragments were compared, in whichever order, and if so, whether their
objects differ. -/
def compared? (memory : Memory) (name₁ name₂ : String) : Option Bool :=
  (memory.compared.find? fun (names, _) =>
    names = (name₁, name₂) ∨ names = (name₂, name₁)).map (·.2)

/-- Whether two fragments need not be compared: they are the same, or were compared at
least as strictly before. -/
def covers (memory : Memory) (exclusive : Bool) (name₁ name₂ : String) : Bool :=
  name₁ = name₂ || (memory.compared? name₁ name₂).any fun before => exclusive || !before

/-- The memory in which two fragments count as compared. -/
def note (memory : Memory) (exclusive : Bool) (name₁ name₂ : String) : Memory :=
  { memory with compared := ((name₁, name₂), exclusive) :: memory.compared }

/-- Whether two fragments are still to be compared.  They count as compared from now
on. -/
def claim (memory : Memory) (exclusive : Bool) (name₁ name₂ : String) : Bool × Memory :=
  if memory.covers exclusive name₁ name₂ then (false, memory)
  else (true, memory.note exclusive name₁ name₂)

end Memory

/-! ## Plans -/

/-- What is done to find something out. -/
inductive Plan (α : Type) where
  | done (value : α)
  /-- Looks at the selection set at a place, with the given type if this is the first
  time. -/
  | look (place : Place) (parent : Option TypeDef) (next : Option TypeDef → Plan α)
  /-- Goes on with whether two fragments are still to be compared. -/
  | claim (exclusive : Bool) (name₁ name₂ : String) (next : Bool → Plan α)
  /-- Goes on with the conflicts that another comparison finds. -/
  | compare (comparison : Comparison) (next : List Conflict → Plan α)

namespace Plan

variable {α β : Type}

/-- Goes on with the value of a plan. -/
def bind : Plan α → (α → Plan β) → Plan β
  | done value, f => f value
  | look place parent next, f => look place parent fun known => (next known).bind f
  | claim exclusive name₁ name₂ next, f =>
    claim exclusive name₁ name₂ fun isNew => (next isNew).bind f
  | compare comparison next, f => compare comparison fun found => (next found).bind f

instance : Monad Plan where
  pure := done
  bind := bind

/-- Makes comparisons in turn.  Their conflicts come after those that were `found`. -/
def each : List Comparison → (found : List Conflict) → Plan (List Conflict)
  | [], found => done found
  | comparison :: rest, found => compare comparison fun more => each rest (found ++ more)

/-- The conflicts of some comparisons. -/
def all (comparisons : List Comparison) : Plan (List Conflict) := each comparisons []

end Plan

/-! ## Answers -/

/-- An answer to each comparison: the conflicts, and the memory afterwards. -/
abbrev Answering := Comparison → Memory → Option (List Conflict × Memory)

/-- Carries a plan out, given the answers to the comparisons it asks for. -/
def Answering.carryOut (answer : Answering) :
    Plan (List Conflict) → Memory → Option (List Conflict × Memory)
  | .done found, memory => some (found, memory)
  | .look place parent next, memory =>
    answer.carryOut (next (memory.look place parent).1) (memory.look place parent).2
  | .claim exclusive name₁ name₂ next, memory =>
    answer.carryOut (next (memory.claim exclusive name₁ name₂).1)
      (memory.claim exclusive name₁ name₂).2
  | .compare comparison next, memory => do
    let (found, memory) ← answer comparison memory
    answer.carryOut (next found) memory

/-- Where more is answered, carrying out a plan gets to the same, or further. -/
theorem Answering.carryOut_mono {answer better : Answering}
    (h : ∀ comparison memory, answer comparison memory = none ∨
      answer comparison memory = better comparison memory)
    (p : Plan (List Conflict)) (memory : Memory) :
    answer.carryOut p memory = none ∨ answer.carryOut p memory = better.carryOut p memory := by
  induction p generalizing memory with
  | done value => exact .inr rfl
  | look place parent next ih => exact ih _ _
  | claim exclusive name₁ name₂ next ih => exact ih _ _
  | compare comparison next ih =>
    unfold carryOut
    rcases h comparison memory with hnone | heq
    · exact .inl (by rw [hnone]; rfl)
    · rw [heq]
      cases better comparison memory with
      | none => exact .inl rfl
      | some found => exact ih found.1 found.2

section

variable (plan : Comparison → Plan (List Conflict))

/-- The answers that are found by carrying out the plan of each comparison, and with it the
plans of all that it asks for.  They may go on without end; there is no answer then. -/
def answering : Answering := fun comparison memory =>
  answering.carryOut (plan comparison) memory
partial_fixpoint monotonicity
  fun answer better h comparison memory => by
    have hanswer (c m) : answer c m = none ∨ answer c m = better c m := by
      have hle := h c m
      generalize answer c m = x, better c m = y at hle
      cases hle with
      | bot => exact .inl rfl
      | refl => exact .inr rfl
    dsimp only
    rcases Answering.carryOut_mono hanswer (plan comparison) memory with hnone | heq
    · rw [hnone]
      exact .bot
    · rw [heq]
      exact .refl

/-- Carries a plan out, where `plan` is what is done for each comparison: the conflicts
and the memory in the end, if it comes to an end. -/
def Plan.run (p : Plan (List Conflict)) (memory : Memory) : Option (List Conflict × Memory) :=
  Answering.carryOut (answering plan) p memory

end

end Merging

end GraphQL

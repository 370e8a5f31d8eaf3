import GraphQL.Execution.Fault
import GraphQL.Execution.Group

/-!
# The run of an operation

What stays the same while an operation is executed, and what grows: the errors that
were met, and what happened: calls of resolvers, and values to be completed.
-/

namespace GraphQL

/-- What happens on the way to a response. -/
inductive Event where
  /-- A resolver is called. -/
  | called (params : ResolveParams)
  /-- The outcome is there; it may carry a label for the log. -/
  | finished (path : List PathSegment) (label : Option String)
  /-- A value is to be completed by a type for the place in the response. -/
  | completing (path : List PathSegment) (type : TypeRef) (value : Json)

namespace Event

/-- The labels of the calls that finished, in order. -/
def log (events : List Event) : List String :=
  events.filterMap fun
    | .finished _ label => label
    | _ => none

end Event

/-- How far the execution of an operation has come. -/
structure Progress where
  /-- The errors of fields and items that are null instead, the latest first. -/
  errors : List FieldError := []
  /-- What happened, the latest first. -/
  events : List Event := []
  /-- The memory that the resolvers share. -/
  memory : Json := .null

/-- The value of a part of a response, or the error on account of which it has none. -/
abbrev Completion := Except FieldError Json

/-- Work towards a part of a response. -/
abbrev Running := Job Progress

namespace Progress

/-- Notes an error. -/
def record (e : FieldError) : Running Unit :=
  .atOnce (modify fun progress => { progress with errors := e :: progress.errors })

/-- Notes an event. -/
def note (event : Event) : Running Unit :=
  .atOnce (modify fun progress => { progress with events := event :: progress.events })

/-- Calls a resolver of the host. -/
def call (resolver : Json → Reply × Json) : Running Reply :=
  .atOnce fun progress =>
    let (reply, memory) := resolver progress.memory
    (reply, { progress with memory })

end Progress

end GraphQL

import GraphQL.Document.SyntaxError
import GraphQL.Json.Basic

/-!
# Errors in a response

A `ResponseError` is what a client is told of an error: a message, the places in
the document it is about, and, for an error of execution, the path of the field in
the response.
-/

namespace GraphQL

/-- One step of a path in a response. -/
inductive PathSegment where
  | key (key : String)
  | index (index : Nat)
  deriving DecidableEq, Repr

/-- An error as a response shows it, with the name of the text it is about. -/
structure ResponseError where
  message : String
  locations : List Location := []
  path : Option (List PathSegment) := none
  sourceName : Option String := none
  deriving DecidableEq, Repr

namespace PathSegment

def toJson : PathSegment → Json
  | key k => .string k
  | index i => .int i

end PathSegment

namespace ResponseError

/-- An error about the places where the given spans start. -/
def atSpans (message : String) (spans : List (Option Span)) : ResponseError where
  message
  locations := spans.filterMap fun span? => span?.map (·.location)

/-- An error about the given byte offsets of a text. -/
def inSource (message : String) (source : Source) (offsets : List Nat) : ResponseError where
  message
  locations := offsets.map source.locationAt
  sourceName := source.name

/-- The error that a text is no document. -/
def ofSyntaxError (error : SyntaxError) : ResponseError where
  message := "Syntax Error: " ++ error.message
  locations := [error.span.location]
  sourceName := error.sourceName

private def locationJson (location : Location) : Json :=
  .object [("line", .int location.line), ("column", .int location.column)]

/-- The error as a member of a response. -/
def toJson (error : ResponseError) : Json :=
  .object (
    [("message", .string error.message)] ++
    (if error.locations.isEmpty then []
      else [("locations", .array (error.locations.map locationJson))]) ++
    (match error.path with
      | some path => [("path", .array (path.map (·.toJson)))]
      | none => []))

end ResponseError

end GraphQL

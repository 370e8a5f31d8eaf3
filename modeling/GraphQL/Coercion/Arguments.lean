import GraphQL.Coercion.Literal
import GraphQL.Document.Printer
import GraphQL.Response.Error

/-!
# Values of arguments

The values of the arguments of a field or a directive: those that are given, with the
values of variables put in, and the defaults of the others.
-/

namespace GraphQL

/-- Why an argument has no value. -/
inductive ArgumentFault where
  | notProvided (type : TypeRef)
  | nullNotAllowed (type : TypeRef) (span : Option Span)
  /-- A required argument is given as a variable that has no value. -/
  | missingVariable (type : TypeRef) (name : String) (span : Option Span)
  | invalid (literal : Value)

/-- A fault of a named argument. -/
structure ArgumentError where
  argument : String
  fault : ArgumentFault

namespace ArgumentError

def message (e : ArgumentError) : String :=
  let subject := "Argument \"" ++ e.argument ++ "\""
  match e.fault with
  | .notProvided type => subject ++ " of required type \"" ++ type.text ++ "\" was not provided."
  | .nullNotAllowed type _ =>
    subject ++ " of non-null type \"" ++ type.text ++ "\" must not be null."
  | .missingVariable type name _ =>
    subject ++ " of required type \"" ++ type.text ++ "\" was provided the variable \"$" ++ name ++
      "\" which was not provided a runtime value."
  | .invalid literal => subject ++ " has invalid value " ++ literal.text ++ "."

/-- The places that the error is about. -/
def spans (e : ArgumentError) : List (Option Span) :=
  match e.fault with
  | .notProvided _ => []
  | .nullNotAllowed _ span | .missingVariable _ _ span => [span]
  | .invalid literal => [literal.span]

/-- The error as a response shows it. -/
def toResponse (e : ArgumentError) : ResponseError := .atSpans e.message e.spans

end ArgumentError

namespace Arguments

/-- The value of an argument, if it has one. -/
def value? (schema : Schema) (bindings : Json.Members) (definition : InputDef)
    (given : Option Argument) : Except ArgumentFault (Option Json) :=
  let type := definition.type
  match given with
  | none =>
    match definition.defaultValue with
    | some v => .ok (some v)
    | none => if type.isNonNull then .error (.notProvided type) else .ok none
  | some argument =>
    match argument.value with
    | .var v =>
      match Assoc.get? bindings v.name.text, definition.defaultValue with
      | some value, _ =>
        if value.isNull && type.isNonNull then .error (.nullNotAllowed type v.span)
        else .ok (some value)
      | none, some v => .ok (some v)
      | none, none =>
        if type.isNonNull then .error (.missingVariable type v.name.text v.span) else .ok none
    | literal =>
      match Literal.coerce? schema (some bindings) literal type with
      | some value => .ok (some value)
      | none => .error (.invalid literal)

/-- The values of the arguments, in the order of their definitions, or the first error. -/
def coerce (schema : Schema) (bindings : Json.Members) (given : List Argument) :
    List (String × InputDef) → Except ArgumentError Json.Members
  | [] => .ok []
  | (name, definition) :: rest =>
    match value? schema bindings definition (given.find? (·.name.text = name)) with
    | .error fault => .error ⟨name, fault⟩
    | .ok v =>
      match coerce schema bindings given rest with
      | .error e => .error e
      | .ok members => .ok (v.toList.map (name, ·) ++ members)

end Arguments

end GraphQL

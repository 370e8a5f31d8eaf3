import GraphQL.Coercion.Input
import GraphQL.Coercion.Literal
import GraphQL.Document.Printer

/-!
# Values of variables

The values of the variables of an operation: those that come with the request, and the
defaults of the others.
-/

namespace GraphQL

/-- What can be wrong with a variable. -/
inductive VariableFault where
  /-- The type of the variable is not known, or is no input type. -/
  | notAnInputType (type : TypeExpr)
  | notProvided (type : TypeRef) (span : Option Span)
  | nullNotAllowed (type : TypeRef) (span : Option Span)
  | invalid (value : Json) (problem : InputProblem) (span : Option Span)

/-- A fault of a named variable. -/
structure VariableError where
  name : String
  fault : VariableFault

namespace VariableError

def message (e : VariableError) : String :=
  let subject := "Variable \"$" ++ e.name ++ "\""
  match e.fault with
  | .notAnInputType type =>
    subject ++ " expected value of type \"" ++ type.text ++
      "\" which cannot be used as an input type."
  | .notProvided type _ => subject ++ " of required type \"" ++ type.text ++ "\" was not provided."
  | .nullNotAllowed type _ =>
    subject ++ " of non-null type \"" ++ type.text ++ "\" must not be null."
  | .invalid value problem _ =>
    subject ++ " got invalid value " ++ value.text ++ "; " ++ problem.message

/-- The place that the error is about. -/
def span (e : VariableError) : Option Span :=
  match e.fault with
  | .notAnInputType type => type.span
  | .notProvided _ span | .nullNotAllowed _ span | .invalid _ _ span => span

/-- The error as a response shows it. -/
def toResponse (e : VariableError) : ResponseError := .atSpans e.message [e.span]

end VariableError

namespace Variables

/-- The value of a variable, if it has one, or all that is wrong with it. -/
def value? (schema : Schema) (inputs : Json.Members) (definition : VariableDefinition) :
    Except (List VariableFault) (Option Json) :=
  match (schema.resolve? definition.type).filter schema.isInputRef with
  | none => .error [.notAnInputType definition.type]
  | some type =>
    match Assoc.get? inputs definition.var.name.text with
    | none =>
      match definition.defaultValue with
      | some literal => .ok (Literal.coerce? schema none literal type)
      | none =>
        if type.isNonNull then .error [.notProvided type definition.span] else .ok none
    | some .null =>
      if type.isNonNull then .error [.nullNotAllowed type definition.span] else .ok (some .null)
    | some value =>
      match Input.coerce schema value type with
      | .ok value => .ok (some value)
      | .error problems => .error (problems.map (.invalid value · definition.span))

/-- The values of all variables, or all that is wrong with them.  Of two definitions
of one name the later one counts. -/
def coerce (schema : Schema) (definitions : List VariableDefinition) (inputs : Json.Members) :
    Except (List VariableError) Json.Members :=
  let read := definitions.map fun d => (d.var.name.text, value? schema inputs d)
  let errors := read.flatMap fun (name, v) =>
    match v with
    | .error faults => faults.map (⟨name, ·⟩)
    | .ok _ => []
  match errors with
  | [] =>
    .ok (Assoc.ofList (read.filterMap fun (name, v) =>
      match v with
      | .ok (some value) => some (name, value)
      | _ => none))
  | errors => .error errors

end Variables

end GraphQL

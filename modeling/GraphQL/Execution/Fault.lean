import GraphQL.Coercion.Arguments
import GraphQL.Json.Printer
import GraphQL.Schema.Types

/-!
# What goes wrong when a field is resolved

An error of a field says what is wrong, and with which field of which type, and where:
in the document at all selections of the field, and in the response at a path.
-/

namespace GraphQL

/-- What can go wrong with a field. -/
inductive FieldFault where
  | arguments (error : ArgumentError)
  /-- The resolver gave no value, but a message. -/
  | resolver (message : String)
  | null
  | notAList
  | unknownType (name : String)
  /-- A scalar type refuses the value. -/
  | scalar (reason : String)
  /-- The value represents none of the values of the enum. -/
  | enum (name : String) (value : Json)
  | inputType (name : String)
  /-- The object type of a value of an abstract type is not known. -/
  | noObjectType (abstractName : String) (value : Json) (received : Option String)
  /-- Two object types of an abstract type claim the value. -/
  | twoObjectTypes (abstractName first second : String)
  | impossibleType (abstractName objectName : String)
  /-- The object type does not accept the value. -/
  | wrongObject (name : String) (value : Json)
  /-- Objects are nested more deeply than selections can be. -/
  | tooDeep

/-- An error of a field. -/
structure FieldError where
  fault : FieldFault
  parentTypeName : String
  fieldName : String
  /-- The places of the selections of the field. -/
  nodes : List (Option Span)
  path : List PathSegment

namespace FieldFault

/-- The places that the fault itself names. -/
def spans : FieldFault → List (Option Span)
  | arguments error => error.spans
  | _ => []

/-- The message, given the type and the name of the field with a dot between. -/
def message (field : String) : FieldFault → String
  | arguments error => error.message
  | resolver message => message
  | null => "Cannot return null for non-nullable field " ++ field ++ "."
  | notAList => "Expected Iterable, but did not find one for field " ++ field ++ "."
  | unknownType name => "Unknown type \"" ++ name ++ "\"."
  | scalar reason => reason
  | enum name value =>
    "Expected a value of type \"" ++ name ++ "\" but received: " ++ value.text
  | inputType name => "Cannot complete value of input type \"" ++ name ++ "\"."
  | noObjectType name value received =>
    "Abstract type " ++ name ++ " must resolve to an Object type at runtime for field " ++ field ++
      " with value " ++ value.text ++ ", received \"" ++ received.getD "undefined" ++ "\"." ++
      if received.isSome then ""
      else " Either the " ++ name ++ " type should provide a \"resolveType\" function or each " ++
        "possible type should provide an \"isTypeOf\" function."
  | twoObjectTypes name first second =>
    "Abstract type " ++ name ++ " must resolve to exactly one Object type at runtime for field " ++
      field ++ "; both \"" ++ first ++ "\" and \"" ++ second ++ "\" claim the value."
  | impossibleType abstractName objectName =>
    "Runtime Object type \"" ++ objectName ++ "\" is not a possible type for \"" ++ abstractName ++
      "\"."
  | wrongObject name value =>
    "Expected value of type \"" ++ name ++ "\" but got: " ++ value.text ++ "."
  | tooDeep => "Objects are nested too deeply at field " ++ field ++ "."

end FieldFault

namespace FieldError

/-- The error of a field that a resolver would be told of. -/
def ofInfo (info : ResolveInfo) (path : List PathSegment) (fault : FieldFault) : FieldError where
  fault
  parentTypeName := info.parentTypeName
  fieldName := info.fieldName
  nodes := info.fieldNodes.map (·.span)
  path

def message (e : FieldError) : String :=
  e.fault.message (e.parentTypeName ++ "." ++ e.fieldName)

/-- The error as a response shows it: at the places that the fault names, or else at
all selections of the field. -/
def toResponse (e : FieldError) : ResponseError :=
  let own := ResponseError.atSpans e.message e.fault.spans
  let located := if own.locations.isEmpty then ResponseError.atSpans e.message e.nodes else own
  { located with path := some e.path }

end FieldError

end GraphQL

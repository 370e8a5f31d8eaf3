/-!
# Places of directives

The places of a document where a directive may be applied.
-/

namespace GraphQL

/-- A kind of place a directive may be applied at. -/
inductive DirectiveLocation where
  | query | mutation | subscription | field | fragmentDefinition | fragmentSpread
  | inlineFragment | schema | scalar | object | fieldDefinition | argumentDefinition
  | interface | union | enum | enumValue | inputObject | inputFieldDefinition
  deriving DecidableEq, Repr

namespace DirectiveLocation

/-- All places, those of executable definitions first. -/
def all : List DirectiveLocation :=
  [query, mutation, subscription, field, fragmentDefinition, fragmentSpread, inlineFragment,
    schema, scalar, object, fieldDefinition, argumentDefinition, interface, union, enum,
    enumValue, inputObject, inputFieldDefinition]

/-- The name of the place in a directive definition. -/
def text : DirectiveLocation → String
  | query => "QUERY"
  | mutation => "MUTATION"
  | subscription => "SUBSCRIPTION"
  | field => "FIELD"
  | fragmentDefinition => "FRAGMENT_DEFINITION"
  | fragmentSpread => "FRAGMENT_SPREAD"
  | inlineFragment => "INLINE_FRAGMENT"
  | schema => "SCHEMA"
  | scalar => "SCALAR"
  | object => "OBJECT"
  | fieldDefinition => "FIELD_DEFINITION"
  | argumentDefinition => "ARGUMENT_DEFINITION"
  | interface => "INTERFACE"
  | union => "UNION"
  | enum => "ENUM"
  | enumValue => "ENUM_VALUE"
  | inputObject => "INPUT_OBJECT"
  | inputFieldDefinition => "INPUT_FIELD_DEFINITION"

/-- The place with the given name. -/
def ofText? (name : String) : Option DirectiveLocation := all.find? (·.text = name)

/-- Whether the place belongs to executable definitions. -/
def isExecutable : DirectiveLocation → Bool
  | query | mutation | subscription | field | fragmentDefinition | fragmentSpread
  | inlineFragment => true
  | _ => false

end DirectiveLocation

end GraphQL

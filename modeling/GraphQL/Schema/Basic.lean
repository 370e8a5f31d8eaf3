import GraphQL.Document.Basic
import GraphQL.Schema.Introspection

/-!
# Schemas

A schema is a set of named types, with the roots of the operations and the directives
that documents may use.  Types refer to each other by name, so every look-up goes
through the schema.
-/

namespace GraphQL

/-- A set of types, closed under reference, with its roots. -/
structure Schema where
  directives : List (String × DirectiveDef)
  queryType : TypeDef
  mutationType : Option TypeDef
  subscriptionType : Option TypeDef
  types : List (String × TypeDef)
  /-- The object types of each abstract type, by its name. -/
  possible : List (String × List TypeDef)

namespace Schema

variable (schema : Schema)

def type? (name : String) : Option TypeDef := Assoc.get? schema.types name

def directive? (name : String) : Option DirectiveDef := Assoc.get? schema.directives name

/-- The type that operations of a kind start from. -/
def rootType? : OperationKind → Option TypeDef
  | .query => some schema.queryType
  | .mutation => schema.mutationType
  | .subscription => schema.subscriptionType

/-- The object types whose values may stand where the type is declared: the members of
a union as they are declared, or the types that implement an interface in the order of
the schema.  None for a type that is not abstract. -/
def possibleTypes (t : TypeDef) : List TypeDef :=
  if t.isAbstractType then (Assoc.get? schema.possible t.name).getD [] else []

/-- Whether values of the named object type may stand where the type is declared. -/
def isPossibleType (t : TypeDef) (objectName : String) : Bool :=
  (schema.possibleTypes t).any (·.name = objectName)

/-- The named type within all layers of a reference. -/
def namedType? (ref : TypeRef) : Option TypeDef := schema.type? ref.innermostName

/-- Whether the reference is to a known input type. -/
def isInputRef (ref : TypeRef) : Bool := (schema.namedType? ref).any (·.isInputType)

/-- Whether the reference is to a known output type. -/
def isOutputRef (ref : TypeRef) : Bool := (schema.namedType? ref).any (·.isOutputType)

/-- The input object that a name stands for. -/
def inputObject? (name : String) : Option InputObjectDef :=
  (schema.type? name).bind (·.inputObject?)

/-- The reference that a type written in a document is, if its name is known. -/
def resolve? (expr : TypeExpr) : Option TypeRef :=
  if (schema.type? expr.innermostName).isSome then (TypeRef.ofExpr expr).toOption else none

/-- The definition of a field that is selected of a type, the fields of introspection
included. -/
def fieldDef? (parent : TypeDef) (name : String) : Option FieldDef :=
  let isQueryRoot := parent.name = schema.queryType.name
  if name = Introspection.schemaFieldName ∧ isQueryRoot then some Introspection.schemaField
  else if name = Introspection.typeFieldName ∧ isQueryRoot then some Introspection.typeField
  else if name = Introspection.typenameFieldName ∧ parent.isCompositeType then
    some Introspection.typenameField
  else parent.field? name

end Schema

end GraphQL

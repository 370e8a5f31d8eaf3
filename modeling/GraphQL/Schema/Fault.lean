import GraphQL.Schema.Basic

/-!
# What can be wrong with a schema

Why definitions of types and directives make no schema.
-/

namespace GraphQL

/-- A place in a schema that refers to a type. -/
inductive SchemaSite where
  /-- The schema itself. -/
  | schema
  /-- The declaration of a type: its interfaces or its members. -/
  | type (name : String)
  | field (type field : String)
  | argument (type field argument : String)
  | directiveArgument (directive argument : String)
  deriving DecidableEq, Repr

/-- The members that a type cannot be without. -/
inductive MemberKind where
  | fields | values | memberTypes
  deriving DecidableEq, Repr

/-- Why an object type does not implement an interface. -/
inductive ImplementationFault where
  | notAnInterface
  | declaredAgain
  | missingField (field : String)
  | fieldType (field : String) (expected provided : TypeRef)
  | missingArgument (field argument : String)
  | argumentType (field argument : String) (expected provided : TypeRef)
  /-- The object requires an argument that the interface does not know. -/
  | requiredArgument (field argument : String) (type : TypeRef)
  deriving DecidableEq, Repr

/-- Why there is no schema. -/
inductive SchemaFault where
  | danglingReference (type : String) (site : SchemaSite)
  | duplicateDirective (name : String)
  | duplicateType (name : String)
  | noMembers (type : String) (members : MemberKind)
  | reservedName (name : String)
  | badImplementation (type interface : String) (fault : ImplementationFault)
  | badRoot (operation : OperationKind) (type : String)
  | badUnionMember (union member : String)
  | inputTypeExpected (site : SchemaSite) (type : TypeRef)
  | outputTypeExpected (site : SchemaSite) (type : TypeRef)
  deriving DecidableEq, Repr

namespace SchemaSite

/-- The place as messages show it. -/
def text : SchemaSite → String
  | schema => "schema"
  | type name => name
  | field owner name => owner ++ "." ++ name
  | argument owner fieldName name => owner ++ "." ++ fieldName ++ "(" ++ name ++ ":)"
  | directiveArgument directive name => "@" ++ directive ++ "(" ++ name ++ ":)"

end SchemaSite

namespace MemberKind

def text : MemberKind → String
  | fields => "fields"
  | values => "values"
  | memberTypes => "member types"

end MemberKind

namespace ImplementationFault

/-- The fault in words, for the names of the object type and the interface. -/
def message (object interface : String) : ImplementationFault → String
  | notAnInterface => "`" ++ interface ++ "` is not an interface type"
  | declaredAgain => "the interface is declared more than once"
  | missingField field =>
    "Interface field " ++ (SchemaSite.field interface field).text ++ " expected but " ++ object ++
      " does not provide it."
  | fieldType field expected provided =>
    "Interface field " ++ (SchemaSite.field interface field).text ++ " expects type " ++
      expected.text ++ " but " ++ (SchemaSite.field object field).text ++ " provides type " ++
      provided.text ++ "."
  | missingArgument field argument =>
    "Interface field argument " ++ (SchemaSite.argument interface field argument).text ++
      " expected but " ++ (SchemaSite.field object field).text ++ " does not provide it."
  | argumentType field argument expected provided =>
    "Interface field argument " ++ (SchemaSite.argument interface field argument).text ++
      " expects type " ++ expected.text ++ " but " ++
      (SchemaSite.argument object field argument).text ++ " provides type " ++ provided.text ++ "."
  | requiredArgument field argument type =>
    "Object field argument " ++ (SchemaSite.argument object field argument).text ++
      " is of required type " ++ type.text ++ " but is not also provided by the interface " ++
      (SchemaSite.field interface field).text ++ "."

end ImplementationFault

namespace SchemaFault

def message : SchemaFault → String
  | danglingReference type site =>
    "The `" ++ type ++ "` type is referenced by `" ++ site.text ++ "` but is not defined"
  | duplicateDirective name => "Multiple directives named `@" ++ name ++ "` were defined"
  | duplicateType name => "Multiple GraphQL types named `" ++ name ++ "` were defined"
  | noMembers type members => "The `" ++ type ++ "` type must define one or more " ++ members.text
  | reservedName name =>
    "The name `" ++ name ++ "` is invalid: names starting with `__` are reserved for introspection"
  | badImplementation type interface fault =>
    "The `" ++ type ++ "` type does not correctly implement `" ++ interface ++ "`: " ++
      fault.message type interface
  | badRoot operation type =>
    "The " ++ operation.keyword ++ " root operation type must be an object type, but `" ++ type ++
      "` is not"
  | badUnionMember union member =>
    "The `" ++ union ++ "` union may only include object types, but `" ++ member ++ "` is not one"
  | inputTypeExpected site type =>
    "`" ++ site.text ++ "` must have an input type, but `" ++ type.text ++ "` is not one"
  | outputTypeExpected site type =>
    "`" ++ site.text ++ "` must have an output type, but `" ++ type.text ++ "` is not one"

end SchemaFault

end GraphQL

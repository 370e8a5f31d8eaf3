import GraphQL.Document.Basic
import GraphQL.Json.Basic
import GraphQL.Response.Error
import GraphQL.Schema.TypeRef

/-!
# Resolvers

How the value of a field is found.  A host resolver is a function of what is known
about the field; it may also use a memory that all resolvers of one request share.
It answers at once with a `Reply`, whose outcome becomes known only after it has been
asked for a number of times.  The fields of the introspection system have resolvers
of their own, which look at the schema.
-/

namespace GraphQL

/-- What a resolver knows about the field it is called for. -/
structure ResolveInfo where
  fieldName : String
  /-- All selections of the field that were merged under one response key. -/
  fieldNodes : List Field
  returnType : TypeRef
  parentTypeName : String
  /-- The path of the field in the response. -/
  path : List PathSegment
  /-- The fragments of the document by their names. -/
  fragments : List (String × FragmentDefinition)
  rootValue : Json
  operation : OperationDefinition
  variableValues : Json.Members

/-- What a resolver is called with. -/
structure ResolveParams where
  /-- The value of the object the field belongs to. -/
  source : Json
  /-- The values of the arguments, defaults included. -/
  args : Json.Members
  info : ResolveInfo
  /-- What the host handed over with the request. -/
  context : Option Json

namespace ResolveParams

/-- The value of an argument. -/
def arg? (params : ResolveParams) (name : String) : Option Json := Assoc.get? params.args name

end ResolveParams

/-- The answer of a resolver. -/
structure Reply where
  /-- The value, or a message on why there is none. -/
  outcome : Except String Json
  /-- How many times the outcome is asked for in vain before it is there. -/
  pendings : Nat := 0
  /-- What is written to the log when the outcome is there. -/
  label : Option String := none

/-- The fields of the introspection system that look at the schema. -/
inductive MetaResolver where
  | schema | typeByName | typeName | types | queryType | mutationType | subscriptionType
  | directives | fields | interfaces | possibleTypes | enumValues | inputFields
  deriving DecidableEq, Repr

/-- How the value of a field is found. -/
inductive Resolver where
  /-- A function of the host, and of the memory that the resolvers share. -/
  | host (call : ResolveParams → Json → Reply × Json)
  /-- A field of the introspection system. -/
  | introspection (field : MetaResolver)

end GraphQL

import GraphQL.Schema.Directives

/-!
# The introspection system

The types by which a schema describes itself, and the fields through which a query
gets at them: `__schema` and `__type` on the root of queries, and `__typename` on all
composite types.  A part of a schema is described by a JSON object.  The plain fields
of the introspection types read members of that object; the others have resolvers
that look at the schema.
-/

namespace GraphQL

namespace Introspection

/-! ## Names -/

def schemaTypeName : String := "__Schema"
def typeTypeName : String := "__Type"
def fieldTypeName : String := "__Field"
def inputValueTypeName : String := "__InputValue"
def enumValueTypeName : String := "__EnumValue"
def directiveTypeName : String := "__Directive"
def typeKindTypeName : String := "__TypeKind"
def directiveLocationTypeName : String := "__DirectiveLocation"

def schemaFieldName : String := "__schema"
def typeFieldName : String := "__type"
def typenameFieldName : String := "__typename"

/-- The argument that asks for deprecated members too. -/
def includeDeprecated : String := "includeDeprecated"

/-- The argument of `__type`. -/
def nameArgument : String := "name"

/-! ## Parts of the types -/

/-- A field that reads a member of the description. -/
private def plain (name : String) (type : TypeRef) : FieldDef := { name, type }

private def computed (name : String) (type : TypeRef) (resolver : MetaResolver)
    (arguments : List InputDef := []) (description : Option String := none) : FieldDef where
  name
  description
  type
  arguments := InputDef.table arguments
  resolver := some (.introspection resolver)

private def withDeprecated : InputDef where
  name := includeDeprecated
  type := .ofName Scalar.booleanName
  defaultValue := some (.bool false)

/-- A list of values of a type, none of them null; the list may be. -/
private def optionalList (name : String) : TypeRef := .list (.required name) true

private def text : TypeRef := .ofName Scalar.stringName

private def requiredText : TypeRef := .required Scalar.stringName

private def requiredFlag : TypeRef := .required Scalar.booleanName

private def object (name description : String) (fields : List FieldDef) : TypeDef where
  name
  description := some description
  origin := .builtin
  body := .object { fields := FieldDef.table fields }

private def enum (name description : String) (values : List EnumValueDef) : TypeDef where
  name
  description := some description
  origin := .builtin
  body := .enum { values := EnumValueDef.table values }

/-! ## The types -/

def schemaType : TypeDef :=
  object schemaTypeName
    ("A GraphQL Schema defines the capabilities of a GraphQL server. It exposes all " ++
     "available types and directives on the server, as well as the entry points for " ++
     "query, mutation, and subscription operations.")
    [computed "types" (.requiredList typeTypeName) .types []
      (some "A list of all types supported by this server."),
    computed "queryType" (.required typeTypeName) .queryType []
      (some "The type that query operations will be rooted at."),
    computed "mutationType" (.ofName typeTypeName) .mutationType []
      (some ("If this server supports mutation, the type that mutation operations will be " ++
        "rooted at.")),
    computed "subscriptionType" (.ofName typeTypeName) .subscriptionType []
      (some ("If this server support subscription, the type that subscription operations " ++
        "will be rooted at.")),
    computed "directives" (.requiredList directiveTypeName) .directives []
      (some "A list of all directives supported by this server.")]

def typeType : TypeDef :=
  object typeTypeName
    ("The fundamental unit of any GraphQL Schema is the type. There are many kinds of " ++
     "types in GraphQL as represented by the `__TypeKind` enum.\n\nDepending on the kind " ++
     "of a type, certain fields describe information about that type. Scalar types " ++
     "provide no information beyond a name and description, while Enum types provide " ++
     "their values. Object and Interface types provide the fields they describe. " ++
     "Abstract types, Union and Interface, provide the Object types possible at " ++
     "runtime. List and NonNull types compose other types.")
    [plain "kind" (.required typeKindTypeName),
    plain "name" text,
    plain "description" text,
    computed "fields" (optionalList fieldTypeName) .fields [withDeprecated],
    computed "interfaces" (optionalList typeTypeName) .interfaces,
    computed "possibleTypes" (optionalList typeTypeName) .possibleTypes,
    computed "enumValues" (optionalList enumValueTypeName) .enumValues [withDeprecated],
    computed "inputFields" (optionalList inputValueTypeName) .inputFields,
    plain "ofType" (.ofName typeTypeName)]

def fieldType : TypeDef :=
  object fieldTypeName
    ("Object and Interface types are described by a list of Fields, each of which has a " ++
     "name, potentially a list of arguments, and a return type.")
    [plain "name" requiredText,
    plain "description" text,
    plain "args" (.requiredList inputValueTypeName),
    plain "type" (.required typeTypeName),
    plain "isDeprecated" requiredFlag,
    plain "deprecationReason" text]

def inputValueType : TypeDef :=
  object inputValueTypeName
    ("Arguments provided to Fields or Directives and the input fields of an " ++
     "InputObject are represented as Input Values which describe their type and " ++
     "optionally a default value.")
    [plain "name" requiredText,
    plain "description" text,
    plain "type" (.required typeTypeName),
    { name := "defaultValue"
      description := some
        ("A GraphQL-formatted string representing the default value for this input " ++
         "value.")
      type := text }]

def enumValueType : TypeDef :=
  object enumValueTypeName
    ("One possible value for a given Enum. Enum values are unique values, not a " ++
     "placeholder for a string or numeric value. However an Enum value is returned in " ++
     "a JSON response as a string.")
    [plain "name" requiredText,
    plain "description" text,
    plain "isDeprecated" requiredFlag,
    plain "deprecationReason" text]

def directiveType : TypeDef :=
  object directiveTypeName
    ("A Directive provides a way to describe alternate runtime execution and type " ++
     "validation behavior in a GraphQL document.")
    [plain "name" requiredText,
    plain "description" text,
    plain "locations" (.requiredList directiveLocationTypeName),
    plain "args" (.requiredList inputValueTypeName)]

/-- What introspection says of a kind of types. -/
private def kindDescription : TypeKind → String
  | .scalar => "Indicates this type is a scalar."
  | .object => "Indicates this type is an object. `fields` and `interfaces` are valid fields."
  | .interface =>
    "Indicates this type is an interface. `fields` and `possibleTypes` are valid fields."
  | .union => "Indicates this type is a union. `possibleTypes` is a valid field."
  | .enum => "Indicates this type is an enum. `enumValues` is a valid field."
  | .inputObject => "Indicates this type is an input object. `inputFields` is a valid field."
  | .list => "Indicates this type is a list. `ofType` is a valid field."
  | .nonNull => "Indicates this type is a non-null. `ofType` is a valid field."

def typeKindType : TypeDef :=
  enum typeKindTypeName "An enum describing what kind of type a given `__Type` is."
    ([.scalar, .object, .interface, .union, .enum, .inputObject, .list, .nonNull].map
      fun kind => .named kind.text (some (kindDescription kind)))

def directiveLocationType : TypeDef :=
  enum directiveLocationTypeName
    ("A Directive can be adjacent to many parts of the GraphQL language, a " ++
     "__DirectiveLocation describes one such possible adjacencies.")
    (DirectiveLocation.all.map fun location => .named location.text none)

/-- The introspection types, in the order in which they are listed. -/
def types : List TypeDef :=
  [schemaType, typeType, fieldType, inputValueType, enumValueType, directiveType, typeKindType,
    directiveLocationType]

/-- Whether the name is that of an introspection type. -/
def isTypeName (name : String) : Bool := types.any (·.name = name)

/-! ## The fields that lead to them -/

/-- `__schema: __Schema!` -/
def schemaField : FieldDef :=
  computed schemaFieldName (.required schemaTypeName) .schema []
    (some "Access the current type schema of this server.")

/-- `__type(name: String!): __Type` -/
def typeField : FieldDef :=
  computed typeFieldName (.ofName typeTypeName) .typeByName
    [{ name := nameArgument, type := requiredText }]
    (some "Request the type information of a single type.")

/-- `__typename: String!` -/
def typenameField : FieldDef :=
  computed typenameFieldName requiredText .typeName []
    (some "The name of the current Object type at runtime.")

end Introspection

end GraphQL

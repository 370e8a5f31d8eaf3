import GraphQL.Coercion.ToLiteral
import GraphQL.Document.Printer

/-!
# Descriptions of the parts of a schema

The JSON objects by which introspection describes types, fields, input values, enum
values and directives, and the values of the introspection fields that look at the
schema.
-/

namespace GraphQL

namespace Schema

variable (schema : Schema)

/-- A text, or null without one. -/
def textOrNull : Option String → Json
  | some text => .string text
  | none => .null

/-- The description of a named type. -/
def describeType (t : TypeDef) : Json :=
  .object [("kind", .string t.kind.text), ("name", .string t.name),
    ("description", textOrNull t.description)]

/-- The description of a named type, or null without one. -/
def describeOptionalType (t : Option TypeDef) : Json := (t.map describeType).getD .null

/-- The description of a list or non-null type around another. -/
def wrapper (kind : TypeKind) (inner : Json) : Json :=
  .object [("kind", .string kind.text), ("ofType", inner)]

/-- The description of a type that is wrapped, unless null may stand in its place. -/
def mark (nullable : Bool) (description : Json) : Json :=
  if nullable then description else wrapper .nonNull description

/-- The description of a type that is referred to. -/
def describeRef : TypeRef → Json
  | .named name nullable => mark nullable (describeOptionalType (schema.type? name))
  | .list item nullable => mark nullable (wrapper .list (describeRef item))

/-- The description of an argument or a field of an input object. -/
def describeInput (d : InputDef) : Json :=
  let literal := d.defaultValue.bind (Literal.ofJson? schema · d.type)
  .object [("name", .string d.name), ("description", textOrNull d.description),
    ("type", describeRef schema d.type),
    ("defaultValue", textOrNull (literal.map (·.text)))]

/-- The descriptions of arguments, or of the fields of an input object. -/
def describeInputs (table : List (String × InputDef)) : Json :=
  .array (table.map fun (_, d) => describeInput schema d)

def describeField (d : FieldDef) : Json :=
  .object [("name", .string d.name), ("description", textOrNull d.description),
    ("args", describeInputs schema d.arguments), ("type", describeRef schema d.type),
    ("isDeprecated", .bool d.isDeprecated),
    ("deprecationReason", textOrNull d.deprecationReason)]

def describeEnumValue (d : EnumValueDef) : Json :=
  .object [("name", .string d.name), ("description", textOrNull d.description),
    ("isDeprecated", .bool d.deprecationReason.isSome),
    ("deprecationReason", textOrNull d.deprecationReason)]

def describeDirective (d : DirectiveDef) : Json :=
  .object [("name", .string d.name), ("description", textOrNull d.description),
    ("locations", .array (d.locations.map fun location => .string location.text)),
    ("args", describeInputs schema d.arguments)]

/-- The named type that a description is of. -/
def describedType? (description : Json) : Option TypeDef := do
  let name ← description.get? "name"
  schema.type? (← name.asString?)

end Schema

namespace MetaResolver

/-- The descriptions of some parts, or null without them. -/
def optionalArray {α : Type} (describe : α → Json) : Option (List α) → Json
  | some parts => .array (parts.map describe)
  | none => .null

/-- The parts that an introspection field lists: all, or those that are not deprecated. -/
def listed {α : Type} (args : Json.Members) (deprecation : α → Option String)
    (parts : List α) : List α :=
  match Assoc.get? args Introspection.includeDeprecated with
  | some (.bool true) => parts
  | _ => parts.filter fun part => (deprecation part).isNone

/-- The value of an introspection field. -/
def value (schema : Schema) (params : ResolveParams) (resolver : MetaResolver) : Json :=
  let type? := schema.describedType? params.source
  match resolver with
  | .schema => .object []
  | .typeByName =>
    let name := (params.arg? Introspection.nameArgument).bind (·.asString?)
    Schema.describeOptionalType (schema.type? (name.getD ""))
  | .typeName => .string params.info.parentTypeName
  | .types => .array (schema.types.map fun (_, t) => Schema.describeType t)
  | .queryType => Schema.describeType schema.queryType
  | .mutationType => Schema.describeOptionalType schema.mutationType
  | .subscriptionType => Schema.describeOptionalType schema.subscriptionType
  | .directives => .array (schema.directives.map fun (_, d) => schema.describeDirective d)
  | .fields =>
    optionalArray schema.describeField ((type?.bind (·.fields?)).map fun table =>
      listed params.args FieldDef.deprecationReason (table.map (·.2)))
  | .interfaces =>
    let names := (type?.filter (·.isObjectType)).map (·.interfaceNames)
    optionalArray Schema.describeType (names.map (·.filterMap schema.type?))
  | .possibleTypes =>
    optionalArray Schema.describeType
      ((type?.filter (·.isAbstractType)).map schema.possibleTypes)
  | .enumValues =>
    optionalArray Schema.describeEnumValue ((type?.bind (·.enum?)).map fun d =>
      listed params.args EnumValueDef.deprecationReason (d.values.map (·.2)))
  | .inputFields =>
    optionalArray schema.describeInput
      ((type?.bind (·.inputObject?)).map fun d => d.fields.map (·.2))

end MetaResolver

end GraphQL

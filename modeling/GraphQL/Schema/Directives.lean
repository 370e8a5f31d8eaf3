import GraphQL.Schema.Scalars

/-!
# The directives of every schema

`@skip` and `@include` decide whether a selection counts; `@deprecated` marks parts
of a schema.
-/

namespace GraphQL

namespace TypeRef

/-- A type by its name, null allowed. -/
def ofName (name : String) : TypeRef := .named name true

/-- A type by its name, without null. -/
def required (name : String) : TypeRef := .named name false

/-- A list of values of a type, none of them null, and not null itself. -/
def requiredList (name : String) : TypeRef := .list (required name) false

end TypeRef

namespace DirectiveDef

/-- The argument that holds the condition of `@skip` and `@include`. -/
def condition : String := "if"

/-- The reason that is given for a deprecation without one. -/
def defaultReason : String := "No longer supported"

private def conditional (name description whenTrue : String) : DirectiveDef where
  name
  description := some description
  locations := [.field, .fragmentSpread, .inlineFragment]
  arguments := InputDef.table [
    { name := condition, description := some whenTrue,
      type := .required Scalar.booleanName }]

/-- `@skip(if: Boolean!)` -/
def skipIf : DirectiveDef :=
  conditional "skip"
    "Directs the executor to skip this field or fragment when the `if` argument is true."
    "Skipped when true."

/-- `@include(if: Boolean!)` -/
def includeIf : DirectiveDef :=
  conditional "include"
    ("Directs the executor to include this field or fragment only when the `if` " ++
     "argument is true.")
    "Included when true."

/-- `@deprecated(reason: String)`, with a reason by default. -/
def deprecated : DirectiveDef where
  name := "deprecated"
  description := some "Marks an element of a GraphQL schema as no longer supported."
  locations := [.fieldDefinition, .enumValue]
  arguments := InputDef.table [
    { name := "reason"
      description := some
        ("Explains why this element was deprecated, usually also including a " ++
         "suggestion for how to access supported similar data. Formatted using " ++
         "the Markdown syntax (as specified by [CommonMark](https://commonmark.org/).")
      type := .ofName Scalar.stringName
      defaultValue := some (.string defaultReason) }]

/-- The directives of every schema, in the order in which they are listed. -/
def builtins : List DirectiveDef := [skipIf, includeIf, deprecated]

end DirectiveDef

end GraphQL

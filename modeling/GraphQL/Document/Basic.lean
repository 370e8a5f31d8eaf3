import GraphQL.Text.Source

/-!
# Documents

What a text of the query language says, as a tree: operations, fragments, and the
definitions of a type system.  The names of the types are those of the grammar.
Every part of the tree may carry the stretch of text it was read from; a tree
made by hand has none.
-/

namespace GraphQL

/-- A name, as of a field, a type or a variable. -/
structure Name where
  text : String
  span : Option Span := none
  deriving DecidableEq, Repr

/-- The use of a variable, or the variable that a definition introduces. -/
structure Variable where
  name : Name
  span : Option Span := none
  deriving DecidableEq, Repr

/-! ## Types as written -/

/-- A type written by its name. -/
structure NamedType where
  name : Name
  span : Option Span := none
  deriving DecidableEq, Repr

/-- A type as it is written: `T`, `[T]` or `T!`. -/
inductive TypeExpr where
  | named (type : NamedType)
  | list (item : TypeExpr) (span : Option Span)
  | nonNull (type : TypeExpr) (span : Option Span)
  deriving DecidableEq, Repr

/-! ## Values as written -/

mutual

/-- A value as it is written.  Numbers keep their text. -/
inductive Value where
  | var (v : Variable)
  | int (text : String) (span : Option Span)
  | float (text : String) (span : Option Span)
  /-- A string, with its value; `block` tells which quotes it is written in. -/
  | string (value : String) (block : Bool) (span : Option Span)
  | boolean (value : Bool) (span : Option Span)
  | null (span : Option Span)
  | enum (name : String) (span : Option Span)
  | list (items : List Value) (span : Option Span)
  | object (fields : List ObjectField) (span : Option Span)

/-- A field of an object value. -/
structure ObjectField where
  name : Name
  value : Value
  span : Option Span := none

end

deriving instance BEq, Repr for Value, ObjectField

instance : Inhabited Value := ⟨.null none⟩

/-- An argument given to a field or a directive. -/
structure Argument where
  name : Name
  value : Value
  span : Option Span := none
  deriving BEq, Repr

/-- A directive applied somewhere, as `@include(if: $flag)`. -/
structure Directive where
  name : Name
  arguments : List Argument
  span : Option Span := none
  deriving BEq, Repr

/-! ## Selections -/

/-- The use of a fragment, `...Name`. -/
structure FragmentSpread where
  name : Name
  directives : List Directive
  span : Option Span := none
  deriving BEq, Repr

mutual

/-- What is selected of an object, in braces. -/
structure SelectionSet where
  selections : List Selection
  span : Option Span := none

/-- One selection: a field, a fragment by its name, or a fragment on the spot. -/
inductive Selection where
  | field (f : Field)
  | spread (s : FragmentSpread)
  | inline (f : InlineFragment)

/-- The selection of a field. -/
structure Field where
  /-- The name it gets in the response instead of its own. -/
  responseName : Option Name
  name : Name
  arguments : List Argument
  directives : List Directive
  selectionSet : Option SelectionSet
  span : Option Span := none

/-- A fragment written where it is used, `... on Type { }`. -/
structure InlineFragment where
  typeCondition : Option NamedType
  directives : List Directive
  selectionSet : SelectionSet
  span : Option Span := none

end

deriving instance BEq, Repr for SelectionSet, Selection, Field, InlineFragment

instance : Inhabited SelectionSet := ⟨⟨[], none⟩⟩

/-! ## Executable definitions -/

/-- The kinds of operations. -/
inductive OperationKind where
  | query | mutation | subscription
  deriving DecidableEq, Repr

/-- The definition of a variable, `$name: Type = default`. -/
structure VariableDefinition where
  var : Variable
  type : TypeExpr
  defaultValue : Option Value
  span : Option Span := none
  deriving BEq, Repr

/-- An operation. -/
structure OperationDefinition where
  operation : OperationKind
  name : Option Name
  variableDefinitions : List VariableDefinition
  directives : List Directive
  selectionSet : SelectionSet
  span : Option Span := none
  deriving BEq, Repr

/-- A fragment with a name. -/
structure FragmentDefinition where
  name : Name
  typeCondition : NamedType
  directives : List Directive
  selectionSet : SelectionSet
  span : Option Span := none
  deriving BEq, Repr

/-! ## Definitions of a type system -/

/-- The type of one kind of operations, in a schema definition. -/
structure OperationTypeDefinition where
  operation : OperationKind
  type : NamedType
  span : Option Span := none
  deriving BEq, Repr

/-- `schema { query: Q }`. -/
structure SchemaDefinition where
  directives : List Directive
  operationTypes : List OperationTypeDefinition
  span : Option Span := none
  deriving BEq, Repr

structure ScalarTypeDefinition where
  description : Option String
  name : Name
  directives : List Directive
  span : Option Span := none
  deriving BEq, Repr

/-- An argument of a field or a directive, or a field of an input object. -/
structure InputValueDefinition where
  description : Option String
  name : Name
  type : TypeExpr
  defaultValue : Option Value
  directives : List Directive
  span : Option Span := none
  deriving BEq, Repr

structure FieldDefinition where
  description : Option String
  name : Name
  arguments : List InputValueDefinition
  type : TypeExpr
  directives : List Directive
  span : Option Span := none
  deriving BEq, Repr

structure ObjectTypeDefinition where
  description : Option String
  name : Name
  interfaces : List NamedType
  directives : List Directive
  fields : List FieldDefinition
  span : Option Span := none
  deriving BEq, Repr

structure InterfaceTypeDefinition where
  description : Option String
  name : Name
  directives : List Directive
  fields : List FieldDefinition
  span : Option Span := none
  deriving BEq, Repr

structure UnionTypeDefinition where
  description : Option String
  name : Name
  directives : List Directive
  types : List NamedType
  span : Option Span := none
  deriving BEq, Repr

structure EnumValueDefinition where
  description : Option String
  name : Name
  directives : List Directive
  span : Option Span := none
  deriving BEq, Repr

structure EnumTypeDefinition where
  description : Option String
  name : Name
  directives : List Directive
  values : List EnumValueDefinition
  span : Option Span := none
  deriving BEq, Repr

structure InputObjectTypeDefinition where
  description : Option String
  name : Name
  directives : List Directive
  fields : List InputValueDefinition
  span : Option Span := none
  deriving BEq, Repr

/-- `extend type T { }`; only object types can be extended. -/
structure TypeExtensionDefinition where
  definition : ObjectTypeDefinition
  span : Option Span := none
  deriving BEq, Repr

/-- `directive @name on LOCATION`. -/
structure DirectiveDefinition where
  description : Option String
  name : Name
  arguments : List InputValueDefinition
  locations : List Name
  span : Option Span := none
  deriving BEq, Repr

/-! ## Documents -/

/-- A definition at the top of a document. -/
inductive Definition where
  | operation (definition : OperationDefinition)
  | fragment (definition : FragmentDefinition)
  | schema (definition : SchemaDefinition)
  | scalarType (definition : ScalarTypeDefinition)
  | objectType (definition : ObjectTypeDefinition)
  | interfaceType (definition : InterfaceTypeDefinition)
  | unionType (definition : UnionTypeDefinition)
  | enumType (definition : EnumTypeDefinition)
  | inputObjectType (definition : InputObjectTypeDefinition)
  | typeExtension (definition : TypeExtensionDefinition)
  | directive (definition : DirectiveDefinition)
  deriving BEq, Repr

/-- A whole document, with the text it was read from. -/
structure Document where
  definitions : List Definition
  span : Option Span := none
  source : Option Source := none
  deriving BEq, Repr

/-! ## Views -/

namespace OperationKind

/-- The keyword of the kind. -/
def keyword : OperationKind → String
  | query => "query"
  | mutation => "mutation"
  | subscription => "subscription"

def ofKeyword? : String → Option OperationKind
  | "query" => some query
  | "mutation" => some mutation
  | "subscription" => some subscription
  | _ => none

end OperationKind

namespace TypeExpr

def span : TypeExpr → Option Span
  | named t => t.span
  | list _ span | nonNull _ span => span

/-- The name within all brackets and marks. -/
def innermostName : TypeExpr → String
  | named t => t.name.text
  | list t _ | nonNull t _ => t.innermostName

def isNonNull : TypeExpr → Bool
  | nonNull _ _ => true
  | _ => false

end TypeExpr

namespace Value

def span : Value → Option Span
  | var v => v.span
  | int _ span | float _ span | string _ _ span | boolean _ span | null span | enum _ span
  | list _ span | object _ span => span

def isNull : Value → Bool
  | null _ => true
  | _ => false

mutual

/-- Whether no variable occurs in the value. -/
def isConst : Value → Bool
  | var _ => false
  | list items _ => areConst items
  | object fields _ => fieldsAreConst fields
  | _ => true

def areConst : List Value → Bool
  | [] => true
  | value :: rest => value.isConst && areConst rest

def fieldsAreConst : List ObjectField → Bool
  | [] => true
  | ⟨_, value, _⟩ :: rest => value.isConst && fieldsAreConst rest

end

end Value

namespace Field

/-- The key of the field in a response: its alias, or else its name. -/
def responseKey (field : Field) : String := (field.responseName.getD field.name).text

end Field

namespace Selection

def directives : Selection → List Directive
  | field f => f.directives
  | spread s => s.directives
  | inline f => f.directives

end Selection

namespace Directive

/-- The first argument of the given name. -/
def argument? (directive : Directive) (name : String) : Option Argument :=
  directive.arguments.find? (·.name.text = name)

end Directive

namespace OperationDefinition

def nameText? (operation : OperationDefinition) : Option String := operation.name.map (·.text)

end OperationDefinition

namespace Definition

def span : Definition → Option Span
  | operation d => d.span
  | fragment d => d.span
  | schema d => d.span
  | scalarType d => d.span
  | objectType d => d.span
  | interfaceType d => d.span
  | unionType d => d.span
  | enumType d => d.span
  | inputObjectType d => d.span
  | typeExtension d => d.span
  | directive d => d.span

/-- Whether the definition can be executed. -/
def isExecutable : Definition → Bool
  | operation _ | fragment _ => true
  | _ => false

end Definition

namespace Document

/-- The operations of the document, in order. -/
def operations (document : Document) : List OperationDefinition :=
  document.definitions.filterMap fun
    | .operation operation => some operation
    | _ => none

/-- The fragments of the document, in order. -/
def fragments (document : Document) : List FragmentDefinition :=
  document.definitions.filterMap fun
    | .fragment fragment => some fragment
    | _ => none

/-- The first fragment with the given name. -/
def fragment? (document : Document) (name : String) : Option FragmentDefinition :=
  document.fragments.find? (·.name.text = name)

end Document

end GraphQL

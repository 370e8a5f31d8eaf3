import GraphQL.Document.Basic

/-!
# The parts of a document as nodes of a tree

A `Node` is any part of a document that can be visited and replaced on its own.
Its children stand in slots, each of which holds any number of nodes.  What stands
in a slot and what may take its place are told by one table, `Node.contents`; in
which order the slots of a node are visited is told by `NodeKind.slots`.
-/

namespace GraphQL

/-! ## Kinds and slots -/

/-- The kinds of nodes. -/
inductive NodeKind where
  | name | document | operationDefinition | variableDefinition | variableUse | selectionSet
  | field | argument | fragmentSpread | inlineFragment | fragmentDefinition | intValue
  | floatValue | stringValue | booleanValue | nullValue | enumValue | listValue | objectValue
  | objectField | directive | namedType | listType | nonNullType | schemaDefinition
  | operationTypeDefinition | scalarTypeDefinition | objectTypeDefinition | fieldDefinition
  | inputValueDefinition | interfaceTypeDefinition | unionTypeDefinition | enumTypeDefinition
  | enumValueDefinition | inputObjectTypeDefinition | typeExtensionDefinition
  | directiveDefinition
  deriving DecidableEq, Repr

/-- The slots in which the children of a node stand. -/
inductive Slot where
  | responseName | arguments | defaultValue | definition | definitions | directives | fields
  | interfaces | locations | name | operationTypes | selectionSet | selections | type
  | typeCondition | types | value | values | variableUse | variableDefinitions
  deriving DecidableEq, Repr

namespace NodeKind

/-- The name of the kind, as messages give it. -/
def text : NodeKind → String
  | name => "Name"
  | document => "Document"
  | operationDefinition => "OperationDefinition"
  | variableDefinition => "VariableDefinition"
  | variableUse => "Variable"
  | selectionSet => "SelectionSet"
  | field => "Field"
  | argument => "Argument"
  | fragmentSpread => "FragmentSpread"
  | inlineFragment => "InlineFragment"
  | fragmentDefinition => "FragmentDefinition"
  | intValue => "IntValue"
  | floatValue => "FloatValue"
  | stringValue => "StringValue"
  | booleanValue => "BooleanValue"
  | nullValue => "NullValue"
  | enumValue => "EnumValue"
  | listValue => "ListValue"
  | objectValue => "ObjectValue"
  | objectField => "ObjectField"
  | directive => "Directive"
  | namedType => "NamedType"
  | listType => "ListType"
  | nonNullType => "NonNullType"
  | schemaDefinition => "SchemaDefinition"
  | operationTypeDefinition => "OperationTypeDefinition"
  | scalarTypeDefinition => "ScalarTypeDefinition"
  | objectTypeDefinition => "ObjectTypeDefinition"
  | fieldDefinition => "FieldDefinition"
  | inputValueDefinition => "InputValueDefinition"
  | interfaceTypeDefinition => "InterfaceTypeDefinition"
  | unionTypeDefinition => "UnionTypeDefinition"
  | enumTypeDefinition => "EnumTypeDefinition"
  | enumValueDefinition => "EnumValueDefinition"
  | inputObjectTypeDefinition => "InputObjectTypeDefinition"
  | typeExtensionDefinition => "TypeExtensionDefinition"
  | directiveDefinition => "DirectiveDefinition"

/-- The slots of a node of this kind, in the order of the text. -/
def slots : NodeKind → List Slot
  | name | intValue | floatValue | stringValue | booleanValue | nullValue | enumValue => []
  | document => [.definitions]
  | operationDefinition => [.name, .variableDefinitions, .directives, .selectionSet]
  | variableDefinition => [.variableUse, .type, .defaultValue]
  | variableUse => [.name]
  | selectionSet => [.selections]
  | field => [.responseName, .name, .arguments, .directives, .selectionSet]
  | argument => [.name, .value]
  | fragmentSpread => [.name, .directives]
  | inlineFragment => [.typeCondition, .directives, .selectionSet]
  | fragmentDefinition => [.name, .typeCondition, .directives, .selectionSet]
  | listValue => [.values]
  | objectValue => [.fields]
  | objectField => [.name, .value]
  | directive => [.name, .arguments]
  | namedType => [.name]
  | listType | nonNullType => [.type]
  | schemaDefinition => [.directives, .operationTypes]
  | operationTypeDefinition => [.type]
  | scalarTypeDefinition => [.name, .directives]
  | objectTypeDefinition => [.name, .interfaces, .directives, .fields]
  | fieldDefinition => [.name, .arguments, .type, .directives]
  | inputValueDefinition => [.name, .type, .defaultValue, .directives]
  | interfaceTypeDefinition | inputObjectTypeDefinition => [.name, .directives, .fields]
  | unionTypeDefinition => [.name, .directives, .types]
  | enumTypeDefinition => [.name, .directives, .values]
  | enumValueDefinition => [.name, .directives]
  | typeExtensionDefinition => [.definition]
  | directiveDefinition => [.name, .arguments, .locations]

end NodeKind

namespace Slot

/-- All slots, by their names. -/
def all : List Slot :=
  [responseName, arguments, defaultValue, definition, definitions, directives, fields, interfaces,
    locations, name, operationTypes, selectionSet, selections, type, typeCondition, types, value,
    values, variableUse, variableDefinitions]

/-- The name of the slot, as messages give it. -/
def text : Slot → String
  | responseName => "Alias"
  | arguments => "Arguments"
  | defaultValue => "DefaultValue"
  | definition => "Definition"
  | definitions => "Definitions"
  | directives => "Directives"
  | fields => "Fields"
  | interfaces => "Interfaces"
  | locations => "Locations"
  | name => "Name"
  | operationTypes => "OperationTypes"
  | selectionSet => "SelectionSet"
  | selections => "Selections"
  | type => "Type"
  | typeCondition => "TypeCondition"
  | types => "Types"
  | value => "Value"
  | values => "Values"
  | variableUse => "Variable"
  | variableDefinitions => "VariableDefinitions"

end Slot

/-! ## Nodes -/

/-- A part of a document. -/
inductive Node where
  | name (n : Name)
  | document (d : Document)
  | definition (d : Definition)
  | variableDefinition (d : VariableDefinition)
  | selectionSet (s : SelectionSet)
  | selection (s : Selection)
  | argument (a : Argument)
  | value (v : Value)
  | objectField (f : ObjectField)
  | directive (d : Directive)
  | type (t : TypeExpr)
  | operationTypeDefinition (d : OperationTypeDefinition)
  | fieldDefinition (d : FieldDefinition)
  | inputValueDefinition (d : InputValueDefinition)
  | enumValueDefinition (d : EnumValueDefinition)
  deriving BEq, Repr

namespace Value

def kind : Value → NodeKind
  | var _ => .variableUse
  | int _ _ => .intValue
  | float _ _ => .floatValue
  | string _ _ _ => .stringValue
  | boolean _ _ => .booleanValue
  | null _ => .nullValue
  | enum _ _ => .enumValue
  | list _ _ => .listValue
  | object _ _ => .objectValue

end Value

namespace TypeExpr

def kind : TypeExpr → NodeKind
  | named _ => .namedType
  | list _ _ => .listType
  | nonNull _ _ => .nonNullType

end TypeExpr

namespace Definition

def kind : Definition → NodeKind
  | operation _ => .operationDefinition
  | fragment _ => .fragmentDefinition
  | schema _ => .schemaDefinition
  | scalarType _ => .scalarTypeDefinition
  | objectType _ => .objectTypeDefinition
  | interfaceType _ => .interfaceTypeDefinition
  | unionType _ => .unionTypeDefinition
  | enumType _ => .enumTypeDefinition
  | inputObjectType _ => .inputObjectTypeDefinition
  | typeExtension _ => .typeExtensionDefinition
  | directive _ => .directiveDefinition

end Definition

namespace Selection

def kind : Selection → NodeKind
  | field _ => .field
  | spread _ => .fragmentSpread
  | inline _ => .inlineFragment

def span : Selection → Option Span
  | field f => f.span
  | spread s => s.span
  | inline f => f.span

end Selection

namespace Node

def kind : Node → NodeKind
  | name _ => .name
  | document _ => .document
  | definition d => d.kind
  | variableDefinition _ => .variableDefinition
  | selectionSet _ => .selectionSet
  | selection s => s.kind
  | argument _ => .argument
  | value v => v.kind
  | objectField _ => .objectField
  | directive _ => .directive
  | type t => t.kind
  | operationTypeDefinition _ => .operationTypeDefinition
  | fieldDefinition _ => .fieldDefinition
  | inputValueDefinition _ => .inputValueDefinition
  | enumValueDefinition _ => .enumValueDefinition

def span : Node → Option Span
  | name n => n.span
  | document d => d.span
  | definition d => d.span
  | variableDefinition d => d.span
  | selectionSet s => s.span
  | selection s => s.span
  | argument a => a.span
  | value v => v.span
  | objectField f => f.span
  | directive d => d.span
  | type t => t.span
  | operationTypeDefinition d => d.span
  | fieldDefinition d => d.span
  | inputValueDefinition d => d.span
  | enumValueDefinition d => d.span

end Node

/-! ## What a slot can hold -/

/-- The parts of documents that stand in slots: how they become nodes, and which
nodes are such parts. -/
class Part (α : Type) where
  toNode : α → Node
  ofNode? : Node → Option α

namespace Part

instance : Part Name where
  toNode := .name
  ofNode?
    | .name n => some n
    | _ => none

instance : Part Definition where
  toNode := .definition
  ofNode?
    | .definition d => some d
    | _ => none

instance : Part VariableDefinition where
  toNode := .variableDefinition
  ofNode?
    | .variableDefinition d => some d
    | _ => none

instance : Part Variable where
  toNode v := .value (.var v)
  ofNode?
    | .value (.var v) => some v
    | _ => none

instance : Part SelectionSet where
  toNode := .selectionSet
  ofNode?
    | .selectionSet s => some s
    | _ => none

instance : Part Selection where
  toNode := .selection
  ofNode?
    | .selection s => some s
    | _ => none

instance : Part Argument where
  toNode := .argument
  ofNode?
    | .argument a => some a
    | _ => none

instance : Part Value where
  toNode := .value
  ofNode?
    | .value v => some v
    | _ => none

instance : Part ObjectField where
  toNode := .objectField
  ofNode?
    | .objectField f => some f
    | _ => none

instance : Part Directive where
  toNode := .directive
  ofNode?
    | .directive d => some d
    | _ => none

instance : Part TypeExpr where
  toNode := .type
  ofNode?
    | .type t => some t
    | _ => none

instance : Part NamedType where
  toNode t := .type (.named t)
  ofNode?
    | .type (.named t) => some t
    | _ => none

instance : Part ObjectTypeDefinition where
  toNode d := .definition (.objectType d)
  ofNode?
    | .definition (.objectType d) => some d
    | _ => none

instance : Part OperationTypeDefinition where
  toNode := .operationTypeDefinition
  ofNode?
    | .operationTypeDefinition d => some d
    | _ => none

instance : Part FieldDefinition where
  toNode := .fieldDefinition
  ofNode?
    | .fieldDefinition d => some d
    | _ => none

instance : Part InputValueDefinition where
  toNode := .inputValueDefinition
  ofNode?
    | .inputValueDefinition d => some d
    | _ => none

instance : Part EnumValueDefinition where
  toNode := .enumValueDefinition
  ofNode?
    | .enumValueDefinition d => some d
    | _ => none

/-- What `rebuild` makes of a node that is such a part, if there is a place for it.
Otherwise the node is given back. -/
def put {α : Type} [Part α] (place : Prop) [Decidable place] (rebuild : α → Node) (node : Node) :
    Except Node Node :=
  if place then
    match ofNode? node with
    | some part => .ok (rebuild part)
    | none => .error node
  else .error node

end Part

/-- What stands in a slot of a node, and the node with another part in the place
of one of them.  A part that cannot take the place is given back. -/
structure Contents where
  nodes : List Node
  replace : (index : Nat) → Node → Except Node Node

namespace Contents

/-- The node with another part in the place of one in the slot, if it can take it. -/
def replace? (contents : Contents) (index : Nat) (node : Node) : Option Node :=
  (contents.replace index node).toOption

variable {α : Type} [Part α]

/-- A slot of no node. -/
def none : Contents := ⟨[], fun _ node => .error node⟩

/-- A slot of any number of parts; `rebuild` puts a row of them into the node. -/
def many (parts : List α) (rebuild : List α → Node) : Contents where
  nodes := parts.map Part.toNode
  replace index := Part.put (index < parts.length) fun part => rebuild (parts.set index part)

/-- A slot of one part. -/
def one (part : α) (rebuild : α → Node) : Contents where
  nodes := [Part.toNode part]
  replace index := Part.put (index = 0) rebuild

/-- A slot of one part or none. -/
def optional (part? : Option α) (rebuild : Option α → Node) : Contents where
  nodes := part?.toList.map Part.toNode
  replace index := Part.put (part?.isSome ∧ index = 0) fun part => rebuild (some part)

end Contents

namespace Node

open Contents (many one optional)

/-- What stands in a slot of a definition. -/
def definitionContents (d : Definition) (slot : Slot) : Contents :=
  match d, slot with
  | .operation d, .name => optional d.name fun x => definition (.operation { d with name := x })
  | .operation d, .variableDefinitions =>
    many d.variableDefinitions fun x => definition (.operation { d with variableDefinitions := x })
  | .operation d, .directives =>
    many d.directives fun x => definition (.operation { d with directives := x })
  | .operation d, .selectionSet =>
    one d.selectionSet fun x => definition (.operation { d with selectionSet := x })
  | .fragment d, .name => one d.name fun x => definition (.fragment { d with name := x })
  | .fragment d, .typeCondition =>
    one d.typeCondition fun x => definition (.fragment { d with typeCondition := x })
  | .fragment d, .directives =>
    many d.directives fun x => definition (.fragment { d with directives := x })
  | .fragment d, .selectionSet =>
    one d.selectionSet fun x => definition (.fragment { d with selectionSet := x })
  | .schema d, .directives =>
    many d.directives fun x => definition (.schema { d with directives := x })
  | .schema d, .operationTypes =>
    many d.operationTypes fun x => definition (.schema { d with operationTypes := x })
  | .scalarType d, .name => one d.name fun x => definition (.scalarType { d with name := x })
  | .scalarType d, .directives =>
    many d.directives fun x => definition (.scalarType { d with directives := x })
  | .objectType d, .name => one d.name fun x => definition (.objectType { d with name := x })
  | .objectType d, .interfaces =>
    many d.interfaces fun x => definition (.objectType { d with interfaces := x })
  | .objectType d, .directives =>
    many d.directives fun x => definition (.objectType { d with directives := x })
  | .objectType d, .fields =>
    many d.fields fun x => definition (.objectType { d with fields := x })
  | .interfaceType d, .name =>
    one d.name fun x => definition (.interfaceType { d with name := x })
  | .interfaceType d, .directives =>
    many d.directives fun x => definition (.interfaceType { d with directives := x })
  | .interfaceType d, .fields =>
    many d.fields fun x => definition (.interfaceType { d with fields := x })
  | .unionType d, .name => one d.name fun x => definition (.unionType { d with name := x })
  | .unionType d, .directives =>
    many d.directives fun x => definition (.unionType { d with directives := x })
  | .unionType d, .types => many d.types fun x => definition (.unionType { d with types := x })
  | .enumType d, .name => one d.name fun x => definition (.enumType { d with name := x })
  | .enumType d, .directives =>
    many d.directives fun x => definition (.enumType { d with directives := x })
  | .enumType d, .values => many d.values fun x => definition (.enumType { d with values := x })
  | .inputObjectType d, .name =>
    one d.name fun x => definition (.inputObjectType { d with name := x })
  | .inputObjectType d, .directives =>
    many d.directives fun x => definition (.inputObjectType { d with directives := x })
  | .inputObjectType d, .fields =>
    many d.fields fun x => definition (.inputObjectType { d with fields := x })
  | .typeExtension d, .definition =>
    one d.definition fun x => definition (.typeExtension { d with definition := x })
  | .directive d, .name => one d.name fun x => definition (.directive { d with name := x })
  | .directive d, .arguments =>
    many d.arguments fun x => definition (.directive { d with arguments := x })
  | .directive d, .locations =>
    many d.locations fun x => definition (.directive { d with locations := x })
  | _, _ => .none

/-- What stands in a slot of a selection. -/
def selectionContents (s : Selection) (slot : Slot) : Contents :=
  match s, slot with
  | .field f, .responseName =>
    optional f.responseName fun x => selection (.field { f with responseName := x })
  | .field f, .name => one f.name fun x => selection (.field { f with name := x })
  | .field f, .arguments => many f.arguments fun x => selection (.field { f with arguments := x })
  | .field f, .directives =>
    many f.directives fun x => selection (.field { f with directives := x })
  | .field f, .selectionSet =>
    optional f.selectionSet fun x => selection (.field { f with selectionSet := x })
  | .spread s, .name => one s.name fun x => selection (.spread { s with name := x })
  | .spread s, .directives =>
    many s.directives fun x => selection (.spread { s with directives := x })
  | .inline f, .typeCondition =>
    optional f.typeCondition fun x => selection (.inline { f with typeCondition := x })
  | .inline f, .directives =>
    many f.directives fun x => selection (.inline { f with directives := x })
  | .inline f, .selectionSet =>
    one f.selectionSet fun x => selection (.inline { f with selectionSet := x })
  | _, _ => .none

/-- What stands in a slot of a node. -/
def contents (node : Node) (slot : Slot) : Contents :=
  match node, slot with
  | document d, .definitions => many d.definitions fun x => document { d with definitions := x }
  | definition d, slot => definitionContents d slot
  | variableDefinition d, .variableUse => one d.var fun x => variableDefinition { d with var := x }
  | variableDefinition d, .type => one d.type fun x => variableDefinition { d with type := x }
  | variableDefinition d, .defaultValue =>
    optional d.defaultValue fun x => variableDefinition { d with defaultValue := x }
  | selectionSet s, .selections =>
    many s.selections fun x => selectionSet { s with selections := x }
  | selection s, slot => selectionContents s slot
  | argument a, .name => one a.name fun x => argument { a with name := x }
  | argument a, .value => one a.value fun x => argument { a with value := x }
  | value (.var v), .name => one v.name fun x => value (.var { v with name := x })
  | value (.list items span), .values => many items fun x => value (.list x span)
  | value (.object fields span), .fields => many fields fun x => value (.object x span)
  | objectField f, .name => one f.name fun x => objectField { f with name := x }
  | objectField f, .value => one f.value fun x => objectField { f with value := x }
  | directive d, .name => one d.name fun x => directive { d with name := x }
  | directive d, .arguments => many d.arguments fun x => directive { d with arguments := x }
  | type (.named t), .name => one t.name fun x => type (.named { t with name := x })
  | type (.list t span), .type => one t fun x => type (.list x span)
  | type (.nonNull t span), .type => one t fun x => type (.nonNull x span)
  | operationTypeDefinition d, .type =>
    one d.type fun x => operationTypeDefinition { d with type := x }
  | fieldDefinition d, .name => one d.name fun x => fieldDefinition { d with name := x }
  | fieldDefinition d, .arguments =>
    many d.arguments fun x => fieldDefinition { d with arguments := x }
  | fieldDefinition d, .type => one d.type fun x => fieldDefinition { d with type := x }
  | fieldDefinition d, .directives =>
    many d.directives fun x => fieldDefinition { d with directives := x }
  | inputValueDefinition d, .name => one d.name fun x => inputValueDefinition { d with name := x }
  | inputValueDefinition d, .type => one d.type fun x => inputValueDefinition { d with type := x }
  | inputValueDefinition d, .defaultValue =>
    optional d.defaultValue fun x => inputValueDefinition { d with defaultValue := x }
  | inputValueDefinition d, .directives =>
    many d.directives fun x => inputValueDefinition { d with directives := x }
  | enumValueDefinition d, .name => one d.name fun x => enumValueDefinition { d with name := x }
  | enumValueDefinition d, .directives =>
    many d.directives fun x => enumValueDefinition { d with directives := x }
  | _, _ => .none

/-- The nodes in a slot, in order. -/
def children (node : Node) (slot : Slot) : List Node := (node.contents slot).nodes

/-- The node with `replacement` in the place of the child at `index` of a slot, if
there is such a child and the slot can hold a node of that kind. -/
def replaceChild? (node : Node) (slot : Slot) (index : Nat) (replacement : Node) : Option Node :=
  (node.contents slot).replace? index replacement

/-- The children with their places, in the order of the text. -/
def placedChildren (node : Node) : List (Slot × Nat × Node) :=
  node.kind.slots.flatMap fun slot =>
    (node.children slot).zipIdx.map fun (child, index) => (slot, index, child)

end Node

end GraphQL

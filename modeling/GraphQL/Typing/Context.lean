import GraphQL.Document.Node
import GraphQL.Schema.Basic

/-!
# Types at the nodes of a document

A walk over a document takes a `TypeContext` along, which tells the types that are
known at the current node: the type a field has, the type its fields are selected of,
the type a value must have, and the definitions that apply.  Entering a node adds to
the context what the node determines, and leaving the node takes it away again.
-/

namespace GraphQL

/-- The types and definitions in effect at a node.  Of each list the first entry is
the one of the innermost node. -/
structure TypeContext where
  outputTypes : List (Option TypeRef) := []
  parentTypes : List (Option TypeDef) := []
  inputTypes : List (Option TypeRef) := []
  fields : List (Option FieldDef) := []
  defaults : List (Option Json) := []
  directive? : Option DirectiveDef := none
  argument? : Option InputDef := none
  enumValue? : Option EnumValueDef := none

namespace TypeContext

/-! ## What is known -/

/-- The type of the current operation, fragment or field. -/
def outputType? (c : TypeContext) : Option TypeRef := c.outputTypes.head?.join

/-- The named type within the output type. -/
def namedOutputType? (schema : Schema) (c : TypeContext) : Option TypeDef :=
  c.outputType?.bind schema.namedType?

/-- The composite type whose fields the current selection set selects. -/
def parentType? (c : TypeContext) : Option TypeDef := c.parentTypes.head?.join

/-- The type that the current value must have. -/
def inputType? (c : TypeContext) : Option TypeRef := c.inputTypes.head?.join

/-- The input type around the current one. -/
def parentInputType? (c : TypeContext) : Option TypeRef := c.inputTypes[1]?.join

/-- The definition of the current field. -/
def field? (c : TypeContext) : Option FieldDef := c.fields.head?.join

/-- The default of the current argument or input field. -/
def default? (c : TypeContext) : Option Json := c.defaults.head?.join

/-! ## Entering and leaving -/

def pushOutput (type : Option TypeRef) (c : TypeContext) : TypeContext :=
  { c with outputTypes := type :: c.outputTypes }

def pushInput (type : Option TypeRef) (c : TypeContext) : TypeContext :=
  { c with inputTypes := type :: c.inputTypes }

/-- Adds the type and the default of the place of a value. -/
def pushInputDef (schema : Schema) (definition : Option InputDef) (c : TypeContext) :
    TypeContext :=
  { c with
    defaults := definition.bind (·.defaultValue) :: c.defaults
    inputTypes := (definition.map (·.type)).filter schema.isInputRef :: c.inputTypes }

/-- The type of the items where a value of `type` is expected: of a list its items,
else the type itself. -/
def itemType (type : TypeRef) : TypeRef := type.item?.getD type.nullableType

/-- The context within a selection. -/
def enterSelection (schema : Schema) (selection : Selection) (c : TypeContext) : TypeContext :=
  match selection with
  | .field f =>
    let definition := c.parentType?.bind (schema.fieldDef? · f.name.text)
    { c with
      fields := definition :: c.fields
      outputTypes := (definition.map (·.type)).filter schema.isOutputRef :: c.outputTypes }
  | .inline f =>
    let name? := match f.typeCondition with
      | some condition => some condition.name.text
      | none => (c.namedOutputType? schema).map TypeDef.name
    c.pushOutput ((name?.map TypeRef.ofName).filter schema.isOutputRef)
  | .spread _ => c

/-- The context within a value. -/
def enterValue (schema : Schema) (value : Value) (c : TypeContext) : TypeContext :=
  match value with
  | .list _ _ =>
    { c with
      defaults := none :: c.defaults
      inputTypes := c.inputType?.map itemType :: c.inputTypes }
  | .enum name _ =>
    let definition := (c.inputType?.bind schema.namedType?).bind (·.enum?)
    { c with enumValue? := definition.bind (Assoc.get? ·.values name) }
  | _ => c

/-- The context within a definition. -/
def enterDefinition (schema : Schema) (definition : Definition) (c : TypeContext) :
    TypeContext :=
  match definition with
  | .operation d =>
    c.pushOutput ((schema.rootType? d.operation).map fun root => .ofName root.name)
  | .fragment d =>
    c.pushOutput
      ((some (TypeRef.ofName d.typeCondition.name.text)).filter schema.isOutputRef)
  | _ => c

/-- The context within a node. -/
def enter (schema : Schema) (node : Node) (c : TypeContext) : TypeContext :=
  match node with
  | .definition d => c.enterDefinition schema d
  | .selectionSet _ =>
    { c with
      parentTypes := (c.namedOutputType? schema).filter (·.isCompositeType) :: c.parentTypes }
  | .selection s => c.enterSelection schema s
  | .directive d => { c with directive? := schema.directive? d.name.text }
  | .variableDefinition d => c.pushInput ((schema.resolve? d.type).filter schema.isInputRef)
  | .argument a =>
    let definitions := match c.directive? with
      | some directive => some directive.arguments
      | none => c.field?.map FieldDef.arguments
    let definition := definitions.bind (Assoc.get? · a.name.text)
    { c.pushInputDef schema definition with argument? := definition }
  | .value v => c.enterValue schema v
  | .objectField f =>
    let object := (c.inputType?.bind schema.namedType?).bind (·.inputObject?)
    c.pushInputDef schema (object.bind (Assoc.get? ·.fields f.name.text))
  | _ => c

def popOutput (c : TypeContext) : TypeContext := { c with outputTypes := c.outputTypes.tail }

def popInput (c : TypeContext) : TypeContext := { c with inputTypes := c.inputTypes.tail }

def popInputDef (c : TypeContext) : TypeContext :=
  { c with defaults := c.defaults.tail, inputTypes := c.inputTypes.tail }

/-- The context after a node. -/
def leave (node : Node) (c : TypeContext) : TypeContext :=
  match node with
  | .definition (.operation _) | .definition (.fragment _) => c.popOutput
  | .selectionSet _ => { c with parentTypes := c.parentTypes.tail }
  | .selection (.field _) => { c.popOutput with fields := c.fields.tail }
  | .selection (.inline _) => c.popOutput
  | .directive _ => { c with directive? := none }
  | .variableDefinition _ => c.popInput
  | .argument _ => { c.popInputDef with argument? := none }
  | .value (.list _ _) | .objectField _ => c.popInputDef
  | .value (.enum _ _) => { c with enumValue? := none }
  | _ => c

end TypeContext

end GraphQL

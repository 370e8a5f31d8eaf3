import GraphQL.Document.Node

/-!
# The height of a node

`Node.height` counts the levels of a tree: a node without children has height 1,
any other is one higher than its highest child can be.
-/

namespace GraphQL

/-- The greatest height among parts. -/
def maxHeight {α : Type} (height : α → Nat) (parts : List α) : Nat :=
  parts.foldr (fun part most => max (height part) most) 0

namespace TypeExpr

def height : TypeExpr → Nat
  | named _ => 2
  | list t _ | nonNull t _ => t.height + 1

end TypeExpr

namespace Value

mutual

def height : Value → Nat
  | var _ => 2
  | list items _ => heightItems items + 1
  | object fields _ => heightFields fields + 1
  | _ => 1

def heightItems : List Value → Nat
  | [] => 0
  | value :: rest => max value.height (heightItems rest)

def heightFields : List ObjectField → Nat
  | [] => 0
  | ⟨_, value, _⟩ :: rest => max (value.height + 1) (heightFields rest)

end

end Value

def Argument.height (a : Argument) : Nat := a.value.height + 1

def Directive.height (d : Directive) : Nat := max 2 (maxHeight Argument.height d.arguments + 1)

namespace SelectionSet

mutual

def height : SelectionSet → Nat
  | ⟨selections, _⟩ => heightSelections selections + 1

def heightSelections : List Selection → Nat
  | [] => 0
  | .spread s :: rest =>
    max (max 2 (maxHeight Directive.height s.directives + 1)) (heightSelections rest)
  | .field ⟨_, _, arguments, directives, below, _⟩ :: rest =>
    let parts := max (maxHeight Argument.height arguments) (maxHeight Directive.height directives)
    max (max 2 (max parts (heightOption below) + 1)) (heightSelections rest)
  | .inline ⟨_, directives, below, _⟩ :: rest =>
    max (max 3 (max (maxHeight Directive.height directives) (height below) + 1))
      (heightSelections rest)

def heightOption : Option SelectionSet → Nat
  | none => 0
  | some set => height set

end

end SelectionSet

def Selection.height (s : Selection) : Nat := SelectionSet.heightSelections [s]

def VariableDefinition.height (d : VariableDefinition) : Nat :=
  max (max 2 d.type.height) (maxHeight Value.height d.defaultValue.toList) + 1

def InputValueDefinition.height (d : InputValueDefinition) : Nat :=
  max (max d.type.height (maxHeight Value.height d.defaultValue.toList))
    (maxHeight Directive.height d.directives) + 1

def FieldDefinition.height (d : FieldDefinition) : Nat :=
  max (max (maxHeight InputValueDefinition.height d.arguments) d.type.height)
    (maxHeight Directive.height d.directives) + 1

def EnumValueDefinition.height (d : EnumValueDefinition) : Nat :=
  max 1 (maxHeight Directive.height d.directives) + 1

def ObjectTypeDefinition.height (d : ObjectTypeDefinition) : Nat :=
  max (max 2 (maxHeight Directive.height d.directives)) (maxHeight FieldDefinition.height d.fields)
    + 1

def Definition.height : Definition → Nat
  | .operation d =>
    max (max (maxHeight VariableDefinition.height d.variableDefinitions)
      (maxHeight Directive.height d.directives)) (max 1 d.selectionSet.height) + 1
  | .fragment d => max (max 2 (maxHeight Directive.height d.directives)) d.selectionSet.height + 1
  | .schema d => max 3 (maxHeight Directive.height d.directives) + 1
  | .scalarType d => max 1 (maxHeight Directive.height d.directives) + 1
  | .objectType d => d.height
  | .interfaceType d =>
    max (max 1 (maxHeight Directive.height d.directives))
      (maxHeight FieldDefinition.height d.fields)
      + 1
  | .unionType d => max 2 (maxHeight Directive.height d.directives) + 1
  | .enumType d =>
    max (max 1 (maxHeight Directive.height d.directives))
      (maxHeight EnumValueDefinition.height d.values) + 1
  | .inputObjectType d =>
    max (max 1 (maxHeight Directive.height d.directives))
      (maxHeight InputValueDefinition.height d.fields) + 1
  | .typeExtension d => d.definition.height + 1
  | .directive d => max 1 (maxHeight InputValueDefinition.height d.arguments) + 1

/-- A bound on the number of levels of a node and the nodes below it. -/
def Node.height : Node → Nat
  | .name _ => 1
  | .document d => maxHeight Definition.height d.definitions + 1
  | .definition d => d.height
  | .variableDefinition d => d.height
  | .selectionSet s => s.height
  | .selection s => s.height
  | .argument a => a.height
  | .value v => v.height
  | .objectField f => f.value.height + 1
  | .directive d => d.height
  | .type t => t.height
  | .operationTypeDefinition _ => 3
  | .fieldDefinition d => d.height
  | .inputValueDefinition d => d.height
  | .enumValueDefinition d => d.height

end GraphQL

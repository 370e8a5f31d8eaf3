import Mathlib
import GraphQL.Document.Printer

/-!
# What a document says, apart from where

`bare` takes off a tree what does not count for its meaning: where its parts stand in a
text, and which quotes its strings were written in.  Two texts say the same if the trees
they are read as are the same when bare.  The text of a tree depends on no more than that.
-/

namespace GraphQL

/-! ## Names, types and values -/

def Name.bare (n : Name) : Name := { n with span := none }

def Variable.bare (v : Variable) : Variable := ⟨v.name.bare, none⟩

def NamedType.bare (t : NamedType) : NamedType := ⟨t.name.bare, none⟩

def TypeExpr.bare : TypeExpr → TypeExpr
  | named t => named t.bare
  | list t _ => list t.bare none
  | nonNull t _ => nonNull t.bare none

mutual

def Value.bare : Value → Value
  | .var v => .var v.bare
  | .int text _ => .int text none
  | .float text _ => .float text none
  | .string s _ _ => .string s false none
  | .boolean b _ => .boolean b none
  | .null _ => .null none
  | .enum name _ => .enum name none
  | .list items _ => .list (bareItems items) none
  | .object fields _ => .object (bareFields fields) none

def bareItems : List Value → List Value
  | [] => []
  | value :: rest => value.bare :: bareItems rest

def bareFields : List ObjectField → List ObjectField
  | [] => []
  | ⟨name, value, _⟩ :: rest => ⟨name.bare, value.bare, none⟩ :: bareFields rest

end

def ObjectField.bare (f : ObjectField) : ObjectField := ⟨f.name.bare, f.value.bare, none⟩

theorem bareItems_eq (items : List Value) : bareItems items = items.map Value.bare := by
  induction items with
  | nil => rfl
  | cons item rest ih => rw [bareItems, ih, List.map_cons]

theorem bareFields_eq (fields : List ObjectField) :
    bareFields fields = fields.map ObjectField.bare := by
  induction fields with
  | nil => rfl
  | cons field rest ih =>
      obtain ⟨name, value, span⟩ := field
      rw [bareFields, ih, List.map_cons]
      rfl

def Argument.bare (a : Argument) : Argument := ⟨a.name.bare, a.value.bare, none⟩

def Directive.bare (d : Directive) : Directive := ⟨d.name.bare, d.arguments.map Argument.bare, none⟩

/-! ## Selections -/

def FragmentSpread.bare (s : FragmentSpread) : FragmentSpread :=
  ⟨s.name.bare, s.directives.map Directive.bare, none⟩

mutual

def SelectionSet.bare : SelectionSet → SelectionSet
  | ⟨selections, _⟩ => ⟨bareSelections selections, none⟩

def bareSelections : List Selection → List Selection
  | [] => []
  | selection :: rest => selection.bare :: bareSelections rest

def Selection.bare : Selection → Selection
  | .field f => .field f.bare
  | .spread s => .spread s.bare
  | .inline f => .inline f.bare

def Field.bare : Field → Field
  | ⟨responseName, name, arguments, directives, below, _⟩ =>
    ⟨responseName.map Name.bare, name.bare, arguments.map Argument.bare,
      directives.map Directive.bare, bareBelow below, none⟩

def bareBelow : Option SelectionSet → Option SelectionSet
  | none => none
  | some set => some set.bare

def InlineFragment.bare : InlineFragment → InlineFragment
  | ⟨condition, directives, below, _⟩ =>
    ⟨condition.map NamedType.bare, directives.map Directive.bare, below.bare, none⟩

end

theorem bareSelections_eq (selections : List Selection) :
    bareSelections selections = selections.map Selection.bare := by
  induction selections with
  | nil => rfl
  | cons selection rest ih => rw [bareSelections, ih, List.map_cons]

/-! ## Executable definitions -/

def VariableDefinition.bare (d : VariableDefinition) : VariableDefinition :=
  ⟨d.var.bare, d.type.bare, d.defaultValue.map Value.bare, none⟩

def OperationDefinition.bare (d : OperationDefinition) : OperationDefinition :=
  ⟨d.operation, d.name.map Name.bare, d.variableDefinitions.map VariableDefinition.bare,
    d.directives.map Directive.bare, d.selectionSet.bare, none⟩

def FragmentDefinition.bare (d : FragmentDefinition) : FragmentDefinition :=
  ⟨d.name.bare, d.typeCondition.bare, d.directives.map Directive.bare, d.selectionSet.bare, none⟩

/-! ## Definitions of a type system -/

def OperationTypeDefinition.bare (d : OperationTypeDefinition) : OperationTypeDefinition :=
  ⟨d.operation, d.type.bare, none⟩

def SchemaDefinition.bare (d : SchemaDefinition) : SchemaDefinition :=
  ⟨d.directives.map Directive.bare, d.operationTypes.map OperationTypeDefinition.bare, none⟩

def ScalarTypeDefinition.bare (d : ScalarTypeDefinition) : ScalarTypeDefinition :=
  ⟨d.description, d.name.bare, d.directives.map Directive.bare, none⟩

def InputValueDefinition.bare (d : InputValueDefinition) : InputValueDefinition :=
  ⟨d.description, d.name.bare, d.type.bare, d.defaultValue.map Value.bare,
    d.directives.map Directive.bare, none⟩

def FieldDefinition.bare (d : FieldDefinition) : FieldDefinition :=
  ⟨d.description, d.name.bare, d.arguments.map InputValueDefinition.bare, d.type.bare,
    d.directives.map Directive.bare, none⟩

def ObjectTypeDefinition.bare (d : ObjectTypeDefinition) : ObjectTypeDefinition :=
  ⟨d.description, d.name.bare, d.interfaces.map NamedType.bare, d.directives.map Directive.bare,
    d.fields.map FieldDefinition.bare, none⟩

def InterfaceTypeDefinition.bare (d : InterfaceTypeDefinition) : InterfaceTypeDefinition :=
  ⟨d.description, d.name.bare, d.directives.map Directive.bare,
    d.fields.map FieldDefinition.bare, none⟩

def UnionTypeDefinition.bare (d : UnionTypeDefinition) : UnionTypeDefinition :=
  ⟨d.description, d.name.bare, d.directives.map Directive.bare, d.types.map NamedType.bare, none⟩

def EnumValueDefinition.bare (d : EnumValueDefinition) : EnumValueDefinition :=
  ⟨d.description, d.name.bare, d.directives.map Directive.bare, none⟩

def EnumTypeDefinition.bare (d : EnumTypeDefinition) : EnumTypeDefinition :=
  ⟨d.description, d.name.bare, d.directives.map Directive.bare,
    d.values.map EnumValueDefinition.bare, none⟩

def InputObjectTypeDefinition.bare (d : InputObjectTypeDefinition) : InputObjectTypeDefinition :=
  ⟨d.description, d.name.bare, d.directives.map Directive.bare,
    d.fields.map InputValueDefinition.bare, none⟩

def TypeExtensionDefinition.bare (d : TypeExtensionDefinition) : TypeExtensionDefinition :=
  ⟨d.definition.bare, none⟩

def DirectiveDefinition.bare (d : DirectiveDefinition) : DirectiveDefinition :=
  ⟨d.description, d.name.bare, d.arguments.map InputValueDefinition.bare,
    d.locations.map Name.bare, none⟩

def Definition.bare : Definition → Definition
  | operation d => operation d.bare
  | fragment d => fragment d.bare
  | schema d => schema d.bare
  | scalarType d => scalarType d.bare
  | objectType d => objectType d.bare
  | interfaceType d => interfaceType d.bare
  | unionType d => unionType d.bare
  | enumType d => enumType d.bare
  | inputObjectType d => inputObjectType d.bare
  | typeExtension d => typeExtension d.bare
  | directive d => directive d.bare

/-- The document without the text it was read from, and bare. -/
def Document.bare (document : Document) : Document :=
  ⟨document.definitions.map Definition.bare, none, none⟩

/-! ## The text of a bare tree -/

namespace Printer

@[simp] theorem name_bare (n : Name) : name n.bare = name n := rfl

@[simp] theorem namedType_bare (t : NamedType) : namedType t.bare = namedType t := rfl

@[simp] theorem variableUse_bare (v : Variable) : variableUse v.bare = variableUse v := rfl

@[simp] theorem typeExpr_bare (t : TypeExpr) : typeExpr t.bare = typeExpr t := by
  induction t with
  | named t => rfl
  | list t _ ih => rw [TypeExpr.bare, typeExpr, typeExpr, ih]
  | nonNull t _ ih => rw [TypeExpr.bare, typeExpr, typeExpr, ih]

mutual

@[simp] theorem value_bare : ∀ v : Value, value v.bare = value v
  | .var v => by simp only [Value.bare, value, variableUse_bare]
  | .int _ _ | .float _ _ | .string _ _ _ | .null _ | .enum _ _ => by simp only [Value.bare, value]
  | .boolean true _ | .boolean false _ => by simp only [Value.bare, value]
  | .list items _ => by simp only [Value.bare, value, values_bare items]
  | .object fields _ => by simp only [Value.bare, value, objectFields_bare fields]

theorem values_bare : ∀ items : List Value, values (bareItems items) = values items
  | [] => rfl
  | item :: rest => by simp only [bareItems, values, value_bare item, values_bare rest]

theorem objectFields_bare :
    ∀ fields : List ObjectField, objectFields (bareFields fields) = objectFields fields
  | [] => rfl
  | ⟨n, v, _⟩ :: rest => by
    simp only [bareFields, objectFields, value_bare v, objectFields_bare rest, name_bare]

end

@[simp] theorem argument_bare (a : Argument) : argument a.bare = argument a := by
  simp [argument, Argument.bare]

/-- A row of trees is written as the row of the bare ones. -/
theorem map_bare {α : Type} {bare : α → α} {text : α → List Char}
    (h : ∀ a, text (bare a) = text a) (items : List α) :
    (items.map bare).map text = items.map text := by
  rw [List.map_map]
  exact List.map_congr_left fun a _ => h a

@[simp] theorem arguments_bare (as : List Argument) :
    arguments (as.map Argument.bare) = arguments as := by
  rw [arguments, map_bare argument_bare, arguments]

@[simp] theorem directive_bare (d : Directive) : directive d.bare = directive d := by
  simp [directive, Directive.bare]

@[simp] theorem directives_bare (ds : List Directive) :
    directives (ds.map Directive.bare) = directives ds := by
  rw [directives, map_bare directive_bare, directives]

@[simp] theorem fragmentSpread_bare (s : FragmentSpread) :
    fragmentSpread s.bare = fragmentSpread s := by
  simp [fragmentSpread, FragmentSpread.bare]

@[simp] theorem aliasPart_bare (a : Option Name) : aliasPart (a.map Name.bare) = aliasPart a := by
  cases a <;> rfl

@[simp] theorem conditionPart_bare (t : Option NamedType) :
    conditionPart (t.map NamedType.bare) = conditionPart t := by
  cases t <;> rfl

mutual

@[simp] theorem selectionSet_bare : ∀ set : SelectionSet, selectionSet set.bare = selectionSet set
  | ⟨items, _⟩ => by simp only [SelectionSet.bare, selectionSet, selections_bare items]

theorem selections_bare :
    ∀ items : List Selection, selections (bareSelections items) = selections items
  | [] => rfl
  | item :: rest => by
    simp only [bareSelections, selections, selection_bare item, selections_bare rest]

theorem selection_bare : ∀ s : Selection, selection s.bare = selection s
  | .field f => by simp only [Selection.bare, selection, field_bare f]
  | .spread s => by simp only [Selection.bare, selection, fragmentSpread_bare]
  | .inline f => by simp only [Selection.bare, selection, inlineFragment_bare f]

theorem field_bare : ∀ f : Field, field f.bare = field f
  | ⟨_, _, _, _, below, _⟩ => by
    simp only [Field.bare, field, optionalSet_bare below, aliasPart_bare, name_bare,
      arguments_bare, directives_bare]

theorem optionalSet_bare :
    ∀ below : Option SelectionSet, optionalSet (bareBelow below) = optionalSet below
  | none => rfl
  | some set => by simp only [bareBelow, optionalSet, selectionSet_bare set]

theorem inlineFragment_bare : ∀ f : InlineFragment, inlineFragment f.bare = inlineFragment f
  | ⟨_, _, below, _⟩ => by
    simp only [InlineFragment.bare, inlineFragment, selectionSet_bare below, conditionPart_bare,
      directives_bare]

end

@[simp] theorem defaultPart_bare (v : Option Value) :
    defaultPart (v.map Value.bare) = defaultPart v := by
  cases v <;> simp [defaultPart]

@[simp] theorem variableDefinition_bare (d : VariableDefinition) :
    variableDefinition d.bare = variableDefinition d := by
  simp [variableDefinition, VariableDefinition.bare]

theorem isShorthand_bare (d : OperationDefinition) : isShorthand d.bare = isShorthand d := by
  simp only [isShorthand, OperationDefinition.bare, Option.isNone_map, List.isEmpty_map]
  rfl

@[simp] theorem operationDefinition_bare (d : OperationDefinition) :
    operationDefinition d.bare = operationDefinition d := by
  have hname : (d.name.map Name.bare).map name = d.name.map name := by cases d.name <;> rfl
  rw [operationDefinition, operationDefinition, isShorthand_bare]
  simp only [OperationDefinition.bare, hname, map_bare variableDefinition_bare, selectionSet_bare,
    directives_bare]

@[simp] theorem fragmentDefinition_bare (d : FragmentDefinition) :
    fragmentDefinition d.bare = fragmentDefinition d := by
  simp only [fragmentDefinition, FragmentDefinition.bare, name_bare, namedType_bare,
    directives_bare, selectionSet_bare]

@[simp] theorem operationTypeDefinition_bare (d : OperationTypeDefinition) :
    operationTypeDefinition d.bare = operationTypeDefinition d := rfl

@[simp] theorem headed_bare (keyword : String) (n : Name) :
    headed keyword n.bare = headed keyword n := rfl

@[simp] theorem inputValueDefinition_bare (d : InputValueDefinition) :
    inputValueDefinition d.bare = inputValueDefinition d := by
  simp only [inputValueDefinition, InputValueDefinition.bare, name_bare, typeExpr_bare,
    defaultPart_bare, directives_bare]

@[simp] theorem argumentsDefinition_bare (as : List InputValueDefinition) :
    argumentsDefinition (as.map InputValueDefinition.bare) = argumentsDefinition as := by
  rw [argumentsDefinition, map_bare inputValueDefinition_bare, argumentsDefinition]

@[simp] theorem fieldDefinition_bare (d : FieldDefinition) :
    fieldDefinition d.bare = fieldDefinition d := by
  simp only [fieldDefinition, FieldDefinition.bare, name_bare, typeExpr_bare,
    argumentsDefinition_bare, directives_bare]

@[simp] theorem interfacesPart_bare (interfaces : List NamedType) :
    interfacesPart (interfaces.map NamedType.bare) = interfacesPart interfaces := by
  rw [interfacesPart, map_bare namedType_bare, List.isEmpty_map, interfacesPart]

@[simp] theorem membersPart_bare (members : List NamedType) :
    membersPart (members.map NamedType.bare) = membersPart members := by
  rw [membersPart, map_bare namedType_bare, List.isEmpty_map, membersPart]

@[simp] theorem objectTypeDefinition_bare (d : ObjectTypeDefinition) :
    objectTypeDefinition d.bare = objectTypeDefinition d := by
  simp [objectTypeDefinition, ObjectTypeDefinition.bare, map_bare fieldDefinition_bare]

@[simp] theorem enumValueDefinition_bare (d : EnumValueDefinition) :
    enumValueDefinition d.bare = enumValueDefinition d := by
  simp [enumValueDefinition, EnumValueDefinition.bare]

/-- A definition is written as the bare one. -/
@[simp] theorem definition_bare (d : Definition) : definition d.bare = definition d := by
  cases d with
  | operation d => exact operationDefinition_bare d
  | fragment d => exact fragmentDefinition_bare d
  | schema d =>
      simp [Definition.bare, definition, schemaDefinition, SchemaDefinition.bare,
        map_bare operationTypeDefinition_bare]
  | scalarType d =>
      simp [Definition.bare, definition, scalarTypeDefinition, ScalarTypeDefinition.bare]
  | objectType d => exact objectTypeDefinition_bare d
  | interfaceType d =>
      simp [Definition.bare, definition, interfaceTypeDefinition, InterfaceTypeDefinition.bare,
        map_bare fieldDefinition_bare]
  | unionType d =>
      simp [Definition.bare, definition, unionTypeDefinition, UnionTypeDefinition.bare]
  | enumType d =>
      simp [Definition.bare, definition, enumTypeDefinition, EnumTypeDefinition.bare,
        map_bare enumValueDefinition_bare]
  | inputObjectType d =>
      simp [Definition.bare, definition, inputObjectTypeDefinition,
        InputObjectTypeDefinition.bare, map_bare inputValueDefinition_bare]
  | typeExtension d => exact congrArg ("extend ".toList ++ ·) (objectTypeDefinition_bare _)
  | directive d =>
      simp only [Definition.bare, definition, directiveDefinition, DirectiveDefinition.bare,
        argumentsDefinition_bare, map_bare name_bare, name_bare]

end Printer

end GraphQL

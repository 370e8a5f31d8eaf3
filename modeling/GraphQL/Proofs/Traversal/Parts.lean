import Mathlib
import GraphQL.Document.Node

/-!
# The parts of a node

The children of a node in the order of the text, without the slots they stand in.

Selection sets, values and lists in types are the levels of a document: what can be nested as deep
as one likes is nested in these.  `Node.Within n node` says of a node that none of the ways down
from it comes by more than `n` of them.
-/

namespace GraphQL.Node

/-- The children of a node, in order. -/
def parts (node : Node) : List Node := node.kind.slots.flatMap node.children

theorem map_placedChildren (node : Node) : node.placedChildren.map (·.2.2) = node.parts := by
  rw [placedChildren, parts, List.map_flatMap]
  refine congrArg (List.flatMap · _) (funext fun slot => ?_)
  rw [List.map_map]
  exact List.zipIdx_map_fst 0 (node.children slot)

theorem flatMap_placedChildren {α : Type} (node : Node) (f : Node → List α) :
    (node.placedChildren.flatMap fun entry => f entry.2.2) = node.parts.flatMap f := by
  rw [← map_placedChildren, List.flatMap_map]

/-- Parts of which nothing is told leave nothing behind. -/
@[simp]
theorem flatMap_fun_nil {α β : Type} (items : List α) :
    (items.flatMap fun _ => ([] : List β)) = [] :=
  List.flatMap_eq_nil_iff.mpr fun _ _ => rfl

/-! ## Executable nodes -/

theorem parts_document (d : Document) :
    (Node.document d).parts = d.definitions.map .definition := by
  simp [parts, kind, NodeKind.slots, children, contents, Contents.many, Part.toNode]

theorem parts_operation (d : OperationDefinition) :
    (Node.definition (.operation d)).parts =
      d.name.toList.map .name ++ d.variableDefinitions.map .variableDefinition ++
        d.directives.map .directive ++ [.selectionSet d.selectionSet] := by
  simp [parts, kind, Definition.kind, NodeKind.slots, children, contents, definitionContents,
    Contents.many, Contents.one, Contents.optional, Part.toNode]

theorem parts_fragment (d : FragmentDefinition) :
    (Node.definition (.fragment d)).parts =
      [.name d.name, .type (.named d.typeCondition)] ++ d.directives.map .directive ++
        [.selectionSet d.selectionSet] := by
  simp [parts, kind, Definition.kind, NodeKind.slots, children, contents, definitionContents,
    Contents.many, Contents.one, Part.toNode]

theorem parts_variableDefinition (d : VariableDefinition) :
    (Node.variableDefinition d).parts =
      [.value (.var d.var), .type d.type] ++ d.defaultValue.toList.map .value := by
  simp [parts, kind, NodeKind.slots, children, contents, Contents.one, Contents.optional,
    Part.toNode]

theorem parts_selectionSet (set : SelectionSet) :
    (Node.selectionSet set).parts = set.selections.map .selection := by
  simp [parts, kind, NodeKind.slots, children, contents, Contents.many, Part.toNode]

theorem parts_field (f : Field) :
    (Node.selection (.field f)).parts =
      f.responseName.toList.map .name ++ [.name f.name] ++ f.arguments.map .argument ++
        f.directives.map .directive ++ f.selectionSet.toList.map .selectionSet := by
  simp [parts, kind, Selection.kind, NodeKind.slots, children, contents, selectionContents,
    Contents.many, Contents.one, Contents.optional, Part.toNode]

theorem parts_spread (s : FragmentSpread) :
    (Node.selection (.spread s)).parts = .name s.name :: s.directives.map .directive := by
  simp [parts, kind, Selection.kind, NodeKind.slots, children, contents, selectionContents,
    Contents.many, Contents.one, Part.toNode]

theorem parts_inline (f : InlineFragment) :
    (Node.selection (.inline f)).parts =
      f.typeCondition.toList.map (fun t => .type (.named t)) ++ f.directives.map .directive ++
        [.selectionSet f.selectionSet] := by
  simp [parts, kind, Selection.kind, NodeKind.slots, children, contents, selectionContents,
    Contents.many, Contents.one, Contents.optional, Part.toNode]

theorem parts_directive (d : Directive) :
    (Node.directive d).parts = .name d.name :: d.arguments.map .argument := by
  simp [parts, kind, NodeKind.slots, children, contents, Contents.many, Contents.one, Part.toNode]

theorem parts_argument (a : Argument) :
    (Node.argument a).parts = [.name a.name, .value a.value] := by
  simp [parts, kind, NodeKind.slots, children, contents, Contents.one, Part.toNode]

theorem parts_objectField (f : ObjectField) :
    (Node.objectField f).parts = [.name f.name, .value f.value] := by
  simp [parts, kind, NodeKind.slots, children, contents, Contents.one, Part.toNode]

theorem parts_var (v : Variable) : (Node.value (.var v)).parts = [.name v.name] := rfl

theorem parts_list (items : List Value) (span : Option Span) :
    (Node.value (.list items span)).parts = items.map .value := by
  simp [parts, kind, Value.kind, NodeKind.slots, children, contents, Contents.many, Part.toNode]

theorem parts_object (fields : List ObjectField) (span : Option Span) :
    (Node.value (.object fields span)).parts = fields.map .objectField := by
  simp [parts, kind, Value.kind, NodeKind.slots, children, contents, Contents.many, Part.toNode]

theorem parts_name (n : Name) : (Node.name n).parts = [] := rfl

theorem parts_named (t : NamedType) : (Node.type (.named t)).parts = [.name t.name] := rfl

theorem parts_listType (t : TypeExpr) (span : Option Span) :
    (Node.type (.list t span)).parts = [.type t] := rfl

theorem parts_nonNull (t : TypeExpr) (span : Option Span) :
    (Node.type (.nonNull t span)).parts = [.type t] := rfl

/-! ## Definitions of fields, arguments and enum values -/

theorem parts_fieldDefinition (d : FieldDefinition) :
    (Node.fieldDefinition d).parts =
      [.name d.name] ++ d.arguments.map .inputValueDefinition ++ [.type d.type] ++
        d.directives.map .directive := by
  simp [parts, kind, NodeKind.slots, children, contents, Contents.many, Contents.one, Part.toNode]

theorem parts_inputValueDefinition (d : InputValueDefinition) :
    (Node.inputValueDefinition d).parts =
      [.name d.name] ++ [.type d.type] ++ d.defaultValue.toList.map .value ++
        d.directives.map .directive := by
  simp [parts, kind, NodeKind.slots, children, contents, Contents.many, Contents.one,
    Contents.optional, Part.toNode]

theorem parts_enumValueDefinition (d : EnumValueDefinition) :
    (Node.enumValueDefinition d).parts = [.name d.name] ++ d.directives.map .directive := by
  simp [parts, kind, NodeKind.slots, children, contents, Contents.many, Contents.one, Part.toNode]

/-! ## Definitions of a type system -/

theorem parts_operationTypeDefinition (d : OperationTypeDefinition) :
    (Node.operationTypeDefinition d).parts = [.type (.named d.type)] := rfl

theorem parts_schema (d : SchemaDefinition) :
    (Node.definition (.schema d)).parts =
      d.directives.map .directive ++ d.operationTypes.map .operationTypeDefinition := by
  simp [parts, kind, Definition.kind, NodeKind.slots, children, contents, definitionContents,
    Contents.many, Part.toNode]

theorem parts_scalarType (d : ScalarTypeDefinition) :
    (Node.definition (.scalarType d)).parts = [.name d.name] ++ d.directives.map .directive := by
  simp [parts, kind, Definition.kind, NodeKind.slots, children, contents, definitionContents,
    Contents.many, Contents.one, Part.toNode]

theorem parts_objectType (d : ObjectTypeDefinition) :
    (Node.definition (.objectType d)).parts =
      [.name d.name] ++ d.interfaces.map (fun t => .type (.named t)) ++
        d.directives.map .directive ++ d.fields.map .fieldDefinition := by
  simp [parts, kind, Definition.kind, NodeKind.slots, children, contents, definitionContents,
    Contents.many, Contents.one, Part.toNode]

theorem parts_interfaceType (d : InterfaceTypeDefinition) :
    (Node.definition (.interfaceType d)).parts =
      [.name d.name] ++ d.directives.map .directive ++ d.fields.map .fieldDefinition := by
  simp [parts, kind, Definition.kind, NodeKind.slots, children, contents, definitionContents,
    Contents.many, Contents.one, Part.toNode]

theorem parts_unionType (d : UnionTypeDefinition) :
    (Node.definition (.unionType d)).parts =
      [.name d.name] ++ d.directives.map .directive ++
        d.types.map fun t => .type (.named t) := by
  simp [parts, kind, Definition.kind, NodeKind.slots, children, contents, definitionContents,
    Contents.many, Contents.one, Part.toNode]

theorem parts_enumType (d : EnumTypeDefinition) :
    (Node.definition (.enumType d)).parts =
      [.name d.name] ++ d.directives.map .directive ++ d.values.map .enumValueDefinition := by
  simp [parts, kind, Definition.kind, NodeKind.slots, children, contents, definitionContents,
    Contents.many, Contents.one, Part.toNode]

theorem parts_inputObjectType (d : InputObjectTypeDefinition) :
    (Node.definition (.inputObjectType d)).parts =
      [.name d.name] ++ d.directives.map .directive ++ d.fields.map .inputValueDefinition := by
  simp [parts, kind, Definition.kind, NodeKind.slots, children, contents, definitionContents,
    Contents.many, Contents.one, Part.toNode]

theorem parts_typeExtension (d : TypeExtensionDefinition) :
    (Node.definition (.typeExtension d)).parts = [.definition (.objectType d.definition)] := rfl

theorem parts_directiveDefinition (d : DirectiveDefinition) :
    (Node.definition (.directive d)).parts =
      [.name d.name] ++ d.arguments.map .inputValueDefinition ++ d.locations.map .name := by
  simp [parts, kind, Definition.kind, NodeKind.slots, children, contents, definitionContents,
    Contents.many, Contents.one, Part.toNode]

/-! ## Nodes without selections -/

/-- Nothing is selected in the node or below it. -/
def IsPlain : Node → Prop
  | .document _ | .selectionSet _ | .selection _ => False
  | .definition (.operation _) | .definition (.fragment _) => False
  | _ => True

theorem IsPlain.of_mem_parts {node : Node} (h : node.IsPlain) :
    ∀ child ∈ node.parts, child.IsPlain := by
  cases node with
  | document => exact h.elim
  | selectionSet => exact h.elim
  | selection => exact h.elim
  | definition d =>
      cases d with
      | operation => exact h.elim
      | fragment => exact h.elim
      | _ =>
          simp [parts, kind, Definition.kind, NodeKind.slots, children, contents,
            definitionContents, Contents.many, Contents.one, Part.toNode, IsPlain,
            or_imp, forall_and]
  | value v =>
      cases v <;> simp [parts, kind, Value.kind, NodeKind.slots, children, contents,
        Contents.many, Contents.one, Part.toNode, IsPlain]
  | type t =>
      cases t <;> simp [parts, kind, TypeExpr.kind, NodeKind.slots, children, contents,
        Contents.one, Part.toNode, IsPlain]
  | _ =>
      simp [parts, kind, NodeKind.slots, children, contents, Contents.many, Contents.one,
        Contents.optional, Part.toNode, IsPlain, or_imp, forall_and]

/-- What is selected below a selection or in a definition is in selection sets. -/
theorem isPlain_or_set_of_selection {s : Selection} : ∀ child ∈ (Node.selection s).parts,
    child.IsPlain ∨ ∃ set, child = .selectionSet set := by
  cases s with
  | field f => simp [parts_field, IsPlain, or_imp, forall_and]
  | spread s => simp [parts_spread, IsPlain]
  | inline f => simp [parts_inline, IsPlain, or_imp, forall_and]

theorem isPlain_or_set_of_definition {d : Definition} : ∀ child ∈ (Node.definition d).parts,
    child.IsPlain ∨ ∃ set, child = .selectionSet set := by
  cases d with
  | operation d => simp [parts_operation, IsPlain, or_imp, forall_and]
  | fragment d => simp [parts_fragment, IsPlain, or_imp, forall_and]
  | _ => exact fun child hchild => Or.inl (IsPlain.of_mem_parts (by trivial) child hchild)

/-! ## Levels -/

/-- A selection set, a value or a list type. -/
def isLevel : Node → Bool
  | .selectionSet _ | .value _ | .type (.list _ _) => true
  | _ => false

/-- A way down from a node, through one part after another. -/
def Path (root : Node) (below : List Node) : Prop :=
  (root :: below).IsChain fun parent child => child ∈ parent.parts

/-- There are at most `n` levels on each way down from the node, itself among them. -/
inductive Within : (n : ℕ) → Node → Prop
  | between {n : ℕ} {node : Node} : node.isLevel = false →
      (∀ part ∈ node.parts, Within n part) → Within n node
  | level {n : ℕ} {node : Node} : (∀ part ∈ node.parts, Within n part) → Within (n + 1) node

variable {n : ℕ} {node : Node}

theorem Within.countP_le (h : node.Within n) {below : List Node} (hpath : node.Path below) :
    (node :: below).countP isLevel ≤ n := by
  induction below generalizing n node with
  | nil =>
      cases h with
      | between hnot => simp [hnot]
      | level => exact List.countP_le_length.trans (Nat.le_add_left 1 _)
  | cons child below ih =>
      obtain ⟨hchild, hpath⟩ := List.isChain_cons_cons.mp hpath
      cases h with
      | between hnot hparts =>
          rw [List.countP_cons_of_neg (by simp [hnot])]
          exact ih (hparts child hchild) hpath
      | level hparts =>
          have hbelow := ih (hparts child hchild) hpath
          rw [List.countP_cons]
          split <;> omega

@[simp]
theorem within_name (name : Name) : (Node.name name).Within n :=
  .between rfl (by simp [parts_name])

@[simp]
theorem within_named (type : NamedType) : (Node.type (.named type)).Within n :=
  .between rfl (by simp [parts_named])

@[simp]
theorem within_var (var : Variable) : (Node.value (.var var)).Within (n + 1) :=
  .level (by simp [parts_var])

end GraphQL.Node

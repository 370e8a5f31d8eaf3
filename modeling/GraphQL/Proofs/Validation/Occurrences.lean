import Mathlib
import GraphQL.Proofs.Traversal.Heights
import GraphQL.Proofs.Validation.Usages

/-!
# Where variables occur

The text of an operation or of a fragment tells where variables occur in it: in arguments, in the
lists and objects there, and in the directives on anything, but not in the definitions of variables.
The listings below follow the text.  The walk that collects usages comes to the same places, in the
same order (`Definition.map_place_variableUsages`).

The walk sees one kind of node after the other.  So what is told of the kinds of text is put in one
equation for nodes: what occurs in a node is what it is itself, followed by what occurs in its parts
(`Node.usedVariables_eq`).
-/

namespace GraphQL

variable {schema : Schema}

/-! ## In literals -/

namespace Value

mutual

/-- The variables in a literal, in the order of the text. -/
def usedVariables : Value → List Variable
  | .var v => [v]
  | .list items _ => usedInItems items
  | .object fields _ => usedInFields fields
  | _ => []

def usedInItems : List Value → List Variable
  | [] => []
  | item :: rest => item.usedVariables ++ usedInItems rest

def usedInFields : List ObjectField → List Variable
  | [] => []
  | ⟨_, value, _⟩ :: rest => value.usedVariables ++ usedInFields rest

end

theorem usedInItems_eq_flatMap (items : List Value) :
    usedInItems items = items.flatMap usedVariables := by
  induction items with
  | nil => rfl
  | cons item rest ih => rw [usedInItems, List.flatMap_cons, ih]

theorem usedInFields_eq_flatMap (fields : List ObjectField) :
    usedInFields fields = fields.flatMap (·.value.usedVariables) := by
  induction fields with
  | nil => rfl
  | cons f rest ih =>
      obtain ⟨name, value, span⟩ := f
      rw [usedInFields, List.flatMap_cons, ih]

end Value

/-! ## In selections -/

def Argument.usedVariables (a : Argument) : List Variable := a.value.usedVariables

def Directive.usedVariables (d : Directive) : List Variable :=
  d.arguments.flatMap (·.usedVariables)

mutual

/-- The variables in a selection set and in the sets within it, in the order of the text. -/
def SelectionSet.usedVariables : SelectionSet → List Variable
  | ⟨selections, _⟩ => usedAmong selections

def usedAmong : List Selection → List Variable
  | [] => []
  | selection :: rest => selection.usedVariables ++ usedAmong rest

def Selection.usedVariables : Selection → List Variable
  | .field ⟨_, _, arguments, directives, none, _⟩ =>
    arguments.flatMap (·.usedVariables) ++ directives.flatMap (·.usedVariables)
  | .field ⟨_, _, arguments, directives, some set, _⟩ =>
    arguments.flatMap (·.usedVariables) ++ directives.flatMap (·.usedVariables) ++ set.usedVariables
  | .spread s => s.directives.flatMap (·.usedVariables)
  | .inline ⟨_, directives, set, _⟩ => directives.flatMap (·.usedVariables) ++ set.usedVariables

end

theorem usedAmong_eq_flatMap (selections : List Selection) :
    usedAmong selections = selections.flatMap (·.usedVariables) := by
  induction selections with
  | nil => rfl
  | cons selection rest ih => rw [usedAmong, List.flatMap_cons, ih]

/-! ## In definitions -/

/-- The variables in an operation, outside of the definitions of its own. -/
def OperationDefinition.usedVariables (d : OperationDefinition) : List Variable :=
  d.directives.flatMap (·.usedVariables) ++ d.selectionSet.usedVariables

def FragmentDefinition.usedVariables (d : FragmentDefinition) : List Variable :=
  d.directives.flatMap (·.usedVariables) ++ d.selectionSet.usedVariables

namespace Node

/-- The variables in a node of an operation or a fragment. -/
def usedVariables : Node → List Variable
  | .definition (.operation d) => d.usedVariables
  | .definition (.fragment d) => d.usedVariables
  | .selectionSet set => set.usedVariables
  | .selection s => s.usedVariables
  | .directive d => d.usedVariables
  | .argument a => a.usedVariables
  | .value v => v.usedVariables
  | .objectField f => f.value.usedVariables
  | _ => []

/-- What occurs in a node is what it is itself, and what occurs in its parts. -/
theorem usedVariables_eq {node : Node} (h : node.IsExecutable)
    (hkind : node.kind ≠ .variableDefinition) :
    node.usedVariables = node.ownVariables ++ node.parts.flatMap usedVariables := by
  cases node with
  | definition d =>
      cases d with
      | operation d =>
          simp [parts_operation, List.flatMap_map, usedVariables, ownVariables,
            OperationDefinition.usedVariables]
      | fragment d =>
          simp [parts_fragment, List.flatMap_map, usedVariables, ownVariables,
            FragmentDefinition.usedVariables]
      | _ => exact h.elim
  | selectionSet set =>
      obtain ⟨selections, span⟩ := set
      simp [parts_selectionSet, List.flatMap_map, usedVariables, ownVariables,
        SelectionSet.usedVariables, usedAmong_eq_flatMap]
  | selection s =>
      cases s with
      | field f =>
          obtain ⟨key, name, arguments, directives, set?, span⟩ := f
          cases set? <;> simp [parts_field, List.flatMap_map, usedVariables, ownVariables,
            Selection.usedVariables]
      | spread s =>
          simp [parts_spread, List.flatMap_map, usedVariables, ownVariables,
            Selection.usedVariables]
      | inline f =>
          obtain ⟨condition, directives, set, span⟩ := f
          simp [parts_inline, List.flatMap_map, usedVariables, ownVariables,
            Selection.usedVariables]
  | directive d =>
      simp [parts_directive, List.flatMap_map, usedVariables, ownVariables, Directive.usedVariables]
  | argument a => simp [parts_argument, usedVariables, ownVariables, Argument.usedVariables]
  | objectField f => simp [parts_objectField, usedVariables, ownVariables]
  | value v =>
      cases v with
      | var v => simp [parts_var, usedVariables, ownVariables, Value.usedVariables]
      | list items span =>
          simp [parts_list, List.flatMap_map, usedVariables, ownVariables, Value.usedVariables,
            Value.usedInItems_eq_flatMap]
      | object fields span =>
          simp [parts_object, List.flatMap_map, usedVariables, ownVariables, Value.usedVariables,
            Value.usedInFields_eq_flatMap]
      | _ => rfl
  | type t =>
      cases t <;> simp [parts_named, parts_listType, parts_nonNull, usedVariables, ownVariables]
  | variableDefinition d => exact absurd rfl hkind
  | name => rfl
  | _ => exact h.elim

end Node

/-! ## The walk of the collector -/

/-- Where a variable stands, and what it is called. -/
def Variable.place (v : Variable) : String × Option Span := (v.name.text, v.span)

def VariableUsage.place (usage : VariableUsage) : String × Option Span := (usage.name, usage.span)

namespace VariableUsage

variable {depth : ℕ} {node : Node}

/-- Wherever the node stands, the walk of the collector adds usages at just the places where
variables occur in it. -/
def CollectsPlaces (schema : Schema) (depth : ℕ) (node : Node) : Prop :=
  ∀ (c : TypeContext) (usages : List VariableUsage), ∃ c' more,
    (Traversal.walk (collector.typed schema) depth node).run (c, usages) =
        (.ok ⟨none, false⟩, (c', usages ++ more)) ∧
      more.map place = node.usedVariables.map Variable.place

theorem exists_walkChildren_places {children : List (Slot × ℕ × Node)}
    (h : ∀ entry ∈ children, CollectsPlaces schema depth entry.2.2) (c : TypeContext)
    (usages : List VariableUsage) :
    ∃ c' more, (Traversal.walkChildren (Traversal.walk (collector.typed schema) depth)
          children).run (c, usages) = (.ok ([], false), (c', usages ++ more)) ∧
      more.map place =
        (children.flatMap fun entry => entry.2.2.usedVariables).map Variable.place := by
  refine exists_walkChildren
    (P := fun node _ _ more => more.map place = node.usedVariables.map Variable.place)
    (Q := fun children _ _ more => more.map place =
      (children.flatMap fun entry => entry.2.2.usedVariables).map Variable.place)
    (fun _ => rfl) ?_ h c usages
  intro entry rest _ _ _ first others hfirst hothers
  rw [List.map_append, hfirst, hothers, List.flatMap_cons, List.map_append]

/-- A walk that goes down far enough collects what occurs in the node. -/
theorem collectsPlaces (depth : ℕ) (node : Node) (hnode : node.IsExecutable)
    (hdepth : node.height < depth) : CollectsPlaces schema depth node := by
  induction depth generalizing node with
  | zero => exact absurd hdepth (Nat.not_lt_zero _)
  | succ depth ih =>
      by_cases hkind : node.kind = .variableDefinition
      · obtain ⟨d, rfl⟩ := Node.exists_eq_variableDefinition hkind
        intro c usages
        refine ⟨(c.enter schema (.variableDefinition d)).leave (.variableDefinition d), [], ?_, rfl⟩
        rw [List.append_nil]
        exact walk_collector_variableDefinition depth d c usages
      · intro c usages
        have hchildren : ∀ entry ∈ node.placedChildren,
            CollectsPlaces schema depth entry.2.2 := by
          intro entry hentry
          have hpart : entry.2.2 ∈ node.parts := by
            rw [← Node.map_placedChildren]
            exact List.mem_map_of_mem hentry
          have hlower := Node.height_lt_of_mem_parts _ _ hpart
          exact ih entry.2.2 (hnode.of_mem_parts _ hpart) (by omega)
        let own := node.ownVariables.map (here · c)
        obtain ⟨c', more, hrun, hplaces⟩ :=
          exists_walkChildren_places hchildren (c.enter schema node) (usages ++ own)
        refine ⟨c'.leave node, own ++ more, walk_collector hkind hrun, ?_⟩
        have hown : own.map place = node.ownVariables.map Variable.place := List.map_map
        rw [Node.usedVariables_eq hnode hkind, List.map_append, List.map_append, hown, hplaces,
          Node.flatMap_placedChildren]

end VariableUsage

/-- The usages of an operation or a fragment are at the places where variables occur in it. -/
theorem Definition.map_place_variableUsages (schema : Schema) {d : Definition}
    (h : (Node.definition d).IsExecutable) :
    (d.variableUsages schema).map VariableUsage.place =
      (Node.definition d).usedVariables.map Variable.place := by
  have hgrowth : 0 < Traversal.growth := by decide
  have hcollects : VariableUsage.CollectsPlaces schema
      ((Node.definition d).height + Traversal.growth) (.definition d) :=
    VariableUsage.collectsPlaces _ _ h (Nat.lt_add_of_pos_right hgrowth)
  obtain ⟨c', more, hrun, hplaces⟩ := hcollects {} []
  have hall : d.variableUsages schema = more := by
    simp [Definition.variableUsages, visit, hrun]
  rw [hall, hplaces]

/-! ## In all that an operation reaches -/

namespace Document

/-- The variables in an operation and in the fragments that it reaches. -/
def usedVariables (document : Document) (operation : OperationDefinition) : List Variable :=
  operation.usedVariables ++ (document.referencedFragments operation).flatMap (·.usedVariables)

theorem map_place_operationUsages (schema : Schema) (document : Document)
    (operation : OperationDefinition) :
    (document.operationUsages schema operation).map VariableUsage.place =
      (document.usedVariables operation).map Variable.place := by
  have hfragment (fragment : FragmentDefinition) :
      ((Definition.fragment fragment).variableUsages schema).map VariableUsage.place =
        fragment.usedVariables.map Variable.place :=
    Definition.map_place_variableUsages schema trivial
  have hoperation : ((Definition.operation operation).variableUsages schema).map
      VariableUsage.place = operation.usedVariables.map Variable.place :=
    Definition.map_place_variableUsages schema trivial
  rw [operationUsages, usedVariables, List.map_append, List.map_append, hoperation,
    List.map_flatMap, List.map_flatMap]
  simp only [hfragment]

end Document

end GraphQL

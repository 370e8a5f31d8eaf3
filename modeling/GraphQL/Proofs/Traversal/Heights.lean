import Mathlib
import GraphQL.Document.Height
import GraphQL.Proofs.Document.Slots
import GraphQL.Proofs.Traversal.Parts

/-!
# Heights of parts

A part of a node is lower than the node, so a walk that goes down as many levels as a tree is high
comes to all of it (`Node.height_lt_of_mem_parts`).
-/

namespace GraphQL

theorem le_maxHeight {α : Type} (height : α → ℕ) {parts : List α} {part : α}
    (h : part ∈ parts) : height part ≤ maxHeight height parts := by
  induction parts with
  | nil => cases h
  | cons first rest ih =>
      rcases List.mem_cons.mp h with rfl | h
      · exact le_max_left _ _
      · exact (ih h).trans (le_max_right _ _)

theorem lt_of_maxHeight_lt {α : Type} {height : α → ℕ} {parts : List α} {n : ℕ}
    (h : maxHeight height parts < n) : ∀ part ∈ parts, height part < n :=
  fun _ hpart => (le_maxHeight height hpart).trans_lt h

theorem TypeExpr.two_le_height (t : TypeExpr) : 2 ≤ t.height := by
  induction t with
  | named t => exact le_refl 2
  | list t span ih => exact ih.trans (Nat.le_succ _)
  | nonNull t span ih => exact ih.trans (Nat.le_succ _)

theorem SelectionSet.heightSelections_cons (selection : Selection) (rest : List Selection) :
    heightSelections (selection :: rest) = max selection.height (heightSelections rest) := by
  cases selection with
  | field f =>
      obtain ⟨keyAlias, name, arguments, directives, set?, span⟩ := f
      simp [Selection.height, heightSelections]
  | spread f => simp [Selection.height, heightSelections]
  | inline f =>
      obtain ⟨condition, directives, set, span⟩ := f
      simp [Selection.height, heightSelections]

theorem SelectionSet.height_lt_of_mem {selection : Selection} {set : SelectionSet}
    (h : selection ∈ set.selections) : selection.height < set.height := by
  obtain ⟨selections, span⟩ := set
  rw [height]
  refine Nat.lt_succ_of_le ?_
  induction selections with
  | nil => cases h
  | cons first rest ih =>
      rw [heightSelections_cons]
      rcases List.mem_cons.mp h with rfl | h
      · exact le_max_left _ _
      · exact (ih h).trans (le_max_right _ _)

theorem Selection.height_pos (selection : Selection) : 0 < selection.height := by
  cases selection with
  | field f =>
      obtain ⟨key, name, arguments, directives, set?, span⟩ := f
      simp [height, SelectionSet.heightSelections]
  | spread s => simp [height, SelectionSet.heightSelections]
  | inline f =>
      obtain ⟨condition, directives, set, span⟩ := f
      simp [height, SelectionSet.heightSelections]

namespace Value

theorem height_le_heightItems {items : List Value} {literal : Value} (h : literal ∈ items) :
    literal.height ≤ heightItems items := by
  induction items with
  | nil => cases h
  | cons first rest ih =>
      rw [heightItems]
      rcases List.mem_cons.mp h with rfl | h
      · exact le_max_left _ _
      · exact (ih h).trans (le_max_right _ _)

theorem height_lt_heightFields {fields : List ObjectField} {f : ObjectField} (h : f ∈ fields) :
    f.value.height < heightFields fields := by
  induction fields with
  | nil => cases h
  | cons first rest ih =>
      obtain ⟨name, value, span⟩ := first
      rw [heightFields]
      rcases List.mem_cons.mp h with rfl | h
      · exact Nat.lt_of_succ_le (le_max_left _ _)
      · exact (ih h).trans_le (le_max_right _ _)

theorem height_pos (literal : Value) : 0 < literal.height := by
  cases literal <;> simp [height]

end Value

namespace Node

/-- The node is one of those that operations and fragments are made of. -/
def IsExecutable : Node → Prop
  | .document _ | .operationTypeDefinition _ | .fieldDefinition _ | .inputValueDefinition _
  | .enumValueDefinition _ => False
  | .definition (.operation _) | .definition (.fragment _) => True
  | .definition _ => False
  | _ => True

theorem IsExecutable.of_mem_parts {node : Node} (h : node.IsExecutable) :
    ∀ child ∈ node.parts, child.IsExecutable := by
  cases node with
  | definition d =>
      cases d with
      | operation d =>
          simp [parts_operation, IsExecutable, or_imp, forall_and]
      | fragment d =>
          simp [parts_fragment, IsExecutable, or_imp, forall_and]
      | _ => exact h.elim
  | selection s =>
      cases s with
      | field f => simp [parts_field, IsExecutable, or_imp, forall_and]
      | spread s => simp [parts_spread, IsExecutable]
      | inline f => simp [parts_inline, IsExecutable, or_imp, forall_and]
  | value v =>
      cases v with
      | var v => simp [parts_var, IsExecutable]
      | list items span => simp [parts_list, IsExecutable]
      | object fields span => simp [parts_object, IsExecutable]
      | _ => exact List.forall_mem_nil _
  | type t => cases t <;> simp [parts_named, parts_listType, parts_nonNull, IsExecutable]
  | name => simp [parts_name]
  | variableDefinition => simp [parts_variableDefinition, IsExecutable, or_imp, forall_and]
  | selectionSet => simp [parts_selectionSet, IsExecutable]
  | argument => simp [parts_argument, IsExecutable]
  | objectField => simp [parts_objectField, IsExecutable]
  | directive => simp [parts_directive, IsExecutable]
  | _ => exact h.elim

theorem height_lt_of_mem_parts_definition (d : Definition) :
    ∀ child ∈ (Node.definition d).parts, child.height < d.height := by
  cases d with
  | operation d =>
      simp only [parts_operation, List.forall_mem_append, List.forall_mem_map,
        List.forall_mem_singleton, height, Definition.height]
      refine ⟨⟨⟨fun name _ => ?_, fun v hv => ?_⟩, fun directive hdirective => ?_⟩, ?_⟩
      · omega
      · have hle := le_maxHeight VariableDefinition.height hv
        omega
      · have hle := le_maxHeight Directive.height hdirective
        omega
      · omega
  | fragment d =>
      simp only [parts_fragment, List.forall_mem_append, List.forall_mem_cons,
        List.not_mem_nil, IsEmpty.forall_iff, implies_true, and_true, List.forall_mem_map,
        height, Definition.height, TypeExpr.height]
      refine ⟨⟨⟨?_, ?_⟩, fun directive hdirective => ?_⟩, ?_⟩
      · omega
      · omega
      · have hle := le_maxHeight Directive.height hdirective
        omega
      · omega
  | _ =>
      simp only [parts, kind, Definition.kind, NodeKind.slots, children, contents,
        definitionContents, Contents.many, Contents.one, Part.toNode, List.flatMap_cons,
        List.flatMap_nil, List.append_nil, List.forall_mem_append, List.forall_mem_map,
        List.forall_mem_singleton, height, Definition.height, ObjectTypeDefinition.height,
        TypeExpr.height]
      and_intros
      all_goals first
        | omega
        | exact lt_of_maxHeight_lt (by omega)

theorem height_lt_of_mem_parts_selection (selection : Selection) :
    ∀ child ∈ (Node.selection selection).parts, child.height < selection.height := by
  cases selection with
  | field f =>
      obtain ⟨key, name, arguments, directives, set?, span⟩ := f
      simp only [parts_field, List.forall_mem_append, List.forall_mem_map,
        List.forall_mem_singleton, height, Selection.height, SelectionSet.heightSelections]
      refine ⟨⟨⟨⟨fun name _ => ?_, ?_⟩, fun a ha => ?_⟩, fun directive hdirective => ?_⟩,
        fun set hset => ?_⟩
      · omega
      · omega
      · have hle := le_maxHeight Argument.height ha
        omega
      · have hle := le_maxHeight Directive.height hdirective
        omega
      · obtain rfl : set? = some set := Option.mem_toList.mp hset
        rw [SelectionSet.heightOption]
        omega
  | spread s =>
      simp only [parts_spread, List.forall_mem_cons, List.forall_mem_map, height,
        Selection.height, SelectionSet.heightSelections]
      refine ⟨by omega, fun directive hdirective => ?_⟩
      have hle := le_maxHeight Directive.height hdirective
      omega
  | inline f =>
      obtain ⟨condition, directives, set, span⟩ := f
      simp only [parts_inline, List.forall_mem_append, List.forall_mem_map,
        List.forall_mem_singleton, height, Selection.height, SelectionSet.heightSelections,
        TypeExpr.height]
      refine ⟨⟨fun condition _ => ?_, fun directive hdirective => ?_⟩, ?_⟩
      · omega
      · have hle := le_maxHeight Directive.height hdirective
        omega
      · omega

theorem height_lt_of_mem_parts_value (literal : Value) :
    ∀ child ∈ (Node.value literal).parts, child.height < literal.height := by
  cases literal with
  | var v => simp [parts_var, height, Value.height]
  | list items span =>
      rw [parts_list, List.forall_mem_map]
      intro item hitem
      exact Nat.lt_succ_of_le (Value.height_le_heightItems hitem)
  | object fields span =>
      rw [parts_object, List.forall_mem_map]
      intro f hf
      exact Nat.succ_lt_succ (Value.height_lt_heightFields hf)
  | _ => exact List.forall_mem_nil _

/-- Parts are lower than the node. -/
theorem height_lt_of_mem_parts (node : Node) :
    ∀ child ∈ node.parts, child.height < node.height := by
  cases node with
  | definition d => exact height_lt_of_mem_parts_definition d
  | selection selection => exact height_lt_of_mem_parts_selection selection
  | value literal => exact height_lt_of_mem_parts_value literal
  | selectionSet set =>
      rw [parts_selectionSet, List.forall_mem_map]
      exact fun selection hselection => SelectionSet.height_lt_of_mem hselection
  | variableDefinition d =>
      simp only [parts_variableDefinition, List.forall_mem_append, List.forall_mem_cons,
        List.not_mem_nil, IsEmpty.forall_iff, implies_true, and_true, List.forall_mem_map, height,
        VariableDefinition.height, Value.height]
      refine ⟨⟨?_, ?_⟩, fun literal hliteral => ?_⟩
      · omega
      · omega
      · have hle := le_maxHeight Value.height hliteral
        omega
  | directive d =>
      simp only [parts_directive, List.forall_mem_cons, List.forall_mem_map, height,
        Directive.height]
      refine ⟨by omega, fun a ha => ?_⟩
      have hle := le_maxHeight Argument.height ha
      omega
  | argument a =>
      have hpos := a.value.height_pos
      simp only [parts_argument, List.forall_mem_cons, List.not_mem_nil, IsEmpty.forall_iff,
        implies_true, and_true, height, Argument.height]
      omega
  | objectField f =>
      have hpos := f.value.height_pos
      simp only [parts_objectField, List.forall_mem_cons, List.not_mem_nil, IsEmpty.forall_iff,
        implies_true, and_true, height]
      omega
  | type t =>
      cases t <;> simp [parts_named, parts_listType, parts_nonNull, height, TypeExpr.height]
  | name => simp [parts_name]
  | document d =>
      rw [parts_document, List.forall_mem_map]
      exact lt_of_maxHeight_lt (Nat.lt_succ_self _)
  | operationTypeDefinition d =>
      simp [parts, kind, NodeKind.slots, children, contents, Contents.one, Part.toNode, height,
        TypeExpr.height]
  | fieldDefinition d =>
      simp only [parts_fieldDefinition, List.forall_mem_append, List.forall_mem_map,
        List.forall_mem_singleton, height]
      rw [FieldDefinition.height]
      have htype := d.type.two_le_height
      refine ⟨⟨⟨?_, lt_of_maxHeight_lt ?_⟩, ?_⟩, lt_of_maxHeight_lt ?_⟩ <;> omega
  | inputValueDefinition d =>
      simp only [parts_inputValueDefinition, List.forall_mem_append, List.forall_mem_map,
        List.forall_mem_singleton, height]
      rw [InputValueDefinition.height]
      have htype := d.type.two_le_height
      refine ⟨⟨⟨?_, ?_⟩, lt_of_maxHeight_lt ?_⟩, lt_of_maxHeight_lt ?_⟩ <;> omega
  | enumValueDefinition d =>
      simp only [parts_enumValueDefinition, List.forall_mem_append, List.forall_mem_map,
        List.forall_mem_singleton, height]
      rw [EnumValueDefinition.height]
      refine ⟨?_, lt_of_maxHeight_lt ?_⟩ <;> omega

/-- Children are lower than the node. -/
theorem height_lt_of_mem_children {node child : Node} {slot : Slot}
    (h : child ∈ node.children slot) : child.height < node.height :=
  node.height_lt_of_mem_parts child <| List.mem_flatMap.mpr
    ⟨slot, (node.isSlot_contents slot).mem_slots (List.ne_nil_of_mem h), h⟩

end Node

end GraphQL

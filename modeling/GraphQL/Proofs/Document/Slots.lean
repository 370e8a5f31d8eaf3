import Mathlib
import GraphQL.Document.Node

/-!
# Reading, writing and listing the slots of a node

Three tables tell about the slots of nodes: `Node.children` what stands in a slot,
`Node.replaceChild` what can be put there and what comes of it, and `NodeKind.slots` which
slots a node of a kind has.  They agree (`Node.replaceChild_children_slots_agree`).

What a slot holds is told once, by `Node.contents`, so all of this is read off one table with
one row for each slot of each kind (`Contents.IsSlot`, `Node.isSlot_contents`).  A row is right
if the node that is rebuilt has the new parts in that slot and is the same in all other slots
and in what it holds besides (`Node.HasInstead`).  A node is what it has in its slots and besides
(`Node.ext_of_children`), so this leaves no choice of the node.
-/

namespace GraphQL

/-! ## Nodes by their kinds -/

/-- A node is of one of the kinds. -/
@[elab_as_elim]
theorem Node.byKind {motive : Node → Prop} (node : Node)
    (name : ∀ n, motive (.name n))
    (document : ∀ d, motive (.document d))
    (operation : ∀ d, motive (.definition (.operation d)))
    (fragment : ∀ d, motive (.definition (.fragment d)))
    (schema : ∀ d, motive (.definition (.schema d)))
    (scalarType : ∀ d, motive (.definition (.scalarType d)))
    (objectType : ∀ d, motive (.definition (.objectType d)))
    (interfaceType : ∀ d, motive (.definition (.interfaceType d)))
    (unionType : ∀ d, motive (.definition (.unionType d)))
    (enumType : ∀ d, motive (.definition (.enumType d)))
    (inputObjectType : ∀ d, motive (.definition (.inputObjectType d)))
    (typeExtension : ∀ d, motive (.definition (.typeExtension d)))
    (directiveDefinition : ∀ d, motive (.definition (.directive d)))
    (variableDefinition : ∀ d, motive (.variableDefinition d))
    (selectionSet : ∀ s, motive (.selectionSet s))
    (field : ∀ f, motive (.selection (.field f)))
    (spread : ∀ s, motive (.selection (.spread s)))
    (inline : ∀ f, motive (.selection (.inline f)))
    (argument : ∀ a, motive (.argument a))
    (var : ∀ v, motive (.value (.var v)))
    (int : ∀ text span, motive (.value (.int text span)))
    (float : ∀ text span, motive (.value (.float text span)))
    (string : ∀ text block span, motive (.value (.string text block span)))
    (boolean : ∀ b span, motive (.value (.boolean b span)))
    (null : ∀ span, motive (.value (.null span)))
    (enum : ∀ name span, motive (.value (.enum name span)))
    (list : ∀ items span, motive (.value (.list items span)))
    (object : ∀ fields span, motive (.value (.object fields span)))
    (objectField : ∀ f, motive (.objectField f))
    (directive : ∀ d, motive (.directive d))
    (named : ∀ t, motive (.type (.named t)))
    (listType : ∀ t span, motive (.type (.list t span)))
    (nonNullType : ∀ t span, motive (.type (.nonNull t span)))
    (operationTypeDefinition : ∀ d, motive (.operationTypeDefinition d))
    (fieldDefinition : ∀ d, motive (.fieldDefinition d))
    (inputValueDefinition : ∀ d, motive (.inputValueDefinition d))
    (enumValueDefinition : ∀ d, motive (.enumValueDefinition d)) : motive node := by
  cases node with
  | definition d => cases d <;> apply_assumption
  | selection s => cases s <;> apply_assumption
  | value v => cases v <;> apply_assumption
  | type t => cases t <;> apply_assumption
  | _ => apply_assumption

namespace NodeKind

/-- The kinds of definitions. -/
def definitions : List NodeKind :=
  [.operationDefinition, .fragmentDefinition, .schemaDefinition, .scalarTypeDefinition,
    .objectTypeDefinition, .interfaceTypeDefinition, .unionTypeDefinition, .enumTypeDefinition,
    .inputObjectTypeDefinition, .typeExtensionDefinition, .directiveDefinition]

/-- The kinds of values. -/
def values : List NodeKind :=
  [.variableUse, .intValue, .floatValue, .stringValue, .booleanValue, .nullValue, .enumValue,
    .listValue, .objectValue]

end NodeKind

/-! ## Parts -/

namespace Part

variable {α : Type} [Part α] {node : Node} {part : α}

/-- The nodes that are such parts are those of certain kinds, and the part that a node is
becomes that node. -/
class Lawful (α : Type) [Part α] where
  kinds : List NodeKind
  ofNode?_eq_some_iff : ∀ {node : Node} {part : α},
      ofNode? node = some part ↔ node = toNode part := by
    intro node part
    cases node using Node.byKind <;> simp [ofNode?, toNode, eq_comm]
  isSome_ofNode?_iff : ∀ {node : Node}, (ofNode? node : Option α).isSome ↔ node.kind ∈ kinds := by
    intro node
    cases node using Node.byKind <;> simp [ofNode?, Node.kind, Definition.kind, Selection.kind,
      Value.kind, TypeExpr.kind, NodeKind.definitions, NodeKind.values]

instance : Lawful Name where
  kinds := [.name]

instance : Lawful Definition where
  kinds := NodeKind.definitions

instance : Lawful VariableDefinition where
  kinds := [.variableDefinition]

instance : Lawful Variable where
  kinds := [.variableUse]

instance : Lawful SelectionSet where
  kinds := [.selectionSet]

instance : Lawful Selection where
  kinds := [.field, .fragmentSpread, .inlineFragment]

instance : Lawful Argument where
  kinds := [.argument]

instance : Lawful Value where
  kinds := NodeKind.values

instance : Lawful ObjectField where
  kinds := [.objectField]

instance : Lawful Directive where
  kinds := [.directive]

instance : Lawful TypeExpr where
  kinds := [.namedType, .listType, .nonNullType]

instance : Lawful NamedType where
  kinds := [.namedType]

instance : Lawful ObjectTypeDefinition where
  kinds := [.objectTypeDefinition]

instance : Lawful OperationTypeDefinition where
  kinds := [.operationTypeDefinition]

instance : Lawful FieldDefinition where
  kinds := [.fieldDefinition]

instance : Lawful InputValueDefinition where
  kinds := [.inputValueDefinition]

instance : Lawful EnumValueDefinition where
  kinds := [.enumValueDefinition]

section

variable [Lawful α]

@[simp]
theorem ofNode?_toNode (part : α) : ofNode? (toNode part) = some part :=
  Lawful.ofNode?_eq_some_iff.mpr rfl

theorem toNode_injective : Function.Injective (toNode : α → Node) := by
  intro a b h
  have hsome := ofNode?_toNode a
  rw [h, ofNode?_toNode] at hsome
  exact (Option.some.inj hsome).symm

theorem toNode_inj {a b : α} : toNode a = toNode b ↔ a = b := toNode_injective.eq_iff

theorem map_toNode_inj {xs ys : List α} : xs.map toNode = ys.map toNode ↔ xs = ys :=
  (List.map_injective_iff.mpr toNode_injective).eq_iff

theorem kind_toNode_mem (part : α) : (toNode part).kind ∈ Lawful.kinds α :=
  Lawful.isSome_ofNode?_iff.mp (by rw [ofNode?_toNode, Option.isSome_some])

end

section put

variable {place : Prop} [Decidable place] {rebuild : α → Node} {node' rejected : Node}

theorem put_eq_ok_iff :
    put place rebuild node = .ok node' ↔
      place ∧ ∃ part, ofNode? node = some part ∧ node' = rebuild part := by
  rw [put]
  split
  · next hplace =>
    rw [and_iff_right hplace]
    cases (ofNode? node : Option α) with
    | none => simp
    | some part => simp [eq_comm]
  · next hplace => simp [hplace]

theorem exists_put_eq_ok_iff [Lawful α] :
    (∃ node', put place rebuild node = .ok node') ↔ place ∧ node.kind ∈ Lawful.kinds α := by
  rw [← Lawful.isSome_ofNode?_iff, Option.isSome_iff_exists]
  simp only [put_eq_ok_iff, exists_and_left, exists_comm (α := Node), exists_eq, and_true]

theorem eq_of_put_eq_error (h : put place rebuild node = .error rejected) : rejected = node := by
  rw [put] at h
  split at h
  · split at h
    · cases h
    · exact (Except.error.inj h).symm
  · exact (Except.error.inj h).symm

end put

end Part

/-! ## What a node is besides its children -/

namespace Node

/-- What a node can hold besides its children, and its kind. -/
structure Rest where
  kind : NodeKind
  span : Option Span
  source : Option Source := none
  operation : Option OperationKind := none
  description : Option String := none
  /-- The text of a name, a number, a string or an enum value. -/
  text : String := ""
  /-- The value of a boolean, or whether a string is a block string. -/
  flag : Bool := false

/-- What a node holds besides its children. -/
def rest : Node → Rest
  | name n => { kind := .name, span := n.span, text := n.text }
  | document d => { kind := .document, span := d.span, source := d.source }
  | definition (.operation d) =>
    { kind := .operationDefinition, span := d.span, operation := some d.operation }
  | definition (.fragment d) => { kind := .fragmentDefinition, span := d.span }
  | definition (.schema d) => { kind := .schemaDefinition, span := d.span }
  | definition (.scalarType d) =>
    { kind := .scalarTypeDefinition, span := d.span, description := d.description }
  | definition (.objectType d) =>
    { kind := .objectTypeDefinition, span := d.span, description := d.description }
  | definition (.interfaceType d) =>
    { kind := .interfaceTypeDefinition, span := d.span, description := d.description }
  | definition (.unionType d) =>
    { kind := .unionTypeDefinition, span := d.span, description := d.description }
  | definition (.enumType d) =>
    { kind := .enumTypeDefinition, span := d.span, description := d.description }
  | definition (.inputObjectType d) =>
    { kind := .inputObjectTypeDefinition, span := d.span, description := d.description }
  | definition (.typeExtension d) => { kind := .typeExtensionDefinition, span := d.span }
  | definition (.directive d) =>
    { kind := .directiveDefinition, span := d.span, description := d.description }
  | value (.int text span) => { kind := .intValue, span, text }
  | value (.float text span) => { kind := .floatValue, span, text }
  | value (.string text block span) => { kind := .stringValue, span, text, flag := block }
  | value (.boolean b span) => { kind := .booleanValue, span, flag := b }
  | value (.enum text span) => { kind := .enumValue, span, text }
  | operationTypeDefinition d =>
    { kind := .operationTypeDefinition, span := d.span, operation := some d.operation }
  | fieldDefinition d =>
    { kind := .fieldDefinition, span := d.span, description := d.description }
  | inputValueDefinition d =>
    { kind := .inputValueDefinition, span := d.span, description := d.description }
  | enumValueDefinition d =>
    { kind := .enumValueDefinition, span := d.span, description := d.description }
  | node => { kind := node.kind, span := node.span }

theorem kind_rest (node : Node) : node.rest.kind = node.kind := by
  cases node using Node.byKind <;> rfl

/-- A node `node'` has some nodes in a slot, and is like `node` in all else. -/
def HasInstead (node : Node) (slot : Slot) (nodes : List Node) (node' : Node) : Prop :=
  node'.rest = node.rest ∧
    ∀ other, node'.children other = if other = slot then nodes else node.children other

namespace HasInstead

variable {node node' part : Node} {slot other : Slot} {nodes : List Node} {index i : ℕ}

theorem kind_eq (h : node.HasInstead slot nodes node') : node'.kind = node.kind := by
  rw [← kind_rest node', h.1, kind_rest]

end HasInstead

end Node

/-! ## The rows of the table -/

namespace NodeKind

/-- The kinds of nodes that can stand in a slot, for kinds that have the slot. -/
def kindsIn : NodeKind → Slot → List NodeKind
  | _, .responseName | _, .name | _, .locations => [.name]
  | .fieldDefinition, .arguments | .directiveDefinition, .arguments => [.inputValueDefinition]
  | _, .arguments => [.argument]
  | _, .definition => [.objectTypeDefinition]
  | _, .definitions => definitions
  | _, .directives => [.directive]
  | .objectValue, .fields => [.objectField]
  | .inputObjectTypeDefinition, .fields => [.inputValueDefinition]
  | _, .fields => [.fieldDefinition]
  | _, .interfaces | _, .types | _, .typeCondition | .operationTypeDefinition, .type => [.namedType]
  | _, .type => [.namedType, .listType, .nonNullType]
  | _, .operationTypes => [.operationTypeDefinition]
  | _, .selectionSet => [.selectionSet]
  | _, .selections => [.field, .fragmentSpread, .inlineFragment]
  | .enumTypeDefinition, .values => [.enumValueDefinition]
  | _, .values | _, .value | _, .defaultValue => values
  | _, .variableUse => [.variableUse]
  | _, .variableDefinitions => [.variableDefinition]

end NodeKind

namespace Contents

variable {α : Type} [Part α] {node : Node} {slot : Slot} {kinds : List NodeKind}

theorem replace?_eq_some_iff {contents : Contents} {index : ℕ} {part node' : Node} :
    contents.replace? index part = some node' ↔ contents.replace index part = .ok node' := by
  rw [replace?]
  cases contents.replace index part <;> simp [Except.toOption]

/-- The contents are those of a slot of a node that can hold nodes of some kinds. -/
structure IsSlot (node : Node) (slot : Slot) (kinds : List NodeKind) (contents : Contents) :
    Prop where
  mem_slots : contents.nodes ≠ [] → slot ∈ node.kind.slots
  kind_mem : ∀ child ∈ contents.nodes, child.kind ∈ kinds
  replaces_iff : ∀ index part, (∃ node', contents.replace index part = .ok node') ↔
    index < contents.nodes.length ∧ part.kind ∈ kinds
  rejected : ∀ index part rejected, contents.replace index part = .error rejected →
    rejected = part
  replaced : ∀ index part node', contents.replace index part = .ok node' →
    node.HasInstead slot (contents.nodes.set index part) node'

theorem isSlot_none : none.IsSlot node slot kinds where
  mem_slots h := absurd rfl h
  kind_mem := by simp [none]
  replaces_iff := by simp [none]
  rejected := by simp [none, eq_comm]
  replaced := by simp [none]

variable [Part.Lawful α]

theorem isSlot_many {parts : List α} {rebuild : List α → Node} (hslot : slot ∈ node.kind.slots)
    (hkinds : Part.Lawful.kinds α = kinds)
    (h : ∀ x, node.HasInstead slot (x.map Part.toNode) (rebuild x)) :
    (many parts rebuild).IsSlot node slot kinds where
  mem_slots _ := hslot
  kind_mem child hchild := by
    obtain ⟨part, -, rfl⟩ := List.mem_map.mp hchild
    exact hkinds ▸ Part.kind_toNode_mem part
  replaces_iff index replacement := by
    rw [← hkinds]
    simpa only [many, List.length_map] using Part.exists_put_eq_ok_iff
  rejected _ _ _ := Part.eq_of_put_eq_error
  replaced index replacement node' hok := by
    obtain ⟨-, part, hpart, rfl⟩ := Part.put_eq_ok_iff.mp hok
    obtain rfl := Part.Lawful.ofNode?_eq_some_iff.mp hpart
    have hset := h (parts.set index part)
    rwa [List.map_set] at hset

theorem isSlot_one {part : α} {rebuild : α → Node} (hslot : slot ∈ node.kind.slots)
    (hkinds : Part.Lawful.kinds α = kinds)
    (h : ∀ x, node.HasInstead slot [Part.toNode x] (rebuild x)) :
    (one part rebuild).IsSlot node slot kinds where
  mem_slots _ := hslot
  kind_mem child hchild := by
    obtain rfl := List.mem_singleton.mp hchild
    exact hkinds ▸ Part.kind_toNode_mem part
  replaces_iff index replacement := by
    rw [← hkinds]
    simpa only [one, List.length_singleton, Nat.lt_one_iff] using Part.exists_put_eq_ok_iff
  rejected _ _ _ := Part.eq_of_put_eq_error
  replaced index replacement node' hok := by
    obtain ⟨rfl, part, hpart, rfl⟩ := Part.put_eq_ok_iff.mp hok
    obtain rfl := Part.Lawful.ofNode?_eq_some_iff.mp hpart
    exact h part

theorem isSlot_optional {part? : Option α} {rebuild : Option α → Node}
    (hslot : slot ∈ node.kind.slots) (hkinds : Part.Lawful.kinds α = kinds)
    (h : ∀ x, node.HasInstead slot (x.toList.map Part.toNode) (rebuild x)) :
    (optional part? rebuild).IsSlot node slot kinds where
  mem_slots _ := hslot
  kind_mem child hchild := by
    obtain ⟨part, -, rfl⟩ := List.mem_map.mp hchild
    exact hkinds ▸ Part.kind_toNode_mem part
  replaces_iff index replacement := by
    have hlt : index < (optional part? rebuild).nodes.length ↔ part?.isSome ∧ index = 0 := by
      cases part? <;> simp [optional]
    rw [hlt, ← hkinds]
    exact Part.exists_put_eq_ok_iff
  rejected _ _ _ := Part.eq_of_put_eq_error
  replaced index replacement node' hok := by
    obtain ⟨⟨hsome, rfl⟩, part, hpart, rfl⟩ := Part.put_eq_ok_iff.mp hok
    obtain rfl := Part.Lawful.ofNode?_eq_some_iff.mp hpart
    obtain ⟨_, rfl⟩ := Option.isSome_iff_exists.mp hsome
    exact h (some part)

end Contents

namespace Node

open Contents

theorem isSlot_definitionContents (d : Definition) (slot : Slot) :
    (definitionContents d slot).IsSlot (.definition d) slot (d.kind.kindsIn slot) := by
  unfold definitionContents
  split
  all_goals first
    | exact isSlot_many (List.elem_iff.mp rfl) rfl fun _ =>
        ⟨rfl, fun other => by cases other <;> rfl⟩
    | exact isSlot_one (List.elem_iff.mp rfl) rfl fun _ =>
        ⟨rfl, fun other => by cases other <;> rfl⟩
    | exact isSlot_optional (List.elem_iff.mp rfl) rfl fun _ =>
        ⟨rfl, fun other => by cases other <;> rfl⟩
    | exact isSlot_none

theorem isSlot_selectionContents (s : Selection) (slot : Slot) :
    (selectionContents s slot).IsSlot (.selection s) slot (s.kind.kindsIn slot) := by
  unfold selectionContents
  split
  all_goals first
    | exact isSlot_many (List.elem_iff.mp rfl) rfl fun _ =>
        ⟨rfl, fun other => by cases other <;> rfl⟩
    | exact isSlot_one (List.elem_iff.mp rfl) rfl fun _ =>
        ⟨rfl, fun other => by cases other <;> rfl⟩
    | exact isSlot_optional (List.elem_iff.mp rfl) rfl fun _ =>
        ⟨rfl, fun other => by cases other <;> rfl⟩
    | exact isSlot_none

theorem isSlot_contents (node : Node) (slot : Slot) :
    (node.contents slot).IsSlot node slot (node.kind.kindsIn slot) := by
  unfold contents
  split
  all_goals first
    | exact isSlot_definitionContents _ _
    | exact isSlot_selectionContents _ _
    | exact isSlot_many (List.elem_iff.mp rfl) rfl fun _ =>
        ⟨rfl, fun other => by cases other <;> rfl⟩
    | exact isSlot_one (List.elem_iff.mp rfl) rfl fun _ =>
        ⟨rfl, fun other => by cases other <;> rfl⟩
    | exact isSlot_optional (List.elem_iff.mp rfl) rfl fun _ =>
        ⟨rfl, fun other => by cases other <;> rfl⟩
    | exact isSlot_none

end Node

/-! ## Slots that are listed -/

namespace NodeKind

/-- A node of the kind with a child in each of its slots. -/
def filled (kind : NodeKind) : Node :=
  let name : Name := ⟨"a", none⟩
  let named : NamedType := ⟨name, none⟩
  let var : Variable := ⟨name, none⟩
  let value : Value := .null none
  let argument : Argument := ⟨name, value, none⟩
  let objectField : ObjectField := ⟨name, value, none⟩
  let directive : Directive := ⟨name, [argument], none⟩
  let spread : FragmentSpread := ⟨name, [directive], none⟩
  let set : SelectionSet := ⟨[.spread spread], none⟩
  let operationType : OperationTypeDefinition := ⟨.query, named, none⟩
  let input : InputValueDefinition := ⟨none, name, .named named, some value, [directive], none⟩
  let field : FieldDefinition := ⟨none, name, [input], .named named, [directive], none⟩
  let enumValue : EnumValueDefinition := ⟨none, name, [directive], none⟩
  let objectType : ObjectTypeDefinition := ⟨none, name, [named], [directive], [field], none⟩
  let variableDefinition : VariableDefinition := ⟨var, .named named, some value, none⟩
  match kind with
  | .name => .name name
  | .document => .document ⟨[.objectType objectType], none, none⟩
  | .operationDefinition =>
    .definition (.operation ⟨.query, some name, [variableDefinition], [directive], set, none⟩)
  | .variableDefinition => .variableDefinition variableDefinition
  | .variableUse => .value (.var var)
  | .selectionSet => .selectionSet set
  | .field => .selection (.field ⟨some name, name, [argument], [directive], some set, none⟩)
  | .argument => .argument argument
  | .fragmentSpread => .selection (.spread spread)
  | .inlineFragment => .selection (.inline ⟨some named, [directive], set, none⟩)
  | .fragmentDefinition => .definition (.fragment ⟨name, named, [directive], set, none⟩)
  | .intValue => .value (.int "0" none)
  | .floatValue => .value (.float "0.0" none)
  | .stringValue => .value (.string "" false none)
  | .booleanValue => .value (.boolean true none)
  | .nullValue => .value value
  | .enumValue => .value (.enum "a" none)
  | .listValue => .value (.list [value] none)
  | .objectValue => .value (.object [objectField] none)
  | .objectField => .objectField objectField
  | .directive => .directive directive
  | .namedType => .type (.named named)
  | .listType => .type (.list (.named named) none)
  | .nonNullType => .type (.nonNull (.named named) none)
  | .schemaDefinition => .definition (.schema ⟨[directive], [operationType], none⟩)
  | .operationTypeDefinition => .operationTypeDefinition operationType
  | .scalarTypeDefinition => .definition (.scalarType ⟨none, name, [directive], none⟩)
  | .objectTypeDefinition => .definition (.objectType objectType)
  | .fieldDefinition => .fieldDefinition field
  | .inputValueDefinition => .inputValueDefinition input
  | .interfaceTypeDefinition =>
    .definition (.interfaceType ⟨none, name, [directive], [field], none⟩)
  | .unionTypeDefinition => .definition (.unionType ⟨none, name, [directive], [named], none⟩)
  | .enumTypeDefinition => .definition (.enumType ⟨none, name, [directive], [enumValue], none⟩)
  | .enumValueDefinition => .enumValueDefinition enumValue
  | .inputObjectTypeDefinition =>
    .definition (.inputObjectType ⟨none, name, [directive], [input], none⟩)
  | .typeExtensionDefinition => .definition (.typeExtension ⟨objectType, none⟩)
  | .directiveDefinition => .definition (.directive ⟨none, name, [input], [name], none⟩)

theorem kind_filled (kind : NodeKind) : kind.filled.kind = kind := by
  cases kind <;> rfl

theorem children_filled_ne_nil {kind : NodeKind} {slot : Slot} (h : slot ∈ kind.slots) :
    kind.filled.children slot ≠ [] := by
  have hall : ∀ slot ∈ kind.slots, (kind.filled.children slot).isEmpty = false := by
    cases kind <;> decide
  exact List.isEmpty_eq_false_iff.mp (hall slot h)

/-- Some node of a kind has a child of another kind in a slot. -/
def CanHold (kind : NodeKind) (slot : Slot) (child : NodeKind) : Prop :=
  ∃ node part : Node, node.kind = kind ∧ part ∈ node.children slot ∧ part.kind = child

/-- What a slot can hold is told by the table.  That it does hold it is seen in a node with a
child in the slot, when another one is put in the place of that. -/
theorem canHold_iff {kind child : NodeKind} {slot : Slot} :
    kind.CanHold slot child ↔ slot ∈ kind.slots ∧ child ∈ kind.kindsIn slot := by
  constructor
  · rintro ⟨node, part, rfl, hpart, rfl⟩
    have hslot := node.isSlot_contents slot
    exact ⟨hslot.mem_slots (List.ne_nil_of_mem hpart), hslot.kind_mem part hpart⟩
  · rintro ⟨hslots, hkind⟩
    have hslot := kind.filled.isSlot_contents slot
    have hpos : 0 < (kind.filled.contents slot).nodes.length :=
      List.length_pos_iff.mpr (children_filled_ne_nil hslots)
    obtain ⟨node, hnode⟩ := (hslot.replaces_iff 0 child.filled).mpr
      ⟨hpos, by rwa [kind_filled, kind_filled]⟩
    have hinstead := hslot.replaced 0 child.filled node hnode
    refine ⟨node, child.filled, ?_, ?_, child.kind_filled⟩
    · rw [hinstead.kind_eq, kind_filled]
    · rw [hinstead.2, if_pos rfl]
      exact List.mem_set hpos _

instance (kind : NodeKind) (slot : Slot) (child : NodeKind) : Decidable (kind.CanHold slot child) :=
  decidable_of_iff _ canHold_iff.symm

example : ¬ NodeKind.argument.CanHold .value .field := by decide

end NodeKind

/-! ## The tables agree -/

namespace Node

variable {node : Node} {slot : Slot}

theorem option_toList_inj {α : Type} {x y : Option α} : x.toList = y.toList ↔ x = y :=
  ⟨fun h => by rw [← Option.head?_toList (o := x), h, Option.head?_toList], congrArg _⟩

/-- A node is what it has in its slots and besides. -/
theorem ext_of_children {a b : Node} (hrest : a.rest = b.rest)
    (hchildren : ∀ slot ∈ a.kind.slots, a.children slot = b.children slot) : a = b := by
  have hkind : a.kind = b.kind := by rw [← kind_rest a, hrest, kind_rest b]
  have hall : a.kind.slots.map a.children = a.kind.slots.map b.children :=
    List.map_congr_left hchildren
  cases a using Node.byKind <;> cases b using Node.byKind <;> cases hkind
  all_goals
    simp only [kind, Definition.kind, Selection.kind, Value.kind, TypeExpr.kind, NodeKind.slots,
      List.map_cons, List.map_nil, List.cons.injEq, children, contents, definitionContents,
      selectionContents, Contents.many, Contents.one, Contents.optional, Part.map_toNode_inj,
      Part.toNode_inj, option_toList_inj, and_true] at hall
    simp only [rest, kind, span, Selection.span, Value.span, TypeExpr.span, Rest.mk.injEq,
      Option.some.injEq, true_and, and_true] at hrest
    clear hchildren
  case int | float | string | boolean | null | enum | list | object | listType | nonNullType =>
    simp_all
  all_goals
    rename_i x y
    cases x
    cases y
    simp_all

/-- Nodes that hold the same are the same. -/
theorem eq_of_hasInstead {nodes : List Node} {a b : Node} (ha : node.HasInstead slot nodes a)
    (hb : node.HasInstead slot nodes b) : a = b :=
  ext_of_children (ha.1.trans hb.1.symm) fun other _ => (ha.2 other).trans (hb.2 other).symm

/-- A slot takes a node of a kind if it has a child at the index and can hold such nodes. -/
theorem replaces_iff (node : Node) (slot : Slot) (index : ℕ) (replacement : Node) :
    (∃ node', (node.contents slot).replace index replacement = .ok node') ↔
      index < (node.children slot).length ∧ node.kind.CanHold slot replacement.kind := by
  have hslot := isSlot_contents node slot
  rw [hslot.replaces_iff]
  refine and_congr_right fun hlt => ?_
  rw [NodeKind.canHold_iff, and_iff_right]
  exact hslot.mem_slots (List.ne_nil_of_length_pos (Nat.zero_lt_of_lt hlt))

theorem replaceChild?_eq_some_iff {index : ℕ} {replacement node' : Node} :
    node.replaceChild? slot index replacement = some node' ↔
      (index < (node.children slot).length ∧ node.kind.CanHold slot replacement.kind) ∧
        node.HasInstead slot ((node.children slot).set index replacement) node' := by
  rw [replaceChild?, Contents.replace?_eq_some_iff, ← replaces_iff]
  constructor
  · intro hok
    exact ⟨⟨node', hok⟩, (isSlot_contents node slot).replaced index replacement node' hok⟩
  · rintro ⟨⟨other, hok⟩, hinstead⟩
    rwa [eq_of_hasInstead hinstead
      ((isSlot_contents node slot).replaced index replacement other hok)]

theorem mem_placedChildren_iff {node child : Node} {slot : Slot} {index : ℕ} :
    (slot, index, child) ∈ node.placedChildren ↔ (node.children slot)[index]? = some child := by
  rw [placedChildren, List.mem_flatMap]
  constructor
  · rintro ⟨slot', -, hmem⟩
    obtain ⟨⟨child', index'⟩, hmem, heq⟩ := List.mem_map.mp hmem
    cases heq
    exact List.mem_zipIdx_iff_getElem?.mp hmem
  · intro hchild
    have hmem := List.mem_of_getElem? hchild
    refine ⟨slot, (node.isSlot_contents slot).mem_slots (List.ne_nil_of_mem hmem), ?_⟩
    exact List.mem_map.mpr ⟨(child, index), List.mem_zipIdx_iff_getElem?.mpr hchild, rfl⟩

end Node

end GraphQL

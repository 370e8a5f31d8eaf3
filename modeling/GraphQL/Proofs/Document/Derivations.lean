import Mathlib
import GraphQL.Document.Basic
import GraphQL.Token.Basic

/-!
# Derivations of executable documents

The grammar of executable documents, of October 2021, without directives on the definitions of
variables.  Every symbol of the grammar is a type, whose elements are the derivations from the
symbol; a constructor is a production.  What a production marks as optional is an `Option`, or
a list that may be empty.

A derivation is data, so that there can be more than one for a sequence of tokens.  Three things
are read off it: the `tokens` it derives, the `tree` it stands for, and the `nesting`, which is
how many selection sets, values and layers of types can lie on one path.  Nothing here knows how
documents are read.
-/

namespace GraphQL

/-! ## Trees without places -/

/-! A derivation knows nothing of the text that its tokens stand in.  `unplaced` takes off a
tree the spans of all parts, and nothing else. -/

def Name.unplaced (n : Name) : Name := { n with span := none }

def Variable.unplaced (v : Variable) : Variable := ⟨v.name.unplaced, none⟩

def NamedType.unplaced (t : NamedType) : NamedType := ⟨t.name.unplaced, none⟩

def TypeExpr.unplaced : TypeExpr → TypeExpr
  | named t => named t.unplaced
  | list t _ => list t.unplaced none
  | nonNull t _ => nonNull t.unplaced none

mutual

def Value.unplaced : Value → Value
  | .var v => .var v.unplaced
  | .int text _ => .int text none
  | .float text _ => .float text none
  | .string s block _ => .string s block none
  | .boolean b _ => .boolean b none
  | .null _ => .null none
  | .enum name _ => .enum name none
  | .list items _ => .list (unplacedItems items) none
  | .object fields _ => .object (unplacedFields fields) none

def unplacedItems : List Value → List Value
  | [] => []
  | value :: rest => value.unplaced :: unplacedItems rest

def unplacedFields : List ObjectField → List ObjectField
  | [] => []
  | ⟨name, value, _⟩ :: rest => ⟨name.unplaced, value.unplaced, none⟩ :: unplacedFields rest

end

def ObjectField.unplaced (f : ObjectField) : ObjectField :=
  ⟨f.name.unplaced, f.value.unplaced, none⟩

theorem unplacedItems_eq (items : List Value) : unplacedItems items = items.map Value.unplaced := by
  induction items with
  | nil => rfl
  | cons item rest ih => rw [unplacedItems, ih, List.map_cons]

theorem unplacedFields_eq (fields : List ObjectField) :
    unplacedFields fields = fields.map ObjectField.unplaced := by
  induction fields with
  | nil => rfl
  | cons field rest ih =>
      obtain ⟨name, value, span⟩ := field
      rw [unplacedFields, ih, List.map_cons]
      rfl

def Argument.unplaced (a : Argument) : Argument := ⟨a.name.unplaced, a.value.unplaced, none⟩

def Directive.unplaced (d : Directive) : Directive :=
  ⟨d.name.unplaced, d.arguments.map Argument.unplaced, none⟩

def FragmentSpread.unplaced (s : FragmentSpread) : FragmentSpread :=
  ⟨s.name.unplaced, s.directives.map Directive.unplaced, none⟩

mutual

def SelectionSet.unplaced : SelectionSet → SelectionSet
  | ⟨selections, _⟩ => ⟨unplacedSelections selections, none⟩

def unplacedSelections : List Selection → List Selection
  | [] => []
  | selection :: rest => selection.unplaced :: unplacedSelections rest

def Selection.unplaced : Selection → Selection
  | .field f => .field f.unplaced
  | .spread s => .spread s.unplaced
  | .inline f => .inline f.unplaced

def Field.unplaced : Field → Field
  | ⟨responseName, name, arguments, directives, below, _⟩ =>
    ⟨responseName.map Name.unplaced, name.unplaced, arguments.map Argument.unplaced,
      directives.map Directive.unplaced, unplacedBelow below, none⟩

def unplacedBelow : Option SelectionSet → Option SelectionSet
  | none => none
  | some set => some set.unplaced

def InlineFragment.unplaced : InlineFragment → InlineFragment
  | ⟨condition, directives, below, _⟩ =>
    ⟨condition.map NamedType.unplaced, directives.map Directive.unplaced, below.unplaced, none⟩

end

theorem unplacedSelections_eq (selections : List Selection) :
    unplacedSelections selections = selections.map Selection.unplaced := by
  induction selections with
  | nil => rfl
  | cons selection rest ih => rw [unplacedSelections, ih, List.map_cons]

theorem unplacedBelow_eq (below : Option SelectionSet) :
    unplacedBelow below = below.map SelectionSet.unplaced := by
  cases below <;> rfl

def VariableDefinition.unplaced (d : VariableDefinition) : VariableDefinition :=
  ⟨d.var.unplaced, d.type.unplaced, d.defaultValue.map Value.unplaced, none⟩

def OperationDefinition.unplaced (d : OperationDefinition) : OperationDefinition :=
  ⟨d.operation, d.name.map Name.unplaced, d.variableDefinitions.map VariableDefinition.unplaced,
    d.directives.map Directive.unplaced, d.selectionSet.unplaced, none⟩

def FragmentDefinition.unplaced (d : FragmentDefinition) : FragmentDefinition :=
  ⟨d.name.unplaced, d.typeCondition.unplaced, d.directives.map Directive.unplaced,
    d.selectionSet.unplaced, none⟩

/-- An executable definition without spans.  A definition of a type system is left as it is. -/
def Definition.unplaced : Definition → Definition
  | operation d => operation d.unplaced
  | fragment d => fragment d.unplaced
  | other => other

/-- An executable document without spans, and without the text it was read from. -/
def Document.unplaced (document : Document) : Document :=
  ⟨document.definitions.map Definition.unplaced, none, none⟩

/-! ## What is read off a derivation -/

/-- A symbol of the grammar, as the type of the derivations from it. -/
class Derivation (δ : Type) (β : outParam Type) where
  /-- The sequence that is derived. -/
  tokens : δ → List TokenKind
  /-- What the sequence says. -/
  tree : δ → β
  /-- The most selection sets, values and layers of types on a path. -/
  nesting : δ → ℕ

namespace Derivation

section

variable {δ β : Type} [Derivation δ β]

/-- One after another. -/
instance : Derivation (List δ) (List β) where
  tokens ds := ds.flatMap tokens
  tree ds := ds.map tree
  nesting ds := (ds.map nesting).foldr max 0

/-- A part that may be missing. -/
instance : Derivation (Option δ) (Option β) where
  tokens d := (d.map tokens).getD []
  tree d := d.map tree
  nesting d := (d.map nesting).getD 0

/-- A row in parentheses, or nothing. -/
def parenthesized : List δ → List TokenKind
  | [] => []
  | d :: ds => .punctuator .parenOpen :: tokens (d :: ds) ++ [.punctuator .parenClose]

end

/-! ## Names -/

/-- A name.  The words `true`, `false` and `null` have tokens of their own, but are names too. -/
inductive Name where
  | word (text : String)
  | boolean (value : Bool)
  | null

def Name.kind : Name → TokenKind
  | word text => .name text
  | boolean value => .boolean value
  | null => .null

def Name.tree : Name → GraphQL.Name
  | word text => { text }
  | boolean true => { text := "true" }
  | boolean false => { text := "false" }
  | null => { text := "null" }

instance : Derivation Name GraphQL.Name where
  tokens name := [name.kind]
  tree := Name.tree
  nesting _ := 0

/-- The name of a fragment, which is any but `on`. -/
structure FragmentName where
  name : Name
  ne_on : name ≠ .word "on"

/-! ## Types -/

/-- A type: a name or a list, each with the mark that there is no null or without it. -/
inductive TypeReference where
  | named (name : Name) (nonNull : Bool)
  | list (item : TypeReference) (nonNull : Bool)

namespace TypeReference

/-- The mark that there is no null. -/
def nonNullMark : Bool → List TokenKind
  | true => [.punctuator .bang]
  | false => []

def tokens : TypeReference → List TokenKind
  | named name nonNull => name.kind :: nonNullMark nonNull
  | list item nonNull =>
    .punctuator .bracketOpen :: item.tokens ++ .punctuator .bracketClose :: nonNullMark nonNull

/-- The tree of a type, given the tree without the mark. -/
def marked (type : TypeExpr) : (nonNull : Bool) → TypeExpr
  | true => .nonNull type none
  | false => type

def tree : TypeReference → TypeExpr
  | named name nonNull => marked (.named { name := name.tree }) nonNull
  | list item nonNull => marked (.list item.tree none) nonNull

/-- The lists within one another, and the name in them. -/
def nesting : TypeReference → ℕ
  | named _ _ => 1
  | list item _ => item.nesting + 1

instance : Derivation TypeReference TypeExpr := ⟨tokens, tree, nesting⟩

end TypeReference

/-! ## Values -/

/-- A value that is one token.  The words for other values have tokens of their own, so a word
is the value of an enum. -/
inductive Literal where
  | int (text : String)
  | float (text : String)
  | string (value : String)
  | blockString (value : String)
  | boolean (value : Bool)
  | null
  | enum (name : String)

namespace Literal

def kind : Literal → TokenKind
  | int text => .int text
  | float text => .float text
  | string value => .string value
  | blockString value => .blockString value
  | boolean value => .boolean value
  | null => .null
  | enum name => .name name

def tree : Literal → GraphQL.Value
  | int text => .int text none
  | float text => .float text none
  | string value => .string value false none
  | blockString value => .string value true none
  | boolean value => .boolean value none
  | null => .null none
  | enum name => .enum name none

end Literal

mutual

/-- A value.  There is no variable anywhere in a constant. -/
inductive Value (constant : Bool) where
  | var (name : Name) (allowed : constant = false)
  | literal (l : Literal)
  | list (items : List (Value constant))
  | object (fields : List (ObjectField constant))

structure ObjectField (constant : Bool) where
  name : Name
  value : Value constant

end

section

variable {constant : Bool}

mutual

def Value.tokens : Value constant → List TokenKind
  | .var name _ => [.punctuator .dollar, name.kind]
  | .literal l => [l.kind]
  | .list items =>
    .punctuator .bracketOpen :: items.flatMap (fun value => value.tokens) ++
      [.punctuator .bracketClose]
  | .object fields =>
    .punctuator .braceOpen :: fields.flatMap (fun field => field.tokens) ++
      [.punctuator .braceClose]

def ObjectField.tokens : ObjectField constant → List TokenKind
  | ⟨name, value⟩ => name.kind :: .punctuator .colon :: value.tokens

end

mutual

def Value.tree : Value constant → GraphQL.Value
  | .var name _ => .var { name := name.tree }
  | .literal l => l.tree
  | .list items => .list (items.map fun value => value.tree) none
  | .object fields => .object (fields.map fun field => field.tree) none

def ObjectField.tree : ObjectField constant → GraphQL.ObjectField
  | ⟨name, value⟩ => { name := name.tree, value := value.tree }

end

mutual

/-- The lists and objects within one another, and the value in them. -/
def Value.nesting : Value constant → ℕ
  | .var _ _ | .literal _ => 1
  | .list items => (items.map fun value => value.nesting).foldr max 0 + 1
  | .object fields => (fields.map fun field => field.nesting).foldr max 0 + 1

def ObjectField.nesting : ObjectField constant → ℕ
  | ⟨_, value⟩ => value.nesting

end

instance : Derivation (Value constant) GraphQL.Value := ⟨Value.tokens, Value.tree, Value.nesting⟩

instance : Derivation (ObjectField constant) GraphQL.ObjectField :=
  ⟨ObjectField.tokens, ObjectField.tree, ObjectField.nesting⟩

end

/-! ## Arguments and directives -/

structure Argument where
  name : Name
  value : Value false

instance : Derivation Argument GraphQL.Argument where
  tokens a := a.name.kind :: .punctuator .colon :: a.value.tokens
  tree a := { name := a.name.tree, value := a.value.tree }
  nesting a := a.value.nesting

structure Directive where
  name : Name
  arguments : List Argument

instance : Derivation Directive GraphQL.Directive where
  tokens d := .punctuator .atSign :: d.name.kind :: parenthesized d.arguments
  tree d := { name := d.name.tree, arguments := tree d.arguments }
  nesting d := nesting d.arguments

/-! ## Selections -/

/-- The name that a field gets in the response, in front of its own. -/
structure Alias where
  name : Name

instance : Derivation Alias GraphQL.Name where
  tokens a := [a.name.kind, .punctuator .colon]
  tree a := a.name.tree
  nesting _ := 0

/-- The type that a fragment is about. -/
structure TypeCondition where
  name : Name

instance : Derivation TypeCondition NamedType where
  tokens condition := [.name "on", condition.name.kind]
  tree condition := { name := condition.name.tree }
  nesting _ := 0

mutual

structure SelectionSet where
  first : Selection
  others : List Selection

inductive Selection where
  | field (f : Field)
  | spread (name : FragmentName) (directives : List Directive)
  | inline (typeCondition : Option TypeCondition) (directives : List Directive)
      (selectionSet : SelectionSet)

structure Field where
  responseName : Option Alias
  name : Name
  arguments : List Argument
  directives : List Directive
  selectionSet : Option SelectionSet

end

mutual

def SelectionSet.tokens : SelectionSet → List TokenKind
  | ⟨first, others⟩ =>
    .punctuator .braceOpen :: first.tokens ++ others.flatMap (fun selection => selection.tokens) ++
      [.punctuator .braceClose]

def Selection.tokens : Selection → List TokenKind
  | .field f => f.tokens
  | .spread name directives =>
    .punctuator .ellipsis :: name.name.kind :: Derivation.tokens directives
  | .inline typeCondition directives selectionSet =>
    .punctuator .ellipsis :: Derivation.tokens typeCondition ++ Derivation.tokens directives ++
      selectionSet.tokens

def Field.tokens : Field → List TokenKind
  | ⟨responseName, name, arguments, directives, selectionSet⟩ =>
    Derivation.tokens responseName ++ [name.kind] ++ parenthesized arguments ++
      Derivation.tokens directives ++
      match selectionSet with
      | none => []
      | some set => set.tokens

end

mutual

def SelectionSet.tree : SelectionSet → GraphQL.SelectionSet
  | ⟨first, others⟩ => { selections := first.tree :: others.map fun selection => selection.tree }

def Selection.tree : Selection → GraphQL.Selection
  | .field f => .field f.tree
  | .spread name directives =>
    .spread { name := name.name.tree, directives := Derivation.tree directives }
  | .inline typeCondition directives selectionSet =>
    .inline {
      typeCondition := Derivation.tree typeCondition
      directives := Derivation.tree directives
      selectionSet := selectionSet.tree }

def Field.tree : Field → GraphQL.Field
  | ⟨responseName, name, arguments, directives, selectionSet⟩ => {
      responseName := Derivation.tree responseName
      name := name.tree
      arguments := Derivation.tree arguments
      directives := Derivation.tree directives
      selectionSet :=
        match selectionSet with
        | none => none
        | some set => some set.tree }

end

mutual

/-- The selection sets within one another, and the values given in them. -/
def SelectionSet.nesting : SelectionSet → ℕ
  | ⟨first, others⟩ =>
    max first.nesting ((others.map fun selection => selection.nesting).foldr max 0) + 1

def Selection.nesting : Selection → ℕ
  | .field f => f.nesting
  | .spread _ directives => Derivation.nesting directives
  | .inline _ directives selectionSet =>
    max (Derivation.nesting directives) selectionSet.nesting

def Field.nesting : Field → ℕ
  | ⟨_, _, arguments, directives, selectionSet⟩ =>
    max (max (Derivation.nesting arguments) (Derivation.nesting directives))
      (match selectionSet with
      | none => 0
      | some set => set.nesting)

end

instance : Derivation SelectionSet GraphQL.SelectionSet :=
  ⟨SelectionSet.tokens, SelectionSet.tree, SelectionSet.nesting⟩

instance : Derivation Selection GraphQL.Selection :=
  ⟨Selection.tokens, Selection.tree, Selection.nesting⟩

instance : Derivation Field GraphQL.Field := ⟨Field.tokens, Field.tree, Field.nesting⟩

section

variable {responseName : Option Alias} {name : Name} {arguments : List Argument}
  {directives : List Directive} {selectionSet : Option SelectionSet}

theorem Field.tokens_mk :
    tokens (Field.mk responseName name arguments directives selectionSet) =
      Derivation.tokens responseName ++ [name.kind] ++ parenthesized arguments ++
        Derivation.tokens directives ++ Derivation.tokens selectionSet := by
  cases selectionSet <;> rw [Field.tokens] <;> rfl

theorem Field.tree_mk : tree (Field.mk responseName name arguments directives selectionSet) = {
    responseName := Derivation.tree responseName
    name := name.tree
    arguments := Derivation.tree arguments
    directives := Derivation.tree directives
    selectionSet := Derivation.tree selectionSet } := by
  cases selectionSet <;> rw [Field.tree] <;> rfl

theorem Field.nesting_mk :
    nesting (Field.mk responseName name arguments directives selectionSet) =
      max (max (Derivation.nesting arguments) (Derivation.nesting directives))
        (Derivation.nesting selectionSet) := by
  cases selectionSet <;> rw [Field.nesting] <;> rfl

end

/-! ## Definitions -/

structure DefaultValue where
  value : Value true

instance : Derivation DefaultValue GraphQL.Value where
  tokens d := .punctuator .equals :: d.value.tokens
  tree d := d.value.tree
  nesting d := d.value.nesting

structure VariableDefinition where
  name : Name
  type : TypeReference
  defaultValue : Option DefaultValue

instance : Derivation VariableDefinition GraphQL.VariableDefinition where
  tokens d :=
    .punctuator .dollar :: d.name.kind :: .punctuator .colon :: d.type.tokens ++
      tokens d.defaultValue
  tree d := {
    var := { name := d.name.tree }
    type := d.type.tree
    defaultValue := tree d.defaultValue }
  nesting d := max d.type.nesting (nesting d.defaultValue)

/-- An operation, or the selection set of a query alone. -/
inductive OperationDefinition where
  | shorthand (selectionSet : SelectionSet)
  | headed (operation : OperationKind) (name : Option Name)
      (variableDefinitions : List VariableDefinition) (directives : List Directive)
      (selectionSet : SelectionSet)

instance : Derivation OperationDefinition GraphQL.OperationDefinition where
  tokens
    | .shorthand selectionSet => selectionSet.tokens
    | .headed operation name variableDefinitions directives selectionSet =>
      .name operation.keyword :: tokens name ++ parenthesized variableDefinitions ++
        tokens directives ++ selectionSet.tokens
  tree
    | .shorthand selectionSet => {
        operation := .query
        name := none
        variableDefinitions := []
        directives := []
        selectionSet := selectionSet.tree }
    | .headed operation name variableDefinitions directives selectionSet => {
        operation
        name := tree name
        variableDefinitions := tree variableDefinitions
        directives := tree directives
        selectionSet := selectionSet.tree }
  nesting
    | .shorthand selectionSet => selectionSet.nesting
    | .headed _ _ variableDefinitions directives selectionSet =>
      max (max (nesting variableDefinitions) (nesting directives)) selectionSet.nesting

structure FragmentDefinition where
  name : FragmentName
  typeCondition : TypeCondition
  directives : List Directive
  selectionSet : SelectionSet

instance : Derivation FragmentDefinition GraphQL.FragmentDefinition where
  tokens d :=
    .name "fragment" :: d.name.name.kind :: tokens d.typeCondition ++ tokens d.directives ++
      d.selectionSet.tokens
  tree d := {
    name := d.name.name.tree
    typeCondition := tree d.typeCondition
    directives := tree d.directives
    selectionSet := d.selectionSet.tree }
  nesting d := max (nesting d.directives) d.selectionSet.nesting

/-- An executable definition. -/
inductive Definition where
  | operation (d : OperationDefinition)
  | fragment (d : FragmentDefinition)

instance : Derivation Definition GraphQL.Definition where
  tokens
    | .operation d => tokens d
    | .fragment d => tokens d
  tree
    | .operation d => .operation (tree d)
    | .fragment d => .fragment (tree d)
  nesting
    | .operation d => nesting d
    | .fragment d => nesting d

/-- An executable document, which has at least one definition. -/
structure Document where
  first : Definition
  others : List Definition

instance : Derivation Document GraphQL.Document where
  tokens d := tokens d.first ++ tokens d.others
  tree d := { definitions := tree d.first :: tree d.others }
  nesting d := max (nesting d.first) (nesting d.others)

/-- What an executable definition can begin with. -/
def Starts (kind : TokenKind) : Prop :=
  kind = .punctuator .braceOpen ∨
    ∃ word ∈ ["query", "mutation", "subscription", "fragment"], kind = .name word

/-- What a definition of a type system can begin with, which is its description or a keyword. -/
def StartsTypeSystem : TokenKind → Prop
  | .string _ | .blockString _ => True
  | .name word =>
    word ∈ ["schema", "scalar", "type", "interface", "union", "enum", "input", "extend",
      "directive"]
  | _ => False

/-- No definition of a sequence starts as one of a type system: neither does the first token, nor
does a token that comes right after a row of executable definitions. -/
def StartsExecutable (kinds : List TokenKind) : Prop :=
  ∀ (ds : List Definition) (next : TokenKind) (rest : List TokenKind),
    kinds = tokens ds ++ next :: rest → ¬StartsTypeSystem next

theorem Starts.not_typeSystem {kind : TokenKind} (h : Starts kind) : ¬StartsTypeSystem kind := by
  rcases h with rfl | ⟨word, hword, rfl⟩
  · exact id
  · simp only [List.mem_cons, List.not_mem_nil, or_false] at hword
    rcases hword with rfl | rfl | rfl | rfl <;> simp [StartsTypeSystem]

/-! ## The end of a text -/

/-! The end of a text is a token too, but no part of anything that is derived. -/

theorem Name.kind_ne_eof (n : Name) : n.kind ≠ .eof := by
  cases n <;> nofun

theorem Literal.kind_ne_eof (l : Literal) : l.kind ≠ .eof := by
  cases l <;> nofun

section

variable {δ β : Type} [Derivation δ β]

theorem eof_notMem_rows {ds : List δ} (h : ∀ d ∈ ds, .eof ∉ tokens d) : .eof ∉ tokens ds := by
  intro hmem
  obtain ⟨d, hd, hmem⟩ := List.mem_flatMap.mp hmem
  exact h d hd hmem

theorem eof_notMem_option {d : Option δ} (h : ∀ e ∈ d, .eof ∉ tokens e) : .eof ∉ tokens d := by
  cases d with
  | none => exact List.not_mem_nil
  | some e => exact h e rfl

/-- A row between two marks. -/
theorem eof_notMem_enclosed {opening closing : Punctuator} {ds : List δ}
    (h : ∀ d ∈ ds, .eof ∉ tokens d) :
    .eof ∉ .punctuator opening :: tokens ds ++ [.punctuator closing] := by
  have hds := eof_notMem_rows h
  simp [hds]

theorem eof_notMem_parenthesized {ds : List δ} (h : ∀ d ∈ ds, .eof ∉ tokens d) :
    .eof ∉ parenthesized ds := by
  cases ds with
  | nil => exact List.not_mem_nil
  | cons d ds => exact eof_notMem_enclosed h

end

theorem TypeReference.eof_notMem (t : TypeReference) : .eof ∉ tokens t := by
  have hmark (nonNull : Bool) : .eof ∉ nonNullMark nonNull := by cases nonNull <;> decide
  induction t with
  | named n nonNull => simp [tokens, n.kind_ne_eof.symm, hmark]
  | list t nonNull ih => simp [tokens, ih, hmark]

section

variable {constant : Bool}

theorem Value.eof_notMem_var (n : Name) (allowed : constant = false) :
    .eof ∉ (Value.var n allowed).tokens := by
  simp [Value.tokens, n.kind_ne_eof.symm]

theorem Value.eof_notMem_literal (l : Literal) :
    .eof ∉ (Value.literal l : Value constant).tokens := by
  simp [Value.tokens, l.kind_ne_eof.symm]

theorem Value.eof_notMem_list {items : List (Value constant)} (h : ∀ v ∈ items, .eof ∉ v.tokens) :
    .eof ∉ (Value.list items).tokens := by
  rw [Value.tokens]
  exact eof_notMem_enclosed h

theorem Value.eof_notMem_object {fields : List (ObjectField constant)}
    (h : ∀ f ∈ fields, .eof ∉ f.tokens) : .eof ∉ (Value.object fields).tokens := by
  rw [Value.tokens]
  exact eof_notMem_enclosed h

theorem ObjectField.eof_notMem_mk (n : Name) {v : Value constant} (h : .eof ∉ v.tokens) :
    .eof ∉ (ObjectField.mk n v).tokens := by
  simp [ObjectField.tokens, n.kind_ne_eof.symm, h]

mutual

theorem Value.eof_notMem : ∀ v : Value constant, .eof ∉ v.tokens
  | .var n allowed => Value.eof_notMem_var n allowed
  | .literal l => Value.eof_notMem_literal l
  | .list items => Value.eof_notMem_list fun v _ => v.eof_notMem
  | .object fields => Value.eof_notMem_object fun f _ => f.eof_notMem

theorem ObjectField.eof_notMem : ∀ f : ObjectField constant, .eof ∉ f.tokens
  | ⟨n, v⟩ => ObjectField.eof_notMem_mk n v.eof_notMem

end

end

theorem Argument.eof_notMem (a : Argument) : .eof ∉ tokens a := by
  simp [Derivation.tokens, a.name.kind_ne_eof.symm, a.value.eof_notMem]

theorem eof_notMem_directives (ds : List Directive) : .eof ∉ tokens ds :=
  eof_notMem_rows fun d _ => by
    have hargs : .eof ∉ parenthesized d.arguments :=
      eof_notMem_parenthesized fun a _ => a.eof_notMem
    simp [tokens, d.name.kind_ne_eof.symm, hargs]

theorem eof_notMem_condition (condition : Option TypeCondition) : .eof ∉ tokens condition :=
  eof_notMem_option fun c _ => by simp [tokens, c.name.kind_ne_eof.symm]

theorem SelectionSet.eof_notMem_mk {first : Selection} {others : List Selection}
    (h : ∀ s ∈ first :: others, .eof ∉ s.tokens) : .eof ∉ (SelectionSet.mk first others).tokens := by
  rw [SelectionSet.tokens]
  exact eof_notMem_enclosed h

theorem Selection.eof_notMem_field {f : Field} (h : .eof ∉ f.tokens) :
    .eof ∉ (Selection.field f).tokens := by
  rwa [Selection.tokens]

theorem Selection.eof_notMem_spread (n : FragmentName) (ds : List Directive) :
    .eof ∉ (Selection.spread n ds).tokens := by
  simp [Selection.tokens, n.name.kind_ne_eof.symm, eof_notMem_directives ds]

theorem Selection.eof_notMem_inline (condition : Option TypeCondition) (ds : List Directive)
    {set : SelectionSet} (h : .eof ∉ set.tokens) :
    .eof ∉ (Selection.inline condition ds set).tokens := by
  simp [Selection.tokens, eof_notMem_condition condition, eof_notMem_directives ds, h]

theorem Field.eof_notMem_mk (responseName : Option Alias) (n : Name) (as : List Argument)
    (ds : List Directive) {below : Option SelectionSet} (h : ∀ set ∈ below, .eof ∉ set.tokens) :
    .eof ∉ (Field.mk responseName n as ds below).tokens := by
  have halias : .eof ∉ Derivation.tokens responseName :=
    eof_notMem_option fun a _ => by simp [Derivation.tokens, a.name.kind_ne_eof.symm]
  have hargs : .eof ∉ parenthesized as := eof_notMem_parenthesized fun a _ => a.eof_notMem
  have hbelow : .eof ∉ Derivation.tokens below := eof_notMem_option h
  simp [Field.tokens_mk, halias, n.kind_ne_eof.symm, hargs, eof_notMem_directives ds, hbelow]

mutual

theorem SelectionSet.eof_notMem : ∀ set : SelectionSet, .eof ∉ set.tokens
  | ⟨first, others⟩ => SelectionSet.eof_notMem_mk (by
      intro s hs
      rcases List.mem_cons.mp hs with heq | hs
      · exact heq ▸ first.eof_notMem
      · exact s.eof_notMem)

theorem Selection.eof_notMem : ∀ s : Selection, .eof ∉ s.tokens
  | .field f => Selection.eof_notMem_field f.eof_notMem
  | .spread n ds => Selection.eof_notMem_spread n ds
  | .inline condition ds set => Selection.eof_notMem_inline condition ds set.eof_notMem

theorem Field.eof_notMem : ∀ f : Field, .eof ∉ f.tokens
  | ⟨responseName, n, as, ds, none⟩ => Field.eof_notMem_mk responseName n as ds nofun
  | ⟨responseName, n, as, ds, some set⟩ => Field.eof_notMem_mk responseName n as ds (by
      rintro _ ⟨⟩
      exact set.eof_notMem)

end

theorem VariableDefinition.eof_notMem (d : VariableDefinition) : .eof ∉ tokens d := by
  have hvalue : .eof ∉ Derivation.tokens d.defaultValue :=
    eof_notMem_option fun v _ => by simp [Derivation.tokens, v.value.eof_notMem]
  have htype : .eof ∉ d.type.tokens := d.type.eof_notMem
  change .eof ∉ .punctuator .dollar :: d.name.kind :: .punctuator .colon :: d.type.tokens ++
    Derivation.tokens d.defaultValue
  simp [d.name.kind_ne_eof.symm, htype, hvalue]

theorem Definition.eof_notMem (d : Definition) : .eof ∉ tokens d := by
  rcases d with (set | ⟨o, n, vs, ds, set⟩) | ⟨n, condition, ds, set⟩
  · exact set.eof_notMem
  · have hname : .eof ∉ Derivation.tokens n :=
      eof_notMem_option fun m _ => by simp [Derivation.tokens, m.kind_ne_eof.symm]
    have hvariables : .eof ∉ parenthesized vs := eof_notMem_parenthesized fun v _ => v.eof_notMem
    change .eof ∉ .name o.keyword :: Derivation.tokens n ++ parenthesized vs ++
      Derivation.tokens ds ++ set.tokens
    simp [hname, hvariables, eof_notMem_directives ds, set.eof_notMem]
  · change .eof ∉ .name "fragment" :: n.name.kind :: [.name "on", condition.name.kind] ++
      Derivation.tokens ds ++ set.tokens
    simp [n.name.kind_ne_eof.symm, condition.name.kind_ne_eof.symm, eof_notMem_directives ds,
      set.eof_notMem]

end Derivation

end GraphQL

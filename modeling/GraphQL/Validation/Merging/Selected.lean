import GraphQL.Schema.Basic

/-!
# What a selection set selects

The fields of a selection set by their response keys, and the fragments that it
spreads, with inline fragments opened.  Selection sets are told apart by their places
in the document.
-/

namespace GraphQL

/-- The place of a selection, a selection set or a definition in a document: the
indices that lead to it, the last one first. -/
abbrev Place := List Nat

/-- A selected field, with the type it is selected of and its definition there, as far
as they are known. -/
structure SelectedField where
  parent : Option TypeDef
  field : Field
  place : Place
  definition : Option FieldDef

/-- The fields of a selection set in groups of one response key each. -/
abbrev SelectedGroups := List (String × List SelectedField)

/-- The selection set at a place. -/
structure Selected where
  place : Place
  groups : SelectedGroups
  spreads : List String

namespace Selected

/-- The type that an inline fragment selects of. -/
def conditionType (schema : Schema) (parent : Option TypeDef) (condition : Option NamedType) :
    Option TypeDef :=
  match condition with
  | some t => schema.type? t.name.text
  | none => parent

mutual

/-- The fields of the selections from the given index on. -/
def fieldsOf (schema : Schema) (parent : Option TypeDef) (place : Place) (index : Nat) :
    List Selection → List SelectedField
  | [] => []
  | selection :: rest =>
    fieldsOfSelection schema parent (index :: place) selection ++
      fieldsOf schema parent place (index + 1) rest

def fieldsOfSelection (schema : Schema) (parent : Option TypeDef) (place : Place) :
    Selection → List SelectedField
  | .field f =>
    [{ parent, field := f, place, definition := parent.bind (·.field? f.name.text) }]
  | .spread _ => []
  | .inline ⟨condition, _, ⟨selections, _⟩, _⟩ =>
    fieldsOf schema (conditionType schema parent condition) place 0 selections

end

mutual

/-- The fragments that are spread among selections, inline fragments included. -/
def spreadsOf : List Selection → List String
  | [] => []
  | selection :: rest => spreadsOfSelection selection ++ spreadsOf rest

def spreadsOfSelection : Selection → List String
  | .field _ => []
  | .spread s => [s.name.text]
  | .inline ⟨_, _, ⟨selections, _⟩, _⟩ => spreadsOf selections

end

/-- The fields by their response keys, in the order of their first occurrences. -/
def group (fields : List SelectedField) : SelectedGroups :=
  fields.foldl (fun groups f => Assoc.push groups f.field.responseKey f) []

/-- The fragments that a selection set spreads, each once. -/
def spreadsOfSet (set : SelectionSet) : List String := (spreadsOf set.selections).eraseDups

/-- What a selection set on a type selects. -/
def ofSet (schema : Schema) (parent : Option TypeDef) (place : Place) (set : SelectionSet) :
    Selected where
  place
  groups := group (fieldsOf schema parent place 0 set.selections)
  spreads := spreadsOfSet set

end Selected

end GraphQL

import GraphQL.Coercion.Literal

/-!
# Which fields are selected of an object

The fields that a selection set selects of an object, gathered from the set and from
the fragments it spreads, in groups by their keys in the response.  A fragment is
followed once; what is skipped or does not apply to the type of the object is left
out.  A spread follows a fragment that has not been followed, so no more of them can be
nested than there are fragments.
-/

namespace GraphQL

/-- Fields that give one member of a response together, by the key of the member. -/
abbrev FieldGroups := List (String × List Field)

/-- Fragments by their names. -/
abbrev FragmentTable := List (String × FragmentDefinition)

/-- The fragments of a document by name; of those that share a name the last one counts. -/
def Document.fragmentTable (document : Document) : FragmentTable :=
  Assoc.ofList (document.fragments.map fun fragment => (fragment.name.text, fragment))

namespace Grouping

/-- The boolean that a directive is given as its condition, if it is applied and the
condition has a value. -/
def condition? (schema : Schema) (bindings : Json.Members) (definition : DirectiveDef)
    (directives : List Directive) : Option Bool := do
  let directive ← directives.find? (·.name.text = definition.name)
  let given ← directive.argument? DirectiveDef.condition
  let expected ← Assoc.get? definition.arguments DirectiveDef.condition
  match Literal.coerce? schema (some bindings) given.value expected.type with
  | some (.bool b) => some b
  | _ => none

/-- Whether the directives on a selection let it take part. -/
def takesPart (schema : Schema) (bindings : Json.Members) (directives : List Directive) : Bool :=
  condition? schema bindings .skipIf directives ≠ some true &&
    condition? schema bindings .includeIf directives ≠ some false

/-- Whether a fragment with the type condition applies to objects of a type. -/
def applies (schema : Schema) (objectName : String) : Option NamedType → Bool
  | none => true
  | some condition =>
    match schema.type? condition.name.text with
    | none => false
    | some t => t.name = objectName || t.isAbstractType && schema.isPossibleType t objectName

/-- What selections are looked at for. -/
structure Target where
  schema : Schema
  /-- The values of the variables. -/
  bindings : Json.Members
  objectName : String

/-- The groups so far, and the fragments that have not been followed. -/
structure Gathered where
  groups : FieldGroups := []
  unfollowed : FragmentTable

/-- Puts a field into its group. -/
def add (field : Field) : StateM Gathered Unit :=
  modify fun gathered =>
    { gathered with groups := Assoc.push gathered.groups field.responseKey field }

/-- The fragment of a name, unless it is unknown or has been followed.  It counts as
followed from now on. -/
def claim? (name : String) : StateM Gathered (Option FragmentDefinition) := do
  let gathered ← get
  match Assoc.get? gathered.unfollowed name with
  | none => return none
  | some fragment =>
    set { gathered with unfollowed := gathered.unfollowed.filter (·.1 ≠ name) }
    return some fragment

variable (target : Target) (follow : SelectionSet → StateM Gathered Unit)

mutual

/-- Gathers the fields of a selection set, with `follow` for the sets of fragments. -/
def gather : SelectionSet → StateM Gathered Unit
  | ⟨selections, _⟩ => gatherEach selections

/-- Gathers the fields of some selections. -/
def gatherEach : List Selection → StateM Gathered Unit
  | [] => return
  | .field field :: rest => do
    if takesPart target.schema target.bindings field.directives then add field
    gatherEach rest
  | .inline ⟨typeCondition, directives, set, _⟩ :: rest => do
    if takesPart target.schema target.bindings directives &&
        applies target.schema target.objectName typeCondition then
      gather set
    gatherEach rest
  | .spread spread :: rest => do
    if takesPart target.schema target.bindings spread.directives then
      match ← claim? spread.name.text with
      | none => pure ()
      | some fragment =>
        if applies target.schema target.objectName (some fragment.typeCondition) then
          follow fragment.selectionSet
    gatherEach rest

end

/-- Gathers the fields of a selection set, following spreads through up to `depth`
fragments. -/
def gatherThrough (target : Target) : Nat → SelectionSet → StateM Gathered Unit
  | 0 => gather target fun _ => return
  | depth + 1 => gather target (gatherThrough target depth)

end Grouping

/-- The fields that selection sets select together of an object, by response key in the
order of the first use of each key. -/
def groupFields (schema : Schema) (bindings : Json.Members) (fragments : FragmentTable)
    (objectName : String) (sets : List SelectionSet) : FieldGroups :=
  let target : Grouping.Target := { schema, bindings, objectName }
  let gather (set : SelectionSet) := Grouping.gatherThrough target fragments.length set
  (sets.forM gather { unfollowed := fragments }).2.groups

end GraphQL

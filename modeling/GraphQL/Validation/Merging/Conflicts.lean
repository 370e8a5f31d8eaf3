import GraphQL.Validation.Merging.Plan
import GraphQL.Validation.Rule

/-!
# Fields that cannot be merged

Fields with one response key are merged into one.  That is possible if they select the
same field with the same arguments, unless they can never be of the same object, if
their types have the same shape, and if what they select in turn can be merged.

The search compares the fields of selection sets and fragments two by two.  Two
fragments are compared once only, unless they were first compared under objects that
differ, where less is asked of them.
-/

namespace GraphQL

namespace Merging

/-- The fragments of a document by their names, each with its place. -/
abbrev PlacedFragments := List (String × Place × FragmentDefinition)

/-- What the search looks at. -/
structure Setting where
  schema : Schema
  /-- Of fragments that share a name the first one counts. -/
  fragments : PlacedFragments

/-! ## Two fields -/

/-- Whether two rows of arguments have the same names with the same values, as they are
printed. -/
def sameArguments (given₁ given₂ : List Argument) : Bool :=
  given₁.length = given₂.length &&
    given₁.all fun a =>
      match given₂.find? (·.name.text = a.name.text) with
      | some b => a.value.text = b.value.text
      | none => false

/-- Whether values of two types can have different shapes: their lists and non-null
layers differ, or one is a leaf and the other is not the same. -/
def typesConflict (schema : Schema) : TypeRef → TypeRef → Bool
  | .list a nullable₁, .list b nullable₂ =>
    nullable₁ != nullable₂ || typesConflict schema a b
  | .named a nullable₁, .named b nullable₂ =>
    let isLeaf (name : String) : Bool := (schema.type? name).any (·.isLeafType)
    nullable₁ != nullable₂ || ((isLeaf a || isLeaf b) && a != b)
  | _, _ => true

/-- Whether no object can have both fields, as their parents are different object
types. -/
def parentsDiffer (f₁ f₂ : SelectedField) : Bool :=
  match f₁.parent, f₂.parent with
  | some a, some b => a.name != b.name && a.isObjectType && b.isObjectType
  | _, _ => false

/-- The reason against merging that two fields give themselves. -/
def ownReason? (schema : Schema) (exclusive : Bool) (f₁ f₂ : SelectedField) :
    Option ConflictReason :=
  let name₁ := f₁.field.name.text
  let name₂ := f₂.field.name.text
  if !exclusive && name₁ != name₂ then some (.differentFields name₁ name₂)
  else if !exclusive && !sameArguments f₁.field.arguments f₂.field.arguments then
    some .differingArguments
  else
    match f₁.definition, f₂.definition with
    | some d₁, some d₂ =>
      if typesConflict schema d₁.type d₂.type then some (.conflictingTypes d₁.type d₂.type)
      else none
    | _, _ => none

/-- The conflict of two fields because of conflicts below them, if there are any. -/
def ofSubfields (key : String) (f₁ f₂ : SelectedField) (conflicts : List Conflict) :
    List Conflict :=
  if conflicts.isEmpty then []
  else
    [{ responseKey := key
       reason := .subfields (conflicts.map fun c => ⟨c.responseKey, c.reason⟩)
       spans₁ := f₁.field.span :: conflicts.flatMap (·.spans₁)
       spans₂ := f₂.field.span :: conflicts.flatMap (·.spans₂) }]

/-! ## Rows of comparisons -/

/-- The comparisons of the fields of equal keys, one of each side. -/
def between (exclusive : Bool) (groups₁ groups₂ : SelectedGroups) : List Comparison :=
  groups₁.flatMap fun (key, fields₁) =>
    match Assoc.get? groups₂ key with
    | none => []
    | some fields₂ =>
      fields₁.flatMap fun f₁ => fields₂.map fun f₂ => .fields exclusive key f₁ f₂

/-- The comparisons of every two fields of a row. -/
def withinRow (key : String) : List SelectedField → List Comparison
  | [] => []
  | f :: rest => rest.map (.fields false key f ·) ++ withinRow key rest

/-- The comparisons of every two fields of equal keys. -/
def within (groups : SelectedGroups) : List Comparison :=
  groups.flatMap fun (key, fields) => withinRow key fields

/-- The comparisons of every two fragments, one of each side. -/
def betweenSpreads (exclusive : Bool) (names₁ names₂ : List String) : List Comparison :=
  names₁.flatMap fun name₁ => names₂.map fun name₂ => .fragments exclusive name₁ name₂

/-! ## Reached fragments -/

/-- The fragments under other names. -/
def PlacedFragments.without (fragments : PlacedFragments) (name : String) : PlacedFragments :=
  fragments.filter (·.1 ≠ name)

/-- How many names can still be followed through the fragments: each fragment itself, and the
spreads in its set. -/
def PlacedFragments.weight (fragments : PlacedFragments) : Nat :=
  fragments.foldr
    (fun entry total => 1 + (Selected.spreadsOfSet entry.2.2.selectionSet).length + total) 0

theorem PlacedFragments.weight_without_le (fragments : PlacedFragments) (name : String) :
    (fragments.without name).weight ≤ fragments.weight := by
  induction fragments with
  | nil => exact Nat.le_refl 0
  | cons entry rest ih =>
    simp only [without, weight, List.filter_cons, List.foldr_cons] at ih ⊢
    split
    · rw [List.foldr_cons]
      omega
    · omega

theorem PlacedFragments.weight_without_lt {fragments : PlacedFragments} {name : String}
    {place : Place} {fragment : FragmentDefinition}
    (h : Assoc.get? fragments name = some (place, fragment)) :
    (fragments.without name).weight + (Selected.spreadsOfSet fragment.selectionSet).length <
      fragments.weight := by
  induction fragments with
  | nil => cases h
  | cons entry rest ih =>
    have hle := weight_without_le rest name
    simp only [without, weight, List.filter_cons, List.foldr_cons, Assoc.get?,
      List.find?_cons] at ih h hle ⊢
    by_cases hname : entry.1 = name
    · simp only [hname, decide_true, Option.map_some, Option.some.injEq] at h
      simp only [hname, h, decide_not, decide_true, Bool.not_true, Bool.false_eq_true,
        if_false] at hle ⊢
      omega
    · simp only [hname, decide_false] at h
      have := ih h
      simp only [hname, decide_not, decide_false, Bool.not_false, if_true,
        List.foldr_cons] at this ⊢
      omega

/-- The fragments that some names reach, each followed by those that it reaches itself,
and the fragments that are left.  One that has been reached is taken out of those that
are left.  The selection set at the place `home` is not gone through. -/
def reach (home : Place) (left : PlacedFragments) :
    List String → PlacedFragments × PlacedFragments
  | [] => ([], left)
  | name :: rest =>
    match _h : Assoc.get? left name with
    | none => reach home left rest
    | some (place, fragment) =>
      if place = home then reach home (left.without name) rest
      else
        let (reached, left) :=
          reach home (left.without name) (Selected.spreadsOfSet fragment.selectionSet ++ rest)
        ((name, place, fragment) :: reached, left)
termination_by names => left.weight + names.length
decreasing_by
  · simp
  · have := left.weight_without_le name
    simp only [List.length_cons]
    omega
  · have := PlacedFragments.weight_without_lt _h
    simp only [List.length_append, List.length_cons]
    omega

/-! ## Plans -/

section

variable (s : Setting)

/-- What a selection set selects, of the type that it was first looked at with. -/
def selected (parent : Option TypeDef) (place : Place) (set : SelectionSet) : Plan Selected :=
  .look place parent fun known => .done (.ofSet s.schema known place set)

/-- What a fragment selects. -/
def selectedOfFragment (place : Place) (fragment : FragmentDefinition) : Plan Selected :=
  selected s (s.schema.type? fragment.typeCondition.name.text) place fragment.selectionSet

/-- Compares a selection set with fragments in turn.  Their conflicts come after those
that were `found`. -/
def againstEach (exclusive : Bool) (set : Selected) :
    PlacedFragments → (found : List Conflict) → Plan (List Conflict)
  | [], found => return found
  | (_, place, fragment) :: rest, found => do
    let other ← selectedOfFragment s place fragment
    let more ← Plan.all (between exclusive set.groups other.groups)
    againstEach exclusive set rest (found ++ more)

/-- Compares a selection set with the fragments that some names reach. -/
def against (exclusive : Bool) (set : Selected) (names : List String) : Plan (List Conflict) :=
  againstEach s exclusive set (reach set.place s.fragments names).1 []

/-- Compares two selection sets. -/
def betweenSets (exclusive : Bool) (set₁ set₂ : Selected) : Plan (List Conflict) := do
  let own ← Plan.all (between exclusive set₁.groups set₂.groups)
  let more₂ ← against s exclusive set₁ set₂.spreads
  let more₁ ← against s exclusive set₂ set₁.spreads
  let pairs ← Plan.all (betweenSpreads exclusive set₁.spreads set₂.spreads)
  return own ++ more₂ ++ more₁ ++ pairs

/-- The type that is selected of by what a field selects. -/
def subfieldParent (f : SelectedField) : Option TypeDef :=
  f.definition.bind fun d => s.schema.namedType? d.type

/-- Compares two fields, and what they select. -/
def compareFields (exclusive : Bool) (key : String) (f₁ f₂ : SelectedField) :
    Plan (List Conflict) :=
  let exclusive := exclusive || parentsDiffer f₁ f₂
  match ownReason? s.schema exclusive f₁ f₂ with
  | some reason =>
    return [{ responseKey := key, reason, spans₁ := [f₁.field.span], spans₂ := [f₂.field.span] }]
  | none =>
    match f₁.field.selectionSet, f₂.field.selectionSet with
    | some set₁, some set₂ => do
      let selected₁ ← selected s (subfieldParent s f₁) f₁.place set₁
      let selected₂ ← selected s (subfieldParent s f₂) f₂.place set₂
      let conflicts ← betweenSets s exclusive selected₁ selected₂
      return ofSubfields key f₁ f₂ conflicts
    | _, _ => return []

/-- Compares two fragments, and each with those that the other one reaches. -/
def compareFragments (exclusive : Bool) (name₁ name₂ : String) : Plan (List Conflict) :=
  .claim exclusive name₁ name₂ fun isNew =>
    if isNew then
      match Assoc.get? s.fragments name₁, Assoc.get? s.fragments name₂ with
      | some (place₁, fragment₁), some (place₂, fragment₂) => do
        let selected₁ ← selectedOfFragment s place₁ fragment₁
        let selected₂ ← selectedOfFragment s place₂ fragment₂
        let own ← Plan.all (between exclusive selected₁.groups selected₂.groups)
        let more ← Plan.all (
          betweenSpreads exclusive [name₁] selected₂.spreads ++
            betweenSpreads exclusive selected₁.spreads [name₂])
        return own ++ more
      | _, _ => return []
    else return []

/-- What is done for a comparison. -/
def plan : Comparison → Plan (List Conflict)
  | .fields exclusive key f₁ f₂ => compareFields s exclusive key f₁ f₂
  | .fragments exclusive name₁ name₂ => compareFragments s exclusive name₁ name₂

/-- Compares a selection set with the fragments that it spreads in turn, and each of them
with the later ones.  The conflicts come after those that were `found`. -/
def withinSpreads (set : Selected) :
    (left : PlacedFragments) → List String → (found : List Conflict) → Plan (List Conflict)
  | _, [], found => return found
  | left, name :: rest, found => do
    let (reached, left) := reach set.place left [name]
    let found ← againstEach s false set reached found
    let pairs ← Plan.all (betweenSpreads false [name] rest)
    withinSpreads set left rest (found ++ pairs)

/-- The conflicts of one selection set. -/
def withinSet (set : Selected) : Plan (List Conflict) := do
  let own ← Plan.all (within set.groups)
  withinSpreads s set s.fragments set.spreads own

/-! ## The whole document -/

/-- A selection set that is checked, with the type it selects of. -/
structure CheckedSet where
  parent : Option TypeDef
  place : Place
  set : SelectionSet

/-- The type that the set of a field selects of. -/
def fieldSetParent (parent : Option TypeDef) (name : String) : Option TypeDef :=
  let type? := (parent.bind fun t => s.schema.fieldDef? t name).bind fun d =>
    s.schema.namedType? d.type
  type?.filter (·.isCompositeType)

/-- The type that the set of an inline fragment selects of. -/
def inlineSetParent (parent : Option TypeDef) (condition : Option NamedType) : Option TypeDef :=
  (Selected.conditionType s.schema parent condition).filter (·.isCompositeType)

mutual

/-- A selection set, and then the sets nested in it. -/
def setsOf (parent : Option TypeDef) (place : Place) : SelectionSet → List CheckedSet
  | ⟨selections, span⟩ =>
    { parent, place, set := ⟨selections, span⟩ } :: setsOfEach parent place 0 selections

/-- The sets nested in selections, the first of which has the given index. -/
def setsOfEach (parent : Option TypeDef) (place : Place) (index : Nat) :
    List Selection → List CheckedSet
  | [] => []
  | selection :: rest =>
    setsOfSelection parent (index :: place) selection ++
      setsOfEach parent place (index + 1) rest

def setsOfSelection (parent : Option TypeDef) (place : Place) : Selection → List CheckedSet
  | .field ⟨_, name, _, _, some set, _⟩ => setsOf (fieldSetParent s parent name.text) place set
  | .inline ⟨condition, _, set, _⟩ => setsOf (inlineSetParent s parent condition) place set
  | _ => []

end

/-- The selection set of a definition, with the type it selects of. -/
def rootOf? : Definition → Option (Option TypeDef × SelectionSet)
  | .operation d =>
    some ((s.schema.rootType? d.operation).bind (s.schema.type? ·.name), d.selectionSet)
  | .fragment d =>
    some ((s.schema.type? d.typeCondition.name.text).filter (·.isCompositeType), d.selectionSet)
  | _ => none

/-- All selection sets of a document. -/
def checkedSets (document : Document) : List CheckedSet :=
  document.definitions.zipIdx.flatMap fun (definition, index) =>
    match rootOf? s definition with
    | some (parent, set) => setsOf s parent [index] set
    | none => []

/-- The conflicts of some selection sets. -/
def checkEach : List CheckedSet → Plan (List Conflict)
  | [] => return []
  | checked :: rest => do
    let conflicts ← withinSet s (← selected s checked.parent checked.place checked.set)
    return conflicts ++ (← checkEach rest)

end

/-- The fragments of a document by their names, with their places. -/
def placedFragments (document : Document) : PlacedFragments :=
  document.definitions.zipIdx.filterMap fun (definition, index) =>
    match definition with
    | .fragment d => some (d.name.text, [index], d)
    | _ => none

/-- The conflict as an error. -/
def Conflict.toError (c : Conflict) : ValidationError :=
  ⟨.fieldConflict c.responseKey c.reason, c.spans₁ ++ c.spans₂⟩

/-- What the search of a document looks at. -/
def Setting.ofDocument (schema : Schema) (document : Document) : Setting where
  schema
  fragments := placedFragments document

/-- What is done to search a document. -/
def documentPlan (schema : Schema) (document : Document) : Plan (List Conflict) :=
  let s : Setting := .ofDocument schema document
  checkEach s (checkedSets s document)

/-- The errors of the fields of a document that cannot be merged.  There is no result if
the search does not come to an end. -/
def search? (schema : Schema) (document : Document) : Option (List ValidationError) :=
  ((documentPlan schema document).run (plan (.ofDocument schema document)) {}).map
    fun (conflicts, _) => conflicts.map (·.toError)

end Merging

/-- Fields of one response key can be merged. -/
def Rule.overlappingFieldsCanBeMerged : Rule where
  name := "OverlappingFieldsCanBeMerged"
  survey? := Merging.search?
  enter _ node := do
    match node with
    | .document _ => return .andStop (← get).surveyed
    | _ => return .proceed

end GraphQL

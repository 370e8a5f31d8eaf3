import GraphQL.Schema.Subtype
import GraphQL.Validation.Queries
import GraphQL.Validation.Rule

/-!
# Rules about fragments
-/

namespace GraphQL

namespace Rule

/-- Fragments have different names. -/
def uniqueFragmentNames : Rule where
  name := "UniqueFragmentNames"
  enter _ node := do
    match node with
    | .document _ =>
      RuleMemory.forgetNames
      return .proceed
    | .definition (.fragment d) =>
      return .andSkip (← RuleMemory.meetName .fragment d.name.text d.name.span d.name.span)
    | .definition (.operation _) => return .skip
    | _ => return .proceed

/-- Every fragment that is spread is defined. -/
def knownFragmentNames : Rule :=
  onEnter "KnownFragmentNames" fun scope node =>
    match node with
    | .selection (.spread s) =>
      if (scope.document.fragment? s.name.text).isSome then .proceed
      else .andProceed [⟨.unknownFragment s.name.text, [s.name.span]⟩]
    | _ => .proceed

/-- The errors of fragments that no operation reaches. -/
def unusedFragmentErrors (document : Document) : List ValidationError :=
  let used := (document.operations.flatMap document.referencedFragments).map (·.name.text)
  document.fragments.filterMap fun fragment =>
    let name := fragment.name.text
    if name ∈ used then none else some ⟨.unusedFragment name, [fragment.span]⟩

/-- Every fragment is reached by an operation. -/
def noUnusedFragments : Rule where
  name := "NoUnusedFragments"
  enter _ node := return match node with
    | .document _ => .proceed
    | _ => .skip
  leave scope node := return match node with
    | .document _ => .andProceed (unusedFragmentErrors scope.document)
    | _ => .proceed

/-- The error of a fragment that no object of its parent can belong to. -/
def spreadErrors (schema : Schema) (fragment : Option String) (parent type : TypeDef)
    (span : Option Span) : List ValidationError :=
  if type.isCompositeType && !schema.overlap type parent then
    [⟨.impossibleSpread fragment parent.name type.name, [span]⟩]
  else []

/-- A fragment stands only where some object can belong to it and to its parent. -/
def possibleFragmentSpreads : Rule :=
  onEnter "PossibleFragmentSpreads" fun scope node =>
    let schema := scope.schema
    match node with
    | .selection (.inline f) =>
      match scope.types.namedOutputType? schema, scope.types.parentType? with
      | some type, some parent => .andProceed (spreadErrors schema none parent type f.span)
      | _, _ => .proceed
    | .selection (.spread s) =>
      let type? := (scope.document.fragment? s.name.text).bind fun fragment =>
        schema.type? fragment.typeCondition.name.text
      match type?, scope.types.parentType? with
      | some type, some parent =>
        .andProceed (spreadErrors schema (some s.name.text) parent type s.span)
      | _, _ => .proceed
    | _ => .proceed

end Rule

/-! ## Cycles of spreads -/

namespace FragmentCycles

/-- The search so far: the names of the fragments it has come to, and the cycles. -/
structure Search where
  visited : List String := []
  errors : List ValidationError := []

/-- The error of a spread that closes a cycle; `path` are the spreads in between. -/
def cycleError (path : List FragmentSpread) (closing : FragmentSpread) : ValidationError :=
  ⟨.fragmentCycle closing.name.text (path.map (·.name.text)),
    (path.map (·.span)) ++ [closing.span]⟩

/-- Searches along spreads in turn, with `search` for a fragment that is not on the way.  `path`
are the spreads that led to them, and `openAt` the fragments on the way, each with the number of
spreads before it. -/
def alongSpreads (document : Document)
    (search : List FragmentSpread → List (String × Nat) → FragmentDefinition → Search → Search)
    (path : List FragmentSpread) (openAt : List (String × Nat)) :
    List FragmentSpread → Search → Search
  | [], found => found
  | spread :: rest, found =>
    let found :=
      match Assoc.get? openAt spread.name.text with
      | some start =>
        { found with errors := found.errors ++ [cycleError (path.drop start) spread] }
      | none =>
        match document.fragment? spread.name.text with
        | some fragment => search (path ++ [spread]) openAt fragment found
        | none => found
    alongSpreads document search path openAt rest found

/-- Searches from a fragment on.  Every step down comes to a new name, so no way is longer than
`depth` if that is the number of names left. -/
def fromFragment (document : Document) : (depth : Nat) → (path : List FragmentSpread) →
    (openAt : List (String × Nat)) → FragmentDefinition → Search → Search
  | 0, _, _, _, found => found
  | depth + 1, path, openAt, fragment, found =>
    let name := fragment.name.text
    if name ∈ found.visited then found
    else
      alongSpreads document (fromFragment document depth) path ((name, path.length) :: openAt)
        fragment.selectionSet.spreads { found with visited := name :: found.visited }

/-- The cycles of spreads, each once. -/
def errors (document : Document) : List ValidationError :=
  (document.fragments.foldl
    (fun search fragment =>
      fromFragment document (document.fragments.length + 1) [] [] fragment search)
    {}).errors

end FragmentCycles

/-- No fragment spreads itself, also not through others. -/
def Rule.noFragmentCycles : Rule :=
  onEnter "NoFragmentCycles" fun scope node =>
    match node with
    | .document _ => .andStop (FragmentCycles.errors scope.document)
    | _ => .proceed

end GraphQL

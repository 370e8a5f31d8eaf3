import GraphQL.Validation.Merging.Conflicts
import GraphQL.Validation.Rules.Arguments
import GraphQL.Validation.Rules.Directives
import GraphQL.Validation.Rules.Fields
import GraphQL.Validation.Rules.Fragments
import GraphQL.Validation.Rules.Operations
import GraphQL.Validation.Rules.Types
import GraphQL.Validation.Rules.Variables

/-!
# Validation

Checks a document against a schema with a row of rules, in one walk.  The errors come
in the order in which the walk finds them, and at one node in the order of the rules.
-/

namespace GraphQL

/-- The rules that every document is checked by, in their order. -/
def Rule.all : List Rule :=
  [executableDefinitions, uniqueOperationNames, loneAnonymousOperation, knownTypeNames,
    fragmentsOnCompositeTypes, variablesAreInputTypes, scalarLeafs, fieldsOnCorrectType,
    uniqueFragmentNames, knownFragmentNames, noUnusedFragments, possibleFragmentSpreads,
    noFragmentCycles, uniqueVariableNames, noUndefinedVariables, noUnusedVariables,
    knownDirectives, knownArgumentNames, uniqueArgumentNames, argumentsOfCorrectType,
    providedNonNullArguments, defaultValuesOfCorrectType, variablesInAllowedPosition,
    overlappingFieldsCanBeMerged, uniqueInputFieldNames]

namespace Document

/-- The rule as a visitor of the document, with what it keeps in mind at the start of the
walk. -/
def lane? (schema : Schema) (document : Document) (rule : Rule) :
    Option (Visitor (Rule.Shared × RuleMemory) × RuleMemory) := do
  let surveyed ← rule.survey? schema document
  return (rule.visitor schema document, { surveyed })

/-- What the rules find in the document, if all of them come to an end. -/
def errorsOf? (schema : Schema) (document : Document) (rules : List Rule) :
    Option (List ValidationError) := do
  let visitors ← rules.mapM (document.lane? schema)
  let start : Parallel.State Rule.Shared RuleMemory := .start ({}, []) visitors
  return (visit (Visitor.typed schema .parallel) (.document document) start).2.shared.2

/-- An error of the document as a response shows it. -/
def respond (document : Document) (e : ValidationError) : ResponseError :=
  { e.toResponse with sourceName := document.source.map (·.name) }

/-- What is wrong with the document, as a response shows it.  There is no result if the
rules do not come to an end. -/
def validate? (schema : Schema) (document : Document) (rules : List Rule := Rule.all) :
    Option (List ResponseError) :=
  (document.errorsOf? schema rules).map (·.map document.respond)

end Document

end GraphQL

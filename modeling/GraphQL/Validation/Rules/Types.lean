import GraphQL.Validation.Rule

/-!
# Rules about the types that a document names
-/

namespace GraphQL.Rule

/-- The types of variables and the types that fragments are about are in the schema. -/
def knownTypeNames : Rule :=
  onEnter "KnownTypeNames" fun scope node =>
    match node with
    | .type (.named t) =>
      let name := t.name.text
      if (scope.schema.type? name).isSome then .proceed
      else
        let suggestions := Suggestion.close name (scope.schema.types.map (·.1))
        .andProceed [⟨.unknownType name suggestions, [t.span]⟩]
    | .definition d => if d.isExecutable then .proceed else .skip
    | _ => .proceed

/-- The error of a fragment that is about a known type without fields. -/
def conditionErrors (schema : Schema) (fragment : Option String) (condition : NamedType) :
    List ValidationError :=
  match schema.type? condition.name.text with
  | some t =>
    if t.isCompositeType then []
    else [⟨.conditionNotComposite fragment condition.name.text, [condition.span]⟩]
  | none => []

/-- Fragments are about objects, interfaces and unions. -/
def fragmentsOnCompositeTypes : Rule :=
  onEnter "FragmentsOnCompositeTypes" fun scope node =>
    match node with
    | .selection (.inline f) =>
      .andProceed (f.typeCondition.toList.flatMap (conditionErrors scope.schema none))
    | .definition (.fragment d) =>
      .andProceed (conditionErrors scope.schema (some d.name.text) d.typeCondition)
    | _ => .proceed

/-- Variables have input types. -/
def variablesAreInputTypes : Rule :=
  onEnter "VariablesAreInputTypes" fun scope node =>
    match node with
    | .variableDefinition d =>
      if (scope.schema.resolve? d.type).any fun type => !scope.schema.isInputRef type then
        .andSkip [⟨.variableNotInput d.var.name.text d.type.text, [d.type.span]⟩]
      else .skip
    | _ => .proceed

end GraphQL.Rule

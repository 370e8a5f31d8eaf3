import GraphQL.Validation.Rule

/-!
# Rules about operations
-/

namespace GraphQL

namespace Definition

/-- What a definition of a type system defines; none for what can be executed. -/
def typeSystemName? : Definition → Option String
  | .operation _ | .fragment _ => none
  | .schema _ => some "schema"
  | .scalarType d => some d.name.text
  | .objectType d => some d.name.text
  | .interfaceType d => some d.name.text
  | .unionType d => some d.name.text
  | .enumType d => some d.name.text
  | .inputObjectType d => some d.name.text
  | .typeExtension d => some d.definition.name.text
  | .directive d => some d.name.text

end Definition

namespace Rule

/-- A document that is executed holds only operations and fragments. -/
def executableDefinitions : Rule :=
  onEnter "ExecutableDefinitions" fun _ node =>
    match node with
    | .document d =>
      .andStop (d.definitions.filterMap fun definition =>
        definition.typeSystemName?.map fun name => ⟨.notExecutable name, [definition.span]⟩)
    | _ => .proceed

/-- Operations have different names. -/
def uniqueOperationNames : Rule where
  name := "UniqueOperationNames"
  enter _ node := do
    match node with
    | .document _ =>
      RuleMemory.forgetNames
      return .proceed
    | .definition (.operation d) =>
      match d.name with
      | some name =>
        return .andSkip (← RuleMemory.meetName .operation name.text name.span name.span)
      | none => return .skip
    | .definition (.fragment _) => return .skip
    | _ => return .proceed

/-- An operation without a name is the only operation. -/
def loneAnonymousOperation : Rule :=
  onEnter "LoneAnonymousOperation" fun scope node =>
    match node with
    | .definition (.operation d) =>
      if d.name.isNone && 1 < scope.document.operations.length then
        .andSkip [⟨.anonymousNotAlone, [d.span]⟩]
      else .skip
    | .definition (.fragment _) => .skip
    | _ => .proceed

end Rule

end GraphQL

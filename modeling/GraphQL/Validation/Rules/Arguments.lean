import GraphQL.Validation.Rule

/-!
# Rules about arguments and the fields of input objects
-/

namespace GraphQL.Rule

/-- The error of an argument that is not known to the field or the directive it is given
to.  It is none if that is not known itself. -/
def unknownArgumentErrors (types : TypeContext) (inDirective : Bool) (argument : Argument) :
    List ValidationError :=
  let name := argument.name.text
  let error (owner : ArgumentOwner) (definitions : List (String × InputDef)) : ValidationError :=
    ⟨.unknownArgument name owner (Suggestion.close name (definitions.map (·.1))),
      [argument.span]⟩
  if inDirective then
    match types.directive? with
    | some d => [error (.directive d.name) d.arguments]
    | none => []
  else
    match types.field?, types.parentType? with
    | some field, some parent => [error (.field field.name parent.name) field.arguments]
    | _, _ => []

/-- Every argument is known to the field or the directive it is given to. -/
def knownArgumentNames : Rule where
  name := "KnownArgumentNames"
  enter scope node := do
    match node with
    | .directive _ =>
      modify fun memory => { memory with inDirective := true }
      return .proceed
    | .argument a =>
      if scope.types.argument?.isSome then return .skip
      return .andSkip (unknownArgumentErrors scope.types (← get).inDirective a)
    | _ => return .proceed
  leave _ node := do
    match node with
    | .directive _ => modify fun memory => { memory with inDirective := false }
    | _ => pure ()
    return .proceed

/-- No argument is given twice to one field or directive. -/
def uniqueArgumentNames : Rule where
  name := "UniqueArgumentNames"
  enter _ node := do
    match node with
    | .selection (.field _) | .directive _ =>
      RuleMemory.forgetNames
      return .proceed
    | .argument a =>
      return .andSkip (← RuleMemory.meetName .argument a.name.text a.name.span a.name.span)
    | _ => return .proceed

/-- Literals are values of the types of their arguments. -/
def argumentsOfCorrectType : Rule :=
  onEnter "ArgumentsOfCorrectType" fun scope node =>
    match node with
    | .argument a =>
      match scope.types.argument? with
      | none => .skip
      | some definition =>
        match Literal.problems scope.schema a.value definition.type with
        | [] => .skip
        | problems =>
          .andSkip [⟨.invalidArgument a.name.text a.value problems, [a.value.span]⟩]
    | _ => .proceed

/-- The required arguments that are not given. -/
def missingArguments (definitions : List (String × InputDef)) (given : List Argument) :
    List InputDef :=
  (definitions.map (·.2)).filter fun d =>
    d.isRequired && !given.any (·.name.text = d.name)

/-- Every argument without null and without a default is given. -/
def providedNonNullArguments : Rule where
  name := "ProvidedNonNullArguments"
  leave scope node := return match node with
    | .selection (.field f) =>
      let definitions := (scope.types.field?.map FieldDef.arguments).getD []
      .andProceed ((missingArguments definitions f.arguments).map fun d =>
        ⟨.missingFieldArgument f.name.text d.name d.type, [f.span]⟩)
    | .directive directive =>
      let name := directive.name.text
      let definitions := ((scope.schema.directive? name).map DirectiveDef.arguments).getD []
      .andProceed ((missingArguments definitions directive.arguments).map fun d =>
        ⟨.missingDirectiveArgument name d.name d.type, [directive.span]⟩)
    | _ => .proceed

/-- No field is given twice in one object. -/
def uniqueInputFieldNames : Rule where
  name := "UniqueInputFieldNames"
  enter _ node := do
    match node with
    | .value (.object _ _) =>
      RuleMemory.openNames
      return .proceed
    | .objectField f =>
      return .andProceed
        (← RuleMemory.meetName .inputField f.name.text f.name.span f.name.span)
    | _ => return .proceed
  leave _ node := do
    match node with
    | .value (.object _ _) => RuleMemory.closeNames
    | _ => pure ()
    return .proceed

end GraphQL.Rule

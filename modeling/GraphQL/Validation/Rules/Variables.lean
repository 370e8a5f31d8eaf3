import GraphQL.Schema.Subtype
import GraphQL.Validation.Queries
import GraphQL.Validation.Rule

/-!
# Rules about variables
-/

namespace GraphQL.Rule

/-- The variables of an operation have different names. -/
def uniqueVariableNames : Rule where
  name := "UniqueVariableNames"
  enter _ node := do
    match node with
    | .definition (.operation _) =>
      RuleMemory.forgetNames
      return .proceed
    | .variableDefinition d =>
      return .andSkip
        (← RuleMemory.meetName .variableUse d.var.name.text d.var.span d.var.span)
    | .selectionSet _ | .definition (.fragment _) => return .skip
    | _ => return .proceed

/-- A rule that looks at each operation as a whole. -/
def onOperation (name : String)
    (check : Schema → Document → OperationDefinition → List ValidationError) : Rule :=
  onEnter name fun scope node =>
    match node with
    | .document _ => .proceed
    | .definition (.operation d) => .andSkip (check scope.schema scope.document d)
    | _ => .skip

/-- Every variable that an operation uses, also in the fragments it reaches, is one of
its own. -/
def noUndefinedVariables : Rule :=
  onOperation "NoUndefinedVariables" fun schema document operation =>
    let defined := operation.variableDefinitions.map (·.var.name.text)
    (document.operationUsages schema operation).filterMap fun usage =>
      if usage.name ∈ defined then none
      else
        some ⟨.undefinedVariable usage.name operation.nameText?, [usage.span, operation.span]⟩

/-- Every variable of an operation is used. -/
def noUnusedVariables : Rule :=
  onOperation "NoUnusedVariables" fun schema document operation =>
    let used := (document.operationUsages schema operation).map (·.name)
    operation.variableDefinitions.filterMap fun d =>
      let name := d.var.name.text
      if name ∈ used then none
      else some ⟨.unusedVariable name operation.nameText?, [d.span]⟩

/-- The errors of the default of a variable.  A variable without null has none. -/
def defaultErrors (schema : Schema) (name : String) (type : TypeRef) (literal : Value) :
    List ValidationError :=
  if type.isNonNull then [⟨.defaultOfRequired name type, [literal.span]⟩]
  else
    match Literal.problems schema literal type with
    | [] => []
    | problems => [⟨.invalidDefault name type literal problems, [literal.span]⟩]

/-- The defaults of variables are values of their types. -/
def defaultValuesOfCorrectType : Rule :=
  onEnter "DefaultValuesOfCorrectType" fun scope node =>
    match node with
    | .variableDefinition d =>
      match d.defaultValue, scope.schema.resolve? d.type with
      | some literal, some type =>
        .andSkip (defaultErrors scope.schema d.var.name.text type literal)
      | _, _ => .skip
    | .selectionSet _ | .definition (.fragment _) => .skip
    | _ => .proceed

/-- The type of a variable as far as its uses go: with a default it is never null. -/
def effectiveType (type : TypeRef) (hasDefault : Bool) : TypeRef :=
  if hasDefault then type.withNullable false else type

/-- The error of a use of a variable, if its type does not fit there. -/
def usageErrors (schema : Schema) (d : VariableDefinition) (usage : VariableUsage) :
    List ValidationError :=
  match usage.inputType, schema.resolve? d.type with
  | some expected, some type =>
    if schema.isSubtype (effectiveType type d.defaultValue.isSome) expected then []
    else [⟨.variableMisplaced usage.name type expected, [d.span, usage.span]⟩]
  | _, _ => []

/-- Variables are used only where their types fit.  Of two definitions of one name the
later one counts. -/
def variablesInAllowedPosition : Rule :=
  onOperation "VariablesInAllowedPosition" fun schema document operation =>
    (document.operationUsages schema operation).flatMap fun usage =>
      match operation.variableDefinitions.reverse.find? (·.var.name.text = usage.name) with
      | some d => usageErrors schema d usage
      | none => []

end GraphQL.Rule

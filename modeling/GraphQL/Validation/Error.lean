import GraphQL.Coercion.LiteralFaults
import GraphQL.Response.Error
import GraphQL.Text.Suggestion

/-!
# What validation finds

The ways in which a document can be at odds with a schema or with itself, and how
messages put them.
-/

namespace GraphQL

/-- What a name is given to. -/
inductive NamedPart where
  | operation | fragment | variableUse | argument | inputField
  deriving DecidableEq, Repr

/-- What takes arguments. -/
inductive ArgumentOwner where
  | field (name parent : String)
  | directive (name : String)
  deriving DecidableEq, Repr

mutual

/-- Why two fields cannot be merged. -/
inductive ConflictReason where
  | differentFields (name₁ name₂ : String)
  | differingArguments
  | conflictingTypes (type₁ type₂ : TypeRef)
  /-- Fields that are selected of them cannot be merged. -/
  | subfields (conflicts : List SubfieldConflict)

/-- A conflict below two fields, under its response key. -/
structure SubfieldConflict where
  responseKey : String
  reason : ConflictReason

end

/-- A fault of a document. -/
inductive ValidationFault where
  | notExecutable (definition : String)
  | duplicateName (part : NamedPart) (name : String)
  | anonymousNotAlone
  | unknownType (name : String) (suggestions : List String)
  /-- A fragment, which may have a name, is about a type without fields. -/
  | conditionNotComposite (fragment : Option String) (type : String)
  | variableNotInput (name type : String)
  | leafWithSelection (field : String) (type : TypeRef)
  | compositeWithoutSelection (field : String) (type : TypeRef)
  /-- A field that its parent does not have; the types within the parent that have it;
  and fields of similar names. -/
  | unknownField (field parent : String) (types fields : List String)
  | unknownFragment (name : String)
  | unusedFragment (name : String)
  | impossibleSpread (fragment : Option String) (parent type : String)
  | fragmentCycle (name : String) (via : List String)
  | undefinedVariable (name : String) (operation : Option String)
  | unusedVariable (name : String) (operation : Option String)
  | unknownDirective (name : String)
  | misplacedDirective (name : String) (location : Option DirectiveLocation)
  | unknownArgument (name : String) (owner : ArgumentOwner) (suggestions : List String)
  | invalidArgument (name : String) (literal : Value) (problems : List LiteralProblem)
  | missingFieldArgument (field argument : String) (type : TypeRef)
  | missingDirectiveArgument (directive argument : String) (type : TypeRef)
  | defaultOfRequired (variableName : String) (type : TypeRef)
  | invalidDefault (variableName : String) (type : TypeRef) (literal : Value)
      (problems : List LiteralProblem)
  | variableMisplaced (name : String) (type expected : TypeRef)
  | fieldConflict (responseKey : String) (reason : ConflictReason)

/-- A fault, with the places in the document where it shows. -/
structure ValidationError where
  fault : ValidationFault
  spans : List (Option Span)

/-! ## Messages -/

namespace NamedPart

def text : NamedPart → String
  | operation => "operation"
  | fragment => "fragment"
  | variableUse => "variable"
  | argument => "argument"
  | inputField => "input field"

end NamedPart

mutual

/-- The reason in words. -/
def ConflictReason.text : ConflictReason → String
  | .differentFields name₁ name₂ => name₁ ++ " and " ++ name₂ ++ " are different fields"
  | .differingArguments => "they have differing arguments"
  | .conflictingTypes type₁ type₂ =>
    "they return conflicting types " ++ type₁.text ++ " and " ++ type₂.text
  | .subfields conflicts => " and ".intercalate (subfieldTexts conflicts)

def subfieldTexts : List SubfieldConflict → List String
  | [] => []
  | ⟨key, reason⟩ :: rest =>
    ("subfields \"" ++ key ++ "\" conflict because " ++ reason.text) :: subfieldTexts rest

end

namespace ValidationFault

/-- The question whether one of the options was meant, after another sentence. -/
def didYouMean (options : List String) : String :=
  if options.isEmpty then "" else " Did you mean " ++ Suggestion.quoted options ++ "?"

/-- The problems of a literal, on lines of their own. -/
def problemLines (problems : List LiteralProblem) : String :=
  "\n".intercalate (problems.map (·.message))

private def inQuotes (s : String) : String := "\"" ++ s ++ "\""

private def variableText (name : String) : String := "Variable \"$" ++ name ++ "\""

def message : ValidationFault → String
  | notExecutable definition => "The " ++ definition ++ " definition is not executable."
  | duplicateName part name =>
    "There can be only one " ++ part.text ++ " named " ++ inQuotes name ++ "."
  | anonymousNotAlone => "This anonymous operation must be the only defined operation."
  | unknownType name suggestions =>
    "Unknown type " ++ inQuotes name ++ "." ++ didYouMean suggestions
  | conditionNotComposite none type =>
    "Fragment cannot condition on non composite type " ++ inQuotes type ++ "."
  | conditionNotComposite (some fragment) type =>
    "Fragment " ++ inQuotes fragment ++ " cannot condition on non composite type " ++
      inQuotes type ++ "."
  | variableNotInput name type =>
    variableText name ++ " cannot be non-input type " ++ inQuotes type ++ "."
  | leafWithSelection field type =>
    "Field " ++ inQuotes field ++ " must not have a selection since type " ++ inQuotes type.text ++
      " has no subfields."
  | compositeWithoutSelection field type =>
    "Field " ++ inQuotes field ++ " of type " ++ inQuotes type.text ++
      " must have a selection of subfields. Did you mean \"" ++ field ++ " \x7b ... \x7d\"?"
  | unknownField field parent types fields =>
    "Cannot query field " ++ inQuotes field ++ " on type " ++ inQuotes parent ++ "." ++
      if types.isEmpty then didYouMean fields
      else " Did you mean to use an inline fragment on " ++ Suggestion.quoted types ++ "?"
  | unknownFragment name => "Unknown fragment " ++ inQuotes name ++ "."
  | unusedFragment name => "Fragment " ++ inQuotes name ++ " is never used."
  | impossibleSpread fragment parent type =>
    (match fragment with
      | some name => "Fragment " ++ inQuotes name
      | none => "Fragment") ++
    " cannot be spread here as objects of type " ++ inQuotes parent ++ " can never be of type " ++
      inQuotes type ++ "."
  | fragmentCycle name via =>
    "Cannot spread fragment " ++ inQuotes name ++ " within itself" ++
      if via.isEmpty then "." else " via " ++ ", ".intercalate via ++ "."
  | undefinedVariable name none => variableText name ++ " is not defined."
  | undefinedVariable name (some operation) =>
    variableText name ++ " is not defined by operation " ++ inQuotes operation ++ "."
  | unusedVariable name none => variableText name ++ " is never used."
  | unusedVariable name (some operation) =>
    variableText name ++ " is never used in operation " ++ inQuotes operation ++ "."
  | unknownDirective name => "Unknown directive " ++ inQuotes name ++ "."
  | misplacedDirective name none => "Directive " ++ inQuotes name ++ " may not be used here."
  | misplacedDirective name (some location) =>
    "Directive " ++ inQuotes name ++ " may not be used on " ++ location.text ++ "."
  | unknownArgument name (.directive directive) suggestions =>
    "Unknown argument " ++ inQuotes name ++ " on directive \"@" ++ directive ++ "\"." ++
      didYouMean suggestions
  | unknownArgument name (.field field parent) suggestions =>
    "Unknown argument " ++ inQuotes name ++ " on field " ++ inQuotes field ++ " of type " ++
      inQuotes parent ++ "." ++ didYouMean suggestions
  | invalidArgument name literal problems =>
    "Argument " ++ inQuotes name ++ " has invalid value " ++ literal.text ++ ".\n" ++
      problemLines problems
  | missingFieldArgument field argument type =>
    "Field " ++ inQuotes field ++ " argument " ++ inQuotes argument ++ " of type " ++
      inQuotes type.text ++ " is required but not provided."
  | missingDirectiveArgument directive argument type =>
    "Directive \"@" ++ directive ++ "\" argument " ++ inQuotes argument ++ " of type " ++
      inQuotes type.text ++ " is required but not provided."
  | defaultOfRequired name type =>
    variableText name ++ " of type " ++ inQuotes type.text ++
      " is required and will not use the default value. Perhaps you meant to use type " ++
      inQuotes type.nullableType.text ++ "."
  | invalidDefault name type literal problems =>
    variableText name ++ " of type " ++ inQuotes type.text ++ " has invalid default value " ++
      literal.text ++ ".\n" ++ problemLines problems
  | variableMisplaced name type expected =>
    variableText name ++ " of type " ++ inQuotes type.text ++
      " used in position expecting type " ++ inQuotes expected.text ++ "."
  | fieldConflict key reason =>
    "Fields " ++ inQuotes key ++ " conflict because " ++ reason.text ++
      ". Use different aliases on the fields to fetch both if this was intentional."

end ValidationFault

namespace ValidationError

/-- The error as a response shows it. -/
def toResponse (e : ValidationError) : ResponseError := .atSpans e.fault.message e.spans

end ValidationError

end GraphQL

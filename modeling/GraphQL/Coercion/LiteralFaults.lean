import GraphQL.Coercion.Leaf
import GraphQL.Document.Printer

/-!
# Checking literals

What is wrong with a literal where a type is expected.  Variables are not looked at.
-/

namespace GraphQL

/-- One step from a literal to a part of it. -/
inductive LiteralStep where
  | element (index : Nat)
  | field (name : String)
  deriving DecidableEq, Repr

/-- What can be wrong with a literal. -/
inductive LiteralFault where
  | nullNotAllowed (type : TypeRef)
  | notAnObject (type : String)
  | unknownField
  /-- A scalar or an enum does not take the literal; `found` is its text. -/
  | refused (type found : String) (reason : Option String)
  deriving DecidableEq, Repr

/-- A fault, and the part of the literal that it is about. -/
structure LiteralProblem where
  path : List LiteralStep
  fault : LiteralFault
  deriving DecidableEq, Repr

namespace LiteralStep

def text : LiteralStep → String
  | element index => "In element #" ++ toString index ++ ": "
  | field name => "In field \"" ++ name ++ "\": "

end LiteralStep

namespace LiteralFault

def message : LiteralFault → String
  | nullNotAllowed type => "Expected \"" ++ type.text ++ "\", found null."
  | notAnObject type => "Expected \"" ++ type ++ "\", found not an object."
  | unknownField => "Unknown field."
  | refused type found none => "Expected type \"" ++ type ++ "\", found " ++ found ++ "."
  | refused type found (some reason) =>
    "Expected type \"" ++ type ++ "\", found " ++ found ++ "; " ++ reason

end LiteralFault

namespace LiteralProblem

def message (problem : LiteralProblem) : String :=
  String.join (problem.path.map (·.text)) ++ problem.fault.message

/-- The problem as one of the literal that `step` leads away from. -/
def below (step : LiteralStep) (problem : LiteralProblem) : LiteralProblem :=
  { problem with path := step :: problem.path }

/-- A problem of the literal itself. -/
def here (fault : LiteralFault) : LiteralProblem := ⟨[], fault⟩

end LiteralProblem

namespace Literal

open LiteralProblem

/-- The problems of a literal of a scalar or an enum.  Only scalars of the host give
reasons. -/
def leafProblems (schema : Schema) (literal : Value) (typeName : String) : List LiteralProblem :=
  match schema.type? typeName with
  | none => []
  | some t =>
    match t.body with
    | .inputObject _ => [here (.notAnObject t.name)]
    | .enum d =>
      match d.ofLiteral t.name literal with
      | .ok _ => []
      | .error _ => [here (.refused t.name literal.text none)]
    | .scalar d =>
      match d.ofLiteral t.name literal with
      | .ok _ => []
      | .error reason =>
        let reason := if Scalar.isBuiltinName t.name then none else some reason
        [here (.refused t.name literal.text reason)]
    | _ => []

/-- The problem of a literal that is left out. -/
def omittedProblems (type : TypeRef) : List LiteralProblem :=
  if type.isNonNull then [here (.nullNotAllowed type)] else []

/-- The problems of the fields that an input object does not know, one for each name. -/
def unknownFieldProblems (fields : List (String × InputDef)) (given : List ObjectField) :
    List LiteralProblem :=
  (given.map (·.name.text)).eraseDups.filterMap fun name =>
    if Assoc.contains fields name then none else some ⟨[.field name], .unknownField⟩

mutual

/-- What is wrong with a literal where `type` is expected. -/
def problems (schema : Schema) : Value → TypeRef → List LiteralProblem
  | .var _, _ => []
  | .null _, type => omittedProblems type
  | .list items _, .list item _ => itemProblems schema 0 items item
  | .object fields span, type =>
    match schema.inputObject? type.innermostName with
    | some d =>
      let given := fieldProblems schema fields d.fields
      unknownFieldProblems d.fields fields ++
      d.fields.flatMap fun (name, field) =>
        ((Assoc.get? given name).getD (omittedProblems field.type)).map (below (.field name))
    | none => leafProblems schema (.object fields span) type.innermostName
  | literal, type => leafProblems schema literal type.innermostName

/-- What is wrong with the items of a list, the first of which has the given index. -/
def itemProblems (schema : Schema) (index : Nat) : List Value → TypeRef → List LiteralProblem
  | [], _ => []
  | item :: rest, type =>
    (problems schema item type).map (below (.element index)) ++
      itemProblems schema (index + 1) rest type

/-- What is wrong with the fields of an object, as far as the fields are known. -/
def fieldProblems (schema : Schema) :
    List ObjectField → List (String × InputDef) → List (String × List LiteralProblem)
  | [], _ => []
  | ⟨name, value, _⟩ :: rest, fields =>
    (name.text,
      match Assoc.get? fields name.text with
      | some field => problems schema value field.type
      | none => []) :: fieldProblems schema rest fields

end

end Literal

end GraphQL

import GraphQL.Execution.Basic
import GraphQL.Validation.Basic

/-!
# Requests

A request brings the text of a document, values for its variables and the name of an
operation.  It is answered in three stages, each of which can end it with errors: the text
is read, the document is checked, and the operation is executed.
-/

namespace GraphQL

/-- A request of a client. -/
structure Request where
  query : String
  variableValues : Option Json.Members := none
  operationName : Option String := none

namespace Request

/-! ## As JSON -/

private def text? : Json → Option String
  | .string s => some s
  | _ => none

private def optionalText? : Json → Option (Option String)
  | .null => some none
  | .string s => some (some s)
  | _ => none

private def optionalMembers? : Json → Option (Option Json.Members)
  | .null => some none
  | .object members => some (some members)
  | _ => none

/-- The request that the parts make, of which the last two may be null. -/
private def ofParts? (query variableValues operationName : Json) : Option Request := do
  return {
    query := ← text? query
    variableValues := ← optionalMembers? variableValues
    operationName := ← optionalText? operationName }

/-- The request that is written as an object, or as an array of its parts.  The document
must be there; other members of an object are left alone. -/
def ofJson? : Json → Option Request
  | .object members => do
    let part (name : String) := (Assoc.get? members name).getD .null
    ofParts? (← Assoc.get? members "query") (part "variables") (part "operationName")
  | .array [query] => ofParts? query .null .null
  | .array [query, variableValues] => ofParts? query variableValues .null
  | .array [query, variableValues, operationName] => ofParts? query variableValues operationName
  | _ => none

/-! ## The answer -/

/-- Reads, checks and executes a request.  There is no answer if the check does not come to
an end. -/
def answer? (schema : Schema) (request : Request) (rootValue : Json) (context : Option Json) :
    Option Execution :=
  match Document.parse { body := request.query, name := Source.defaultName } {} with
  | .error e => some { response := .refused [.ofSyntaxError e] }
  | .ok document =>
    (document.validate? schema).map fun
      | [] =>
        document.execute schema {
          variableValues := request.variableValues.getD []
          operationName := request.operationName
          rootValue
          context }
      | errors => { response := .refused errors }

end Request

end GraphQL

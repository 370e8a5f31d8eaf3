import GraphQL.Coercion.Variables
import GraphQL.Document.Height
import GraphQL.Execution.Field
import GraphQL.Response.Basic

/-!
# Execution

Executes an operation of a document: chooses the operation, reads the values of its
variables, and resolves the fields that it selects of its root type.  The fields of a
query are resolved side by side, those of a mutation one after the other.
-/

namespace GraphQL

/-- Why no operation of a document is chosen. -/
inductive OperationFault where
  | noOperation
  | severalOperations
  | unknownOperation (name : String)
  deriving DecidableEq, Repr

namespace OperationFault

def message : OperationFault → String
  | noOperation => "Must provide an operation."
  | severalOperations =>
    "Must provide operation name if query contains multiple operations."
  | unknownOperation name => "Unknown operation named \"" ++ name ++ "\"."

end OperationFault

/-- A finished execution. -/
structure Execution where
  response : Response
  /-- What happened on the way, in order. -/
  events : List Event := []

namespace Document

/-- The operation of the given name, or the only one. -/
def chooseOperation (document : Document) :
    Option String → Except OperationFault OperationDefinition
  | some name =>
    match document.operations.find? (·.nameText? = some name) with
    | some operation => .ok operation
    | none => .error (.unknownOperation name)
  | none =>
    match document.operations with
    | [] => .error .noOperation
    | [operation] => .ok operation
    | _ => .error .severalOperations

/-- How deeply a response may nest objects where the fragments of the document do not end
of themselves. -/
def recursionAllowance : Nat := 1000

/-- How deeply objects may be nested in a response.  Unless a fragment is spread within
itself, no more than the heights of all definitions together can be needed. -/
def nestingLimit (document : Document) : Nat :=
  document.definitions.foldr (fun d rest => d.height + rest) recursionAllowance

end Document

namespace Setting

variable (setting : Setting)

/-- How the root fields are resolved together. -/
def rootOrder : OperationKind → Order
  | .mutation => fun _ => Job.inTurn
  | .query | .subscription => Job.sideBySide

/-- Resolves the fields that the operation selects of its root type.  An error that
nothing contained is noted, and there is null instead of all data. -/
def resolveRoot (limit : Nat) (rootType : TypeDef) : Running Json := do
  let groups := setting.groupsOf rootType [setting.operation.selectionSet]
  let order := rootOrder setting.operation.operation
  match ← setting.resolveFields (setting.completeObject limit) order rootType setting.rootValue []
      groups with
  | .ok data => return data
  | .error e =>
    Progress.record e
    return .null

end Setting

namespace Execution

/-- What a response says if there is no root type for the operation. -/
def withoutRoot (operation : OperationDefinition) : Response where
  data := some .null
  errors := [.atSpans ("Schema is not configured for " ++ operation.operation.keyword ++ "s.")
    [operation.span]]

/-- Executes an operation. -/
def ofSetting (setting : Setting) (limit : Nat) : Execution :=
  match setting.schema.rootType? setting.operation.operation with
  | none => { response := withoutRoot setting.operation }
  | some rootType =>
    let (data, progress) := (setting.resolveRoot limit rootType).run {}
    { response := { data := some data, errors := progress.errors.reverse.map (·.toResponse) }
      events := progress.events.reverse }

/-- The same execution, with the text that its errors are about. -/
def inDocument (document : Document) (execution : Execution) : Execution :=
  let named (e : ResponseError) : ResponseError :=
    { e with sourceName := e.sourceName <|> document.source.map (·.name) }
  let response := execution.response
  { execution with response := { response with errors := response.errors.map named } }

/-- The labels of the calls of resolvers that finished, in order. -/
def log (execution : Execution) : List String := Event.log execution.events

end Execution

/-- What a document is executed with. -/
structure ExecutionInput where
  /-- The values of the variables as they come with the request. -/
  variableValues : Json.Members := []
  operationName : Option String := none
  rootValue : Json := .null
  /-- What the host hands over for the resolvers. -/
  context : Option Json := none

namespace Document

/-- Executes an operation of the document, with objects nested in each other up to a limit. -/
def executeWithin (limit : Nat) (schema : Schema) (document : Document)
    (input : ExecutionInput) : Execution :=
  .inDocument document <|
    match document.chooseOperation input.operationName with
    | .error fault => { response := .refused [{ message := fault.message }] }
    | .ok operation =>
      match Variables.coerce schema operation.variableDefinitions input.variableValues with
      | .error errors => { response := .refused (errors.map (·.toResponse)) }
      | .ok bindings =>
        let setting : Setting :=
          { schema
            fragments := document.fragmentTable
            operation
            bindings
            rootValue := input.rootValue
            context := input.context }
        .ofSetting setting limit

/-- Executes an operation of the document, which is not checked first. -/
def execute (schema : Schema) (document : Document) (input : ExecutionInput) : Execution :=
  document.executeWithin document.nestingLimit schema input

end Document

end GraphQL

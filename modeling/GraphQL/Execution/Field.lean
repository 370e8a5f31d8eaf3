import GraphQL.Execution.Grouping
import GraphQL.Execution.Run
import GraphQL.Execution.RuntimeType
import GraphQL.Schema.Description

/-!
# Resolving fields

A field is resolved to a value, and the value is completed by the type of the field: items
of lists one by one, leaves by their types, and objects field by field.  Where null is
allowed an error is noted and null stands instead; elsewhere the error makes the field
or the object around it null, as far out as null is allowed.
-/

namespace GraphQL

/-- What stays the same during the execution of an operation. -/
structure Setting where
  schema : Schema
  fragments : FragmentTable
  operation : OperationDefinition
  /-- The values of the variables. -/
  bindings : Json.Members
  rootValue : Json
  /-- What the host handed over for the resolvers. -/
  context : Option Json

/-- How a value of an object type is completed, given the field it is the value of, and the
path it gets in the response. -/
abbrev ObjectCompletion :=
  ResolveInfo → TypeDef → List PathSegment → Json → Running Completion

namespace Setting

variable (setting : Setting)

/-- What a resolver is told of a field. -/
def info (parent : TypeDef) (definition : FieldDef) (nodes : List Field)
    (path : List PathSegment) : ResolveInfo where
  fieldName := definition.name
  fieldNodes := nodes
  returnType := definition.type
  parentTypeName := parent.name
  path
  fragments := setting.fragments
  rootValue := setting.rootValue
  operation := setting.operation
  variableValues := setting.bindings

/-- Where null is allowed, notes an error and goes on with null. -/
def contain (type : TypeRef) (job : Running Completion) : Running Completion := do
  match ← job with
  | .ok value => return .ok value
  | .error e =>
    if type.isNullable then
      Progress.record e
      return .ok .null
    else
      return .error e

/-- Waits for the outcome of a call that was made for the field at a path. -/
def await (path : List PathSegment) (reply : Reply) : Running (Except String Json) := do
  Job.wait reply.pendings
  Progress.note (.finished path reply.label)
  return reply.outcome

/-- The outcome of a resolver. -/
def resolve (resolver : Option Resolver) (definition : FieldDef) (params : ResolveParams) :
    Running (Except String Json) := do
  match resolver with
  | none => return .ok ((params.source.get? definition.name).getD .null)
  | some resolver =>
    Progress.note (.called params)
    match resolver with
    | .introspection field =>
      await params.info.path { outcome := .ok (field.value setting.schema params) }
    | .host call =>
      await params.info.path (← Progress.call (call params))

/-- A value of a scalar or an enum for the response. -/
def completeLeaf (t : TypeDef) (value : Json) : Except FieldFault Json :=
  match t.body with
  | .scalar d => (d.toResponse value).mapError .scalar
  | .enum d => (d.toResponse t.name value).mapError fun _ => .enum t.name value
  | _ => .error (.inputType t.name)

/-- Completes a value that is not null by a named type. -/
def completeNamed (object : ObjectCompletion) (info : ResolveInfo) (name : String)
    (path : List PathSegment) (value : Json) : Running Completion :=
  let fail (fault : FieldFault) : Running Completion := return .error (.ofInfo info path fault)
  match setting.schema.type? name with
  | none => fail (.unknownType name)
  | some t =>
    if t.isAbstractType then
      match setting.schema.runtimeType t value info with
      | .ok objectType => object info objectType path value
      | .error fault => fail fault
    else if t.isObjectType then object info t path value
    else
      match completeLeaf t value with
      | .ok value => return .ok value
      | .error fault => fail fault

/-- Completes a value by a type.  The items of a list are completed side by side. -/
def complete (object : ObjectCompletion) (info : ResolveInfo) :
    TypeRef → List PathSegment → Json → Running Completion
  | .named name nullable, path, value => do
    Progress.note (.completing path (.named name nullable) value)
    if value.isNull then
      return if nullable then .ok .null else .error (.ofInfo info path .null)
    else completeNamed setting object info name path value
  | .list item nullable, path, value => do
    Progress.note (.completing path (.list item nullable) value)
    match value with
    | .null => return if nullable then .ok .null else .error (.ofInfo info path .null)
    | .array items => do
      let completed ← Job.sideBySide items.length (items.zipIdx.map fun (value, i) =>
        contain item (complete object info item (path ++ [.index i]) value))
      return completed.map .array
    | _ => return .error (.ofInfo info path .notAList)

/-- Resolves a field and completes its value. -/
def resolveField (object : ObjectCompletion) (parent : TypeDef) (source : Json)
    (definition : FieldDef) (nodes : List Field) (path : List PathSegment) : Running Completion :=
  let info := setting.info parent definition nodes path
  let given := (nodes.head?.map (·.arguments)).getD []
  contain definition.type do
    match Arguments.coerce setting.schema setting.bindings given definition.arguments with
    | .error e => return .error (.ofInfo info path (.arguments e))
    | .ok args =>
      let params : ResolveParams := { source, args, info, context := setting.context }
      match ← resolve setting definition.resolver definition params with
      | .error message => return .error (.ofInfo info path (.resolver message))
      | .ok value => complete setting object info definition.type path value

/-- How the fields of an object are resolved together.  The number is that of the response
keys, which there may be more of than fields. -/
abbrev Order :=
  (size : Nat) → List (Running Completion) → Running (Except FieldError (List Json))

/-- The definition of a field that is selected of an object type.  It is that of the type of
the schema that has the name. -/
def definition? (parent : TypeDef) (node : Field) : Option FieldDef := do
  let t ← setting.schema.type? parent.name
  setting.schema.fieldDef? t node.name.text

/-- The fields that groups select of a type, by their keys, with their definitions.  A field
that the type does not have is left out. -/
def selectedFields (parent : TypeDef) (groups : FieldGroups) :
    List (String × FieldDef × List Field) :=
  groups.filterMap fun (key, nodes) => do
    let node ← nodes.head?
    let definition ← setting.definition? parent node
    return (key, definition, nodes)

/-- Resolves groups of fields of an object. -/
def resolveFields (object : ObjectCompletion) (order : Order) (parent : TypeDef) (source : Json)
    (path : List PathSegment) (groups : FieldGroups) : Running Completion := do
  let fields := setting.selectedFields parent groups
  let values ← order groups.length (fields.map fun (key, definition, nodes) =>
    resolveField setting object parent source definition nodes (path ++ [.key key]))
  return values.map fun values => .object ((fields.map (·.1)).zip values)

/-- The groups of the fields that some selection sets select of an object type. -/
def groupsOf (objectType : TypeDef) (sets : List SelectionSet) : FieldGroups :=
  groupFields setting.schema setting.bindings setting.fragments objectType.name sets

/-- Completes a value by an object type, with objects nested in each other up to a depth.  The
fields are resolved side by side. -/
def completeObject : Nat → ObjectCompletion
  | 0, info, _, path, _ => return .error (.ofInfo info path .tooDeep)
  | depth + 1, info, objectType, path, value =>
    if objectType.accepts? value info = some false then
      return .error (.ofInfo info path (.wrongObject objectType.name value))
    else
      resolveFields setting (completeObject depth) Job.sideBySide objectType value path
        (groupsOf setting objectType (info.fieldNodes.filterMap (·.selectionSet)))

end Setting

end GraphQL

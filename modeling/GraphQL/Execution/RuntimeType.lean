import GraphQL.Execution.Fault
import GraphQL.Schema.Basic

/-!
# The object type of a value

A value of an interface or a union belongs to one of the object types of that type.
-/

namespace GraphQL

namespace TypeDef

/-- The name that an abstract type itself gives for the type of a value. -/
def resolveType? (t : TypeDef) (value : Json) (info : ResolveInfo) : Option String :=
  match t.body with
  | .interface d => d.resolveType.bind (· value info)
  | .union d => d.resolveType.bind (· value info)
  | _ => none

/-- Whether an object type accepts a value, if it can tell. -/
def accepts? (t : TypeDef) (value : Json) (info : ResolveInfo) : Option Bool :=
  (t.object?.bind (·.isTypeOf)).map (· value info)

end TypeDef

namespace Schema

variable (schema : Schema)

/-- The possible types of an abstract type that claim a value. -/
def claimants (t : TypeDef) (value : Json) (info : ResolveInfo) : List TypeDef :=
  (schema.possibleTypes t).filter fun object => object.accepts? value info = some true

/-- The name of the type of a value: the abstract type itself says it, or else the value
does in its member `__typename`, or else there is one possible type that claims the value. -/
def runtimeTypeName? (t : TypeDef) (value : Json) (info : ResolveInfo) :
    Except FieldFault (Option String) :=
  match t.resolveType? value info with
  | some name => .ok (some name)
  | none =>
    match value.get? Introspection.typenameFieldName with
    | some (.string name) => .ok (some name)
    | _ =>
      match schema.claimants t value info with
      | [] => .ok none
      | [object] => .ok (some object.name)
      | first :: second :: _ => .error (.twoObjectTypes t.name first.name second.name)

/-- The object type of a value of an abstract type. -/
def runtimeType (t : TypeDef) (value : Json) (info : ResolveInfo) : Except FieldFault TypeDef := do
  let name? ← schema.runtimeTypeName? t value info
  match (name?.bind schema.type?).filter (·.isObjectType) with
  | none => throw (.noObjectType t.name value name?)
  | some object =>
    if schema.isPossibleType t object.name then return object
    else throw (.impossibleType t.name object.name)

end Schema

end GraphQL

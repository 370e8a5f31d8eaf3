import GraphQL.Coercion.Leaf
import GraphQL.Response.Error
import GraphQL.Text.Suggestion

/-!
# Values of requests

Coerces a value that comes with a request to an input type.  All problems are found,
each with the path of the value that it is about.
-/

namespace GraphQL

/-- What can be wrong with a value. -/
inductive InputFault where
  | nullNotAllowed (type : TypeRef)
  | unknownType (name : String)
  /-- A scalar or an enum does not take the value. -/
  | refused (type detail : String)
  | notAnObject (type : String)
  | missingField (type : TypeRef)
  /-- A field that the input object does not have, and the fields that were meant. -/
  | unknownField (field type : String) (suggestions : List String)
  | notAnInputType (name : String)
  deriving DecidableEq, Repr

/-- A fault and the value it is about. -/
structure InputProblem where
  path : List PathSegment
  fault : InputFault
  deriving DecidableEq, Repr

namespace InputProblem

/-- A path below the value that was given. -/
def pathText (path : List PathSegment) : String :=
  path.foldl
    (fun text segment =>
      match segment with
      | .key key => text ++ "." ++ key
      | .index index => text ++ "[" ++ toString index ++ "]")
    "value"

/-- A message with the path, unless that is empty, and the detail. -/
def located (message : String) (path : List PathSegment) (detail : Option String) : String :=
  let place := if path.isEmpty then "" else " at " ++ pathText path
  match detail with
  | some detail => message ++ place ++ "; " ++ detail
  | none => message ++ place ++ "."

def message (problem : InputProblem) : String :=
  let path := problem.path
  match problem.fault with
  | .nullNotAllowed type =>
    located ("Expected non-nullable type " ++ type.text ++ " not to be null") path none
  | .unknownType name => located ("Unknown type " ++ name) path none
  | .refused type detail => located ("Expected type " ++ type) path (some detail)
  | .notAnObject type => located ("Expected type " ++ type ++ " to be an object") path none
  | .missingField type =>
    "Field " ++ pathText path ++ " of required type " ++ type.text ++ " was not provided."
  | .unknownField field type suggestions =>
    located ("Field \"" ++ field ++ "\" is not defined by type " ++ type) path
      (Suggestion.question? suggestions)
  | .notAnInputType name => located ("Expected input type, found " ++ name) path none

end InputProblem

namespace Input

/-- A value and the problems found on the way to it.  The value counts only if there
are none. -/
structure Checked (α : Type) where
  value : α
  problems : List InputProblem

namespace Checked

variable {α : Type}

def ok (value : α) : Checked α := ⟨value, []⟩

/-- No value, because of one problem. -/
def fail (path : List PathSegment) (fault : InputFault) : Checked Json :=
  ⟨.null, [⟨path, fault⟩]⟩

def map {β : Type} (f : α → β) (c : Checked α) : Checked β := ⟨f c.value, c.problems⟩

end Checked

/-- What an enum says of a value that it does not take: the values that were meant,
if any are close. -/
def enumDetail (d : EnumDef) (value : Json) (message : String) : String :=
  let suggestion? := value.asString?.bind fun name =>
    Suggestion.question? (Suggestion.close name (d.values.map (·.1)))
  suggestion?.getD message

/-- The value of a scalar or an enum. -/
def coerceLeaf (schema : Schema) (path : List PathSegment) (value : Json) (typeName : String) :
    Checked Json :=
  match schema.type? typeName with
  | none => .fail path (.unknownType typeName)
  | some t =>
    match t.body with
    | .scalar d =>
      match d.ofInput value with
      | .ok v => .ok v
      | .error message => .fail path (.refused t.name message)
    | .enum d =>
      match d.ofInput t.name value with
      | .ok v => .ok v
      | .error message => .fail path (.refused t.name (enumDetail d value message))
    | .inputObject _ => .fail path (.notAnObject t.name)
    | _ => .fail path (.notAnInputType t.name)

/-- The members of an input object, in the order of its fields. -/
def assemble (path : List PathSegment) (given : List (String × Checked Json)) :
    List (String × InputDef) → Checked Json.Members
  | [] => .ok []
  | (name, field) :: rest =>
    let members := assemble path given rest
    match Assoc.get? given name, field.defaultValue with
    | some c, _ => ⟨(name, c.value) :: members.value, c.problems ++ members.problems⟩
    | none, some v => ⟨(name, v) :: members.value, members.problems⟩
    | none, none =>
      if field.type.isNonNull then
        ⟨members.value, ⟨path ++ [.key name], .missingField field.type⟩ :: members.problems⟩
      else members

/-- The problems of the members that an input object does not know. -/
def unknownFields (path : List PathSegment) (typeName : String)
    (fields : List (String × InputDef)) (members : Json.Members) : List InputProblem :=
  members.filterMap fun (name, _) =>
    if Assoc.contains fields name then none
    else some ⟨path, .unknownField name typeName (Suggestion.close name (fields.map (·.1)))⟩

mutual

/-- Coerces the value at a path to a type. -/
def coerceAt (schema : Schema) (path : List PathSegment) : Json → TypeRef → Checked Json
  | .null, type => if type.isNullable then .ok .null else .fail path (.nullNotAllowed type)
  | .array items, .list item _ => (coerceItems schema path 0 items item).map .array
  | .object members, type =>
    let name := type.innermostName
    match schema.inputObject? name with
    | some d =>
      let object := assemble path (coerceMembers schema path members d.fields) d.fields
      ⟨type.wrap (.object object.value),
        object.problems ++ unknownFields path name d.fields members⟩
    | none => (coerceLeaf schema path (.object members) name).map type.wrap
  | value, type => (coerceLeaf schema path value type.innermostName).map type.wrap

/-- Coerces the items of a list, the first of which has the given index. -/
def coerceItems (schema : Schema) (path : List PathSegment) (index : Nat) :
    List Json → TypeRef → Checked (List Json)
  | [], _ => .ok []
  | item :: rest, type =>
    let first := coerceAt schema (path ++ [.index index]) item type
    let others := coerceItems schema path (index + 1) rest type
    ⟨first.value :: others.value, first.problems ++ others.problems⟩

/-- Coerces the members of an object, as far as the fields are known. -/
def coerceMembers (schema : Schema) (path : List PathSegment) :
    List (String × Json) → List (String × InputDef) → List (String × Checked Json)
  | [], _ => []
  | (name, value) :: rest, fields =>
    match Assoc.get? fields name with
    | some field =>
      (name, coerceAt schema (path ++ [.key name]) value field.type) ::
        coerceMembers schema path rest fields
    | none => coerceMembers schema path rest fields

end

/-- Coerces a value to a type, or gives all that is wrong with it. -/
def coerce (schema : Schema) (value : Json) (type : TypeRef) : Except (List InputProblem) Json :=
  let checked := coerceAt schema [] value type
  match checked.problems with
  | [] => .ok checked.value
  | problems => .error problems

end Input

end GraphQL

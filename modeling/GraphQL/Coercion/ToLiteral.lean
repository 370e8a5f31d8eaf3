import GraphQL.Coercion.Leaf

/-!
# Literals of values

The literal by which a document gives a value of a type.  It is what introspection
shows for a default value.
-/

namespace GraphQL

namespace Literal

/-- Whether the text is an integer literal: no zero in front, and no plus sign. -/
def isIntegerText (text : String) : Bool :=
  let digits :=
    match text.toList with
    | '-' :: rest => rest
    | cs => cs
  match digits with
  | [] => false
  | '0' :: rest => rest.isEmpty
  | cs => cs.all Char.isDigit

/-- The literal of a value that a scalar gave for a response.  An identifier that
reads as an integer is written as one. -/
def ofScalar? (typeName : String) (value : Json) : Option Value :=
  match value with
  | .null => some (.null none)
  | .bool b => some (.boolean b none)
  | .int _ | .float _ =>
    let text := value.text
    some (if isIntegerText text then .int text none else .float text none)
  | .string s =>
    some (if typeName = Scalar.idName && isIntegerText s then .int s none
      else .string s false none)
  | .array _ | .object _ => none

/-- The literal of a value of a scalar or an enum. -/
def ofLeaf? (schema : Schema) (value : Json) (typeName : String) : Option Value := do
  let t ← schema.type? typeName
  match t.body with
  | .scalar d => ofScalar? t.name (← (d.toResponse value).toOption)
  | .enum d =>
    match d.toResponse t.name value with
    | .ok (.string name) => some (.enum name none)
    | _ => none
  | _ => none

mutual

/-- A literal that stands for the value where the type is expected, if there is one.
A list leaves out the items that have none, and an object the fields. -/
def ofJson? (schema : Schema) : Json → TypeRef → Option Value
  | .null, type => if type.isNullable then some (.null none) else none
  | .array items, .list item _ => some (.list (ofItems schema items item) none)
  | .object members, type =>
    match schema.inputObject? type.innermostName with
    | some d =>
      let given := ofMembers schema members d.fields
      some (.object
        (d.fields.filterMap fun (name, _) =>
          (Assoc.get? given name).map fun value => { name := { text := name }, value })
        none)
    | none => ofLeaf? schema (.object members) type.innermostName
  | value, type => ofLeaf? schema value type.innermostName

/-- The literals of the items of a list. -/
def ofItems (schema : Schema) : List Json → TypeRef → List Value
  | [], _ => []
  | item :: rest, type => (ofJson? schema item type).toList ++ ofItems schema rest type

/-- The literals of the members of an object, as far as the fields are known. -/
def ofMembers (schema : Schema) :
    List (String × Json) → List (String × InputDef) → List (String × Value)
  | [], _ => []
  | (name, value) :: rest, fields =>
    ((Assoc.get? fields name).bind fun field => ofJson? schema value field.type).toList.map
      (name, ·) ++ ofMembers schema rest fields

end

end Literal

end GraphQL

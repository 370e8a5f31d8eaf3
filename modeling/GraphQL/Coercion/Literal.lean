import GraphQL.Coercion.Leaf

/-!
# Values of literals

What a literal in a document stands for where a type is expected.  A single value
counts as a list of one; fields that an object leaves out have their defaults.
-/

namespace GraphQL

/-- What comes of reading a literal for a type. -/
inductive Reading where
  /-- The literal is a variable that has no value. -/
  | missing
  /-- The literal has no value of the type. -/
  | invalid
  | value (v : Json)
  deriving Repr

namespace Reading

/-- The value, if there is one. -/
def value? : Reading → Option Json
  | value v => some v
  | missing | invalid => none

/-- An invalid reading, unless there is a value. -/
def ofOption : Option Json → Reading
  | some v => value v
  | none => invalid

def map (f : Json → Json) : Reading → Reading
  | value v => value (f v)
  | missing => missing
  | invalid => invalid

end Reading

namespace Literal

/-- What a variable stands for where `type` is expected.  Its value has been coerced
before; only null is looked at again. -/
def readVariable (bindings : Option Json.Members) (name : String) (type : TypeRef) : Reading :=
  match bindings.bind (Assoc.get? · name) with
  | some v => if v.isNull && type.isNonNull then .invalid else .value v
  | none => .missing

/-- The value of a literal of a scalar or an enum. -/
def readLeaf (schema : Schema) (literal : Value) (typeName : String) : Reading :=
  match (schema.type? typeName).bind (·.ofLiteral? literal) with
  | some (.ok v) => .value v
  | _ => .invalid

/-- The value of a field of an input object, if it has one: what was given, or else the
default.  The outer option is none if the object has no value because of the field. -/
def fieldValue? (field : InputDef) (given : Reading) : Option (Option Json) :=
  match given with
  | .value v => some (some v)
  | .invalid => none
  | .missing =>
    match field.defaultValue with
    | some v => some (some v)
    | none => if field.type.isNonNull then none else some none

/-- The members of an input object, in the order of its fields. -/
def assemble? (given : List (String × Reading)) :
    List (String × InputDef) → Option Json.Members
  | [] => some []
  | (name, field) :: rest => do
    let v ← fieldValue? field ((Assoc.get? given name).getD .missing)
    let members ← assemble? given rest
    return v.toList.map (name, ·) ++ members

mutual

/-- The value of a literal where `type` is expected. -/
def read (schema : Schema) (bindings : Option Json.Members) : Value → TypeRef → Reading
  | .var v, type => readVariable bindings v.name.text type
  | .null _, type => if type.isNullable then .value .null else .invalid
  | .list items _, .list item _ =>
    .ofOption ((readItems schema bindings items item).map .array)
  | .object fields span, type =>
    match schema.inputObject? type.innermostName with
    | some d =>
      .ofOption
        ((assemble? (readFields schema bindings fields d.fields) d.fields).map
          fun members => type.wrap (.object members))
    | none => (readLeaf schema (.object fields span) type.innermostName).map type.wrap
  | literal, type => (readLeaf schema literal type.innermostName).map type.wrap

/-- The values of the items of a list.  A variable without a value counts as null. -/
def readItems (schema : Schema) (bindings : Option Json.Members) :
    List Value → TypeRef → Option (List Json)
  | [], _ => some []
  | item :: rest, type =>
    let v? :=
      match read schema bindings item type with
      | .value v => some v
      | .invalid => none
      | .missing => if type.isNonNull then none else some .null
    match v?, readItems schema bindings rest type with
    | some v, some vs => some (v :: vs)
    | _, _ => none

/-- The values of the fields of an object, as far as the fields are known. -/
def readFields (schema : Schema) (bindings : Option Json.Members) :
    List ObjectField → List (String × InputDef) → List (String × Reading)
  | [], _ => []
  | ⟨name, value, _⟩ :: rest, fields =>
    (name.text,
      match Assoc.get? fields name.text with
      | some field => read schema bindings value field.type
      | none => .invalid) :: readFields schema bindings rest fields

end

/-- The value of a literal where `type` is expected, or none if the literal or a
variable in it is not valid there. -/
def coerce? (schema : Schema) (bindings : Option Json.Members) (literal : Value)
    (type : TypeRef) : Option Json :=
  (read schema bindings literal type).value?

end Literal

end GraphQL

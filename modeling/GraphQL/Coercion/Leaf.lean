import GraphQL.Coercion.Untyped
import GraphQL.Schema.Basic

/-!
# Values of scalars and enums

The three ways in which a leaf type changes values: on the way to a response, on the
way from a request, and from a literal in a document.
-/

namespace GraphQL

namespace ScalarDef

/-- A value for a response. -/
def toResponse (d : ScalarDef) (value : Json) : Except String Json :=
  match d.serialize with
  | some serialize => serialize value
  | none => .ok value

/-- A value from a request. -/
def ofInput (d : ScalarDef) (value : Json) : Except String Json :=
  match d.parseValue with
  | some parse => parse value
  | none => .ok value

/-- The value of a literal.  Without a function for literals it is read as a plain
value and treated like one of a request. -/
def ofLiteral (d : ScalarDef) (name : String) (literal : Value) : Except String Json :=
  match d.parseLiteral with
  | some parse => parse literal
  | none =>
    match literal.toJson? none with
    | some value => d.ofInput value
    | none => .error (name ++ " cannot represent a non-constant value")

end ScalarDef

namespace EnumDef

private def subject (name : String) : String := "Enum \"" ++ name ++ "\""

private def absent (name value : String) : String :=
  "Value \"" ++ value ++ "\" does not exist in \"" ++ name ++ "\" enum."

/-- The name of the first enum value that represents `value`. -/
def toResponse (d : EnumDef) (name : String) (value : Json) : Except String Json :=
  match d.values.find? fun (_, v) => v.value.same value with
  | some (_, v) => .ok (.string v.name)
  | none => .error (subject name ++ " cannot represent value: " ++ value.text)

/-- What represents the enum value of the given name. -/
def ofName (d : EnumDef) (name value : String) : Except String Json :=
  match Assoc.get? d.values value with
  | some v => .ok v.value
  | none => .error (absent name value)

/-- What represents the enum value that a request names. -/
def ofInput (d : EnumDef) (name : String) (value : Json) : Except String Json :=
  match value with
  | .string s => d.ofName name s
  | _ => .error (subject name ++ " cannot represent non-string value: " ++ value.text)

/-- What represents the enum value that a literal names. -/
def ofLiteral (d : EnumDef) (name : String) : Value → Except String Json
  | .enum s _ => d.ofName name s
  | _ => .error (subject name ++ " cannot represent non-enum value")

end EnumDef

namespace TypeDef

/-- A value for a response, if the type is a leaf. -/
def toResponse? (t : TypeDef) (value : Json) : Option (Except String Json) :=
  match t.body with
  | .scalar d => some (d.toResponse value)
  | .enum d => some (d.toResponse t.name value)
  | _ => none

/-- A value from a request, if the type is a leaf. -/
def ofInput? (t : TypeDef) (value : Json) : Option (Except String Json) :=
  match t.body with
  | .scalar d => some (d.ofInput value)
  | .enum d => some (d.ofInput t.name value)
  | _ => none

/-- The value of a literal, if the type is a leaf. -/
def ofLiteral? (t : TypeDef) (literal : Value) : Option (Except String Json) :=
  match t.body with
  | .scalar d => some (d.ofLiteral t.name literal)
  | .enum d => some (d.ofLiteral t.name literal)
  | _ => none

end TypeDef

namespace TypeRef

/-- A value of the innermost type as one of the whole type: in each list layer it is
the only item. -/
def wrap : TypeRef → Json → Json
  | named _ _, value => value
  | list item _, value => .array [item.wrap value]

end TypeRef

end GraphQL

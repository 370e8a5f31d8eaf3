import GraphQL.Document.Numbers

/-!
# Literals as plain values

The JSON value that a literal stands for when nothing is known of its type: the name
of an enum value becomes a string.
-/

namespace GraphQL

namespace Json

/-- The integer as a value: itself, or a floating-point number when it has more than
64 bits. -/
def ofIntText? (text : String) : Option Json :=
  match readInt64? text.toList with
  | some i => some (.int i)
  | none => (readNumeral? text.toList).map (·.toJson)

end Json

namespace Value

mutual

/-- The value of a literal, if the values of its variables are known.  In a list an
unknown value counts as null; a field of an object is left out. -/
def toJson? (bindings : Option Json.Members) : Value → Option Json
  | var v => bindings.bind (Assoc.get? · v.name.text)
  | int text _ => Json.ofIntText? text
  | float text _ => (readNumeral? text.toList).map (·.toJson)
  | string s _ _ => some (.string s)
  | boolean b _ => some (.bool b)
  | null _ => some .null
  | enum name _ => some (.string name)
  | list items _ => some (.array (itemsToJson bindings items))
  | object fields _ => some (.object (Assoc.ofList (fieldsToJson bindings fields)))

def itemsToJson (bindings : Option Json.Members) : List Value → List Json
  | [] => []
  | item :: rest => (item.toJson? bindings).getD .null :: itemsToJson bindings rest

def fieldsToJson (bindings : Option Json.Members) : List ObjectField → Json.Members
  | [] => []
  | ⟨name, value, _⟩ :: rest =>
    match value.toJson? bindings with
    | some value => (name.text, value) :: fieldsToJson bindings rest
    | none => fieldsToJson bindings rest

end

end Value

end GraphQL

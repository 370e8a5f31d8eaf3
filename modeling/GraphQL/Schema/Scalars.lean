import GraphQL.Json.Printer
import GraphQL.Schema.Types
import GraphQL.Document.Numbers
import GraphQL.Text.Characters

/-!
# The scalar types of every schema

`Int`, `Float`, `String`, `Boolean` and `ID`, with what they accept and how they are
written to a response.
-/

namespace GraphQL

/-- The text without blank characters at its ends. -/
def trimBlank (cs : List Char) : List Char :=
  ((cs.dropWhile isBlank).reverse.dropWhile isBlank).reverse

namespace Json

/-- The number as a floating-point number. -/
def asFloat? : Json → Option Binary64
  | int i => Binary64.ofInt? i
  | float x => some x
  | _ => none

/-- The finite number that a value stands for in a response: of a Boolean, of a
number, or of a string that reads as one. -/
def measure? : Json → Option Binary64
  | bool b => Binary64.ofInt? (if b then 1 else 0)
  | string s =>
    match trimBlank s.toList with
    | [] => none
    | cs =>
      match readNumeral? cs with
      | some (.finite x) => some x
      | _ => none
  | value => value.asFloat?

end Json

namespace Scalar

/-! ## Names -/

def intName : String := "Int"
def floatName : String := "Float"
def stringName : String := "String"
def booleanName : String := "Boolean"
def idName : String := "ID"

/-- Whether the name is that of a scalar type of every schema. -/
def isBuiltinName (name : String) : Bool :=
  name ∈ [intName, floatName, stringName, booleanName, idName]

/-! ## Int -/

/-- Whether the integer has 32 bits with a sign. -/
def isInt32 (i : Int) : Bool := Int32.minValue.toInt ≤ i && i ≤ Int32.maxValue.toInt

/-- An integer of 32 bits.  A number with a fraction or beyond the range is refused;
`value` is what the message shows. -/
def checkInt (number : Option Binary64) (value : Json) : Except String Json :=
  match number.bind (·.toInt?) with
  | none => .error ("Int cannot represent non-integer value: " ++ value.text)
  | some i =>
    if isInt32 i then .ok (.int i)
    else .error ("Int cannot represent non 32-bit signed integer value: " ++ value.text)

def serializeInt (value : Json) : Except String Json :=
  match value with
  | .bool b => .ok (.int (if b then 1 else 0))
  | _ => checkInt value.measure? value

def parseIntValue (value : Json) : Except String Json := checkInt value.asFloat? value

def parseIntLiteral : Value → Except String Json
  | .int text _ =>
    match (readInt64? text.toList).filter isInt32 with
    | some i => .ok (.int i)
    | none => .error ("Int cannot represent non 32-bit signed integer value: " ++ text)
  | _ => .error "Int cannot represent non-integer value"

/-! ## Float -/

def checkFloat (number : Option Binary64) (value : Json) : Except String Json :=
  match number with
  | some x => .ok (.float x)
  | none => .error ("Float cannot represent non numeric value: " ++ value.text)

def serializeFloat (value : Json) : Except String Json := checkFloat value.measure? value

def parseFloatValue (value : Json) : Except String Json := checkFloat value.asFloat? value

def parseFloatLiteral (literal : Value) : Except String Json :=
  match literal.numeral? with
  | some (.finite x) => .ok (.float x)
  | _ => .error "Float cannot represent non numeric value"

/-! ## String -/

def serializeString (value : Json) : Except String Json :=
  match value with
  | .string s => .ok (.string s)
  | .bool _ | .int _ | .float _ => .ok (.string value.text)
  | _ => .error ("String cannot represent value: " ++ value.text)

def parseStringValue (value : Json) : Except String Json :=
  match value with
  | .string s => .ok (.string s)
  | _ => .error ("String cannot represent a non string value: " ++ value.text)

def parseStringLiteral : Value → Except String Json
  | .string s _ _ => .ok (.string s)
  | _ => .error "String cannot represent a non string value"

/-! ## Boolean -/

def serializeBoolean (value : Json) : Except String Json :=
  match value, value.asFloat? with
  | .bool b, _ => .ok (.bool b)
  | _, some x => .ok (.bool (!x.isZero))
  | _, none => .error ("Boolean cannot represent a non boolean value: " ++ value.text)

def parseBooleanValue (value : Json) : Except String Json :=
  match value with
  | .bool b => .ok (.bool b)
  | _ => .error ("Boolean cannot represent a non boolean value: " ++ value.text)

def parseBooleanLiteral : Value → Except String Json
  | .boolean b _ => .ok (.bool b)
  | _ => .error "Boolean cannot represent a non boolean value"

/-! ## ID -/

/-- The text of a string or of an integral number. -/
def idText? : Json → Option String
  | .string s => some s
  | .int i => some (toString i)
  | .float x => Decimal.integerText? x
  | _ => none

/-- Identifiers are strings on both sides. -/
def checkId (value : Json) : Except String Json :=
  match idText? value with
  | some s => .ok (.string s)
  | none => .error ("ID cannot represent value: " ++ value.text)

def parseIdLiteral : Value → Except String Json
  | .string s _ _ => .ok (.string s)
  | .int text _ => .ok (.string text)
  | _ => .error "ID cannot represent a non-string and non-integer value"

/-! ## The types -/

/-- A scalar type of every schema. -/
def builtin (name description : String) (serialize parseValue : Coercion)
    (parseLiteral : Value → Except String Json) : TypeDef where
  name
  description := some description
  origin := .builtin
  body := .scalar
    { serialize := some serialize
      parseValue := some parseValue
      parseLiteral := some parseLiteral }

def int : TypeDef :=
  builtin intName
    ("The `Int` scalar type represents non-fractional signed whole numeric values. " ++
     "Int can represent values between -(2^31) and 2^31 - 1.")
    serializeInt parseIntValue parseIntLiteral

def float : TypeDef :=
  builtin floatName
    ("The `Float` scalar type represents signed double-precision fractional values " ++
     "as specified by [IEEE 754](https://en.wikipedia.org/wiki/IEEE_754).")
    serializeFloat parseFloatValue parseFloatLiteral

def string : TypeDef :=
  builtin stringName
    ("The `String` scalar type represents textual data, represented as UTF-8 " ++
     "character sequences. The String type is most often used by GraphQL to " ++
     "represent free-form human-readable text.")
    serializeString parseStringValue parseStringLiteral

def boolean : TypeDef :=
  builtin booleanName
    "The `Boolean` scalar type represents `true` or `false`."
    serializeBoolean parseBooleanValue parseBooleanLiteral

def id : TypeDef :=
  builtin idName
    ("The `ID` scalar type represents a unique identifier, often used to refetch " ++
     "an object or as key for a cache. The ID type appears in a JSON response as a " ++
     "String; however, it is not intended to be human-readable. When expected as an " ++
     "input type, any string (such as `\"4\"`) or integer (such as `4`) input value " ++
     "will be accepted as an ID.")
    checkId checkId parseIdLiteral

/-- The scalar types of every schema, in the order in which they are listed. -/
def all : List TypeDef := [string, int, float, boolean, id]

end Scalar

end GraphQL

import GraphQL.Document.Basic
import GraphQL.Json.Basic
import GraphQL.Number.Notation

/-!
# The numbers that literals stand for

Number literals keep their text; these functions read it.
-/

namespace GraphQL.Value

/-- The integer of 64 bits that an integer literal stands for. -/
def int64? : Value → Option Int
  | int text _ => readInt64? text.toList
  | _ => none

/-- The number that the text of a number literal stands for as a floating-point
number, finite or not. -/
def numeral? : Value → Option Numeral
  | int text _ | float text _ => readNumeral? text.toList
  | _ => none

end GraphQL.Value

namespace GraphQL.Numeral

/-- The number as a JSON value, which has no number that is not finite. -/
def toJson : Numeral → Json
  | finite x => .float x
  | infinite _ | notANumber => .null

end GraphQL.Numeral

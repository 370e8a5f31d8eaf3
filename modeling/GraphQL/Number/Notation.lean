import GraphQL.Number.Decimal

/-!
# Reading decimal notation

Two notations are read: integers with an optional sign, and fractions with an
optional exponent, as `-12.5e3`.  `readInteger?` and `readDecimal?` accept a text
only as a whole.
-/

namespace GraphQL

/-- The value of a digit. -/
def digitValue (c : Char) : Nat := c.toNat - '0'.toNat

/-- The number that a row of digits stands for. -/
def digitsValue (digits : List Char) : Nat :=
  digits.foldl (fun n c => 10 * n + digitValue c) 0

/-- Splits off a sign: whether the number is negative, and what follows. -/
def splitSign : List Char → Bool × List Char
  | '-' :: rest => (true, rest)
  | '+' :: rest => (false, rest)
  | cs => (false, cs)

/-- The integer that digits with an optional sign stand for. -/
def readInteger? (cs : List Char) : Option Int :=
  let (negative, digits) := splitSign cs
  if digits.isEmpty || !digits.all Char.isDigit then none
  else
    let n : Int := digitsValue digits
    some (if negative then -n else n)

/-- Whether the integer has 64 bits with a sign. -/
def isInt64 (i : Int) : Bool := Int64.minValue.toInt ≤ i && i ≤ Int64.maxValue.toInt

/-- The integer of 64 bits that digits with an optional sign stand for. -/
def readInt64? (cs : List Char) : Option Int := (readInteger? cs).filter isInt64

/-- A decimal fraction read as a whole: its sign and its value. -/
def readDecimal? (cs : List Char) : Option (Bool × Decimal) :=
  let (negative, body) := splitSign cs
  let whole := body.takeWhile Char.isDigit
  let rest := body.dropWhile Char.isDigit
  let (fraction, rest) :=
    match rest with
    | '.' :: rest => (rest.takeWhile Char.isDigit, rest.dropWhile Char.isDigit)
    | _ => ([], rest)
  if whole.isEmpty && fraction.isEmpty then none
  else
    let exponent? : Option Int :=
      match rest with
      | [] => some 0
      | c :: rest => if c = 'e' ∨ c = 'E' then readInteger? rest else none
    exponent?.map fun exponent =>
      (negative, ⟨digitsValue (whole ++ fraction), exponent - (fraction.length : Int)⟩)

/-- What a numeric text stands for: a finite number, or something beyond. -/
inductive Numeral where
  | finite (x : Binary64)
  | infinite (negative : Bool)
  | notANumber
  deriving DecidableEq, Repr

/-- Reads a decimal fraction, or one of the words for what is not finite. -/
def readNumeral? (cs : List Char) : Option Numeral :=
  let (negative, body) := splitSign cs
  let word := body.map Char.toLower
  if word = "inf".toList ∨ word = "infinity".toList then some (.infinite negative)
  else if word = "nan".toList then some .notANumber
  else
    (readDecimal? cs).map fun (negative, decimal) =>
      match decimal.value? negative with
      | some x => .finite x
      | none => .infinite negative

end GraphQL

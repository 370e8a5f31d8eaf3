import GraphQL.Json.Basic
import GraphQL.Number.Notation

/-!
# Numbers of JSON texts

A number without a point and an exponent is an integer if it fits 64 bits, with or
without a sign, and is not written `-0`.  Any other number is a floating-point number
that is found in two steps, each of which rounds: the first digits, as many as fit 64
bits, make a whole number, and that is multiplied or divided by a power of ten.  So the
last bit may differ from that of the number nearest to the text.
-/

namespace GraphQL.Json

/-- The parts of a number as it is written. -/
structure Numerals where
  negative : Bool
  whole : List Char
  /-- The digits after the point, if there is one. -/
  fraction : Option (List Char)
  exponent : Option Int

namespace Numerals

/-- The exponent that a text gives after its mark. -/
def exponent? : List Char → Option (Option Int)
  | [] => some none
  | c :: rest => if c = 'e' ∨ c = 'E' then (readInteger? rest).map some else none

/-- Splits a text into the parts of a number. -/
def ofText? (cs : List Char) : Option Numerals := do
  let (negative, body) :=
    match cs with
    | '-' :: rest => (true, rest)
    | cs => (false, cs)
  let whole := body.takeWhile Char.isDigit
  let rest := body.dropWhile Char.isDigit
  if whole.isEmpty || (whole.head? = some '0' && 1 < whole.length) then none
  else
    match rest with
    | '.' :: rest =>
      let fraction := rest.takeWhile Char.isDigit
      let exponent ← exponent? (rest.dropWhile Char.isDigit)
      if fraction.isEmpty then none else some ⟨negative, whole, some fraction, exponent⟩
    | rest => return ⟨negative, whole, none, ← exponent? rest⟩

end Numerals

/-- Appends digits to a whole number as long as it fits 64 bits.  The digits that are
left over come second. -/
def absorbDigits (n : Nat) : List Char → Nat × List Char
  | [] => (n, [])
  | c :: rest =>
    let more := 10 * n + digitValue c
    if more < UInt64.size then absorbDigits more rest else (n, c :: rest)

/-- The greatest power of ten that a number is multiplied or divided by in one step. -/
def maxPower : Nat := 308

/-- Ten to the power `n`, rounded. -/
def powerOfTen (n : Nat) : Binary64 :=
  (Binary64.ofRatio? false (Nat.pow 10 n) 1).getD (.zero false)

/-- The number times ten to the power `n`, unless that is too large. -/
def scaleUp? (x : Binary64) (n : Nat) : Option Binary64 :=
  if n ≤ maxPower then x.mul? (powerOfTen n)
  else if x.isZero then some x
  else none

/-- The number divided by ten to the power `n`, in steps of the greatest power. -/
def scaleDown (x : Binary64) (n : Nat) : Binary64 :=
  if n ≤ maxPower then (x.div? (powerOfTen n)).getD (.zero false)
  else if x.isZero then x
  else scaleDown ((x.div? (powerOfTen maxPower)).getD (.zero false)) (n - maxPower)
termination_by n
decreasing_by simp only [maxPower] at *; omega

namespace Numerals

/-- The floating-point number, unless it is too large. -/
def toFloat? (n : Numerals) : Option Binary64 := do
  let (significand, skipped) := absorbDigits 0 n.whole
  let fraction := n.fraction.getD []
  let (significand, unread) := absorbDigits significand fraction
  let places : Int := (fraction.length : Int) - (unread.length : Int)
  let exponent : Int := (skipped.length : Int) - places + n.exponent.getD 0
  let x ← Binary64.ofRatio? false significand 1
  let x ← if 0 ≤ exponent then scaleUp? x exponent.toNat
    else some (scaleDown x (-exponent).toNat)
  return x.withSign n.negative

/-- The value of the number. -/
def value? (n : Numerals) : Option Json :=
  let i : Int := digitsValue n.whole
  let i := if n.negative then -i else i
  let isInteger := n.fraction.isNone && n.exponent.isNone && !(n.negative && i = 0)
  if isInteger && Int64.minValue.toInt ≤ i && i < UInt64.size then some (.int i)
  else n.toFloat?.map .float

end Numerals

end GraphQL.Json

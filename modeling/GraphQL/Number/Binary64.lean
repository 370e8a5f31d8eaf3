/-!
# Finite binary floating-point numbers

A `Binary64` is a finite floating-point number of 64 bits, kept as its sign, its
integral significand and the power of two it is scaled by.  All arithmetic on it
is exact arithmetic on integers.  The one place where something is rounded is
`Binary64.ofRatio?`: to the nearest such number, a tie going to the one whose
significand is even.
-/

namespace GraphQL

/-- The number `± significand · 2 ^ exponent`.  The functions here keep it in the
form in which `2^52 ≤ significand < 2^53`, or `exponent = -1074` and the
significand is smaller; so equal numbers other than the two zeros are equal. -/
structure Binary64 where
  negative : Bool
  significand : Nat
  exponent : Int
  deriving DecidableEq, Repr

namespace Binary64

/-- The least significand of a number that uses all its digits, `2^52`. -/
def leastFull : Nat := Nat.pow 2 52

/-- The bound of all significands, `2^53`. -/
def significandBound : Nat := Nat.pow 2 53

/-- The least exponent of a number that is not too large by itself. -/
def minExponent : Int := -1074

/-- The greatest exponent. -/
def maxExponent : Int := 971

/-- Zero with a sign. -/
def zero (negative : Bool) : Binary64 := ⟨negative, 0, minExponent⟩

/-- Whether the number is zero, of either sign. -/
def isZero (x : Binary64) : Bool := x.significand = 0

/-- Equality as numbers: the two zeros are equal. -/
def equals (x y : Binary64) : Bool := (x.isZero && y.isZero) || x = y

/-- `num / den` rounded to the nearest integer, a tie to the even one. -/
def roundHalfEven (num den : Nat) : Nat :=
  let q := num / den
  let twice := 2 * (num % den)
  if twice < den then q
  else if den < twice then q + 1
  else if q % 2 = 0 then q else q + 1

/-- `num · 2 ^ (-shift) / den` as a ratio of integers. -/
def scaledRatio (num den : Nat) (shift : Int) : Nat × Nat :=
  if 0 ≤ shift then (num, den * Nat.pow 2 shift.toNat) else (num * Nat.pow 2 (-shift).toNat, den)

/-- The number nearest to `± num / den`, unless that is beyond the greatest. -/
def ofRatio? (negative : Bool) (num den : Nat) : Option Binary64 :=
  if num = 0 then some (zero negative)
  else
    let guess : Int := (num.log2 : Int) - (den.log2 : Int) - 52
    let (n, d) := scaledRatio num den guess
    let exponent := max minExponent (if n / d < leastFull then guess - 1 else guess)
    let (n, d) := scaledRatio num den exponent
    let q := roundHalfEven n d
    let (q, exponent) := if q = significandBound then (leastFull, exponent + 1) else (q, exponent)
    if maxExponent < exponent then none else some ⟨negative, q, exponent⟩

/-- The number nearest to the integer `i`, unless that is beyond the greatest. -/
def ofInt? (i : Int) : Option Binary64 := ofRatio? (i < 0) i.natAbs 1

/-- The absolute value as a ratio of integers. -/
def magnitude (x : Binary64) : Nat × Nat :=
  if 0 ≤ x.exponent then (x.significand * Nat.pow 2 x.exponent.toNat, 1)
  else (x.significand, Nat.pow 2 (-x.exponent).toNat)

/-- The integer that the number is, if it is one. -/
def toInt? (x : Binary64) : Option Int :=
  let (num, den) := x.magnitude
  if num % den = 0 then
    some (if x.negative then -((num / den : Nat) : Int) else ((num / den : Nat) : Int))
  else none

/-- The product, rounded, unless it is beyond the greatest number. -/
def mul? (x y : Binary64) : Option Binary64 :=
  let (a, b) := x.magnitude
  let (c, d) := y.magnitude
  ofRatio? (x.negative != y.negative) (a * c) (b * d)

/-- The quotient, rounded, unless it is beyond the greatest number. -/
def div? (x y : Binary64) : Option Binary64 :=
  let (a, b) := x.magnitude
  let (c, d) := y.magnitude
  ofRatio? (x.negative != y.negative) (a * d) (b * c)

/-- The number with a sign. -/
def withSign (x : Binary64) (negative : Bool) : Binary64 := { x with negative }

end Binary64

end GraphQL

import GraphQL.Number.Binary64

/-!
# Decimal notation of floating-point numbers

`Decimal.shortest` gives the fewest decimal digits that read back as a given
number, and of those the nearest to it; `Decimal.text` lays them out.
`Decimal.value?` is the number nearest to a decimal fraction.
-/

namespace GraphQL

/-- The decimal `digits · 10 ^ exponent`, without a sign. -/
structure Decimal where
  digits : Nat
  exponent : Int
  deriving DecidableEq, Repr

namespace Decimal

/-! ## Reading -/

/-- The number of decimal digits of `n`; zero has none. -/
def digitCount (n : Nat) : Nat := if n = 0 then 0 else (Nat.toDigits 10 n).length

/-- The floating-point number nearest to the decimal, or none if it is too large.
A decimal far out of range is decided by its size, so that no power of ten is
computed for it. -/
def value? (negative : Bool) (d : Decimal) : Option Binary64 :=
  if d.digits = 0 then some (.zero negative)
  else
    let size := d.exponent + digitCount d.digits
    if 400 < size then none
    else if size < -400 then some (.zero negative)
    else if 0 ≤ d.exponent then
      Binary64.ofRatio? negative (d.digits * Nat.pow 10 d.exponent.toNat) 1
    else Binary64.ofRatio? negative d.digits (Nat.pow 10 (-d.exponent).toNat)

/-! ## The fewest digits -/

/-- The largest power of ten that is not above `num / den`, for `num ≥ 1`. -/
def floorLog10 (num den : Nat) : Int :=
  let reaches (k : Int) : Bool :=
    if 0 ≤ k then den * Nat.pow 10 k.toNat ≤ num else den ≤ num * Nat.pow 10 (-k).toNat
  let guess : Int := ((num.log2 : Int) - (den.log2 : Int)) * 30103 / 100000
  if reaches (guess + 1) then guess + 1
  else if reaches guess then guess
  else guess - 1

/-- The interval of the numbers that round to `x`, as numerators over the common
denominator of the fourth component: the lower end, `x` itself, the upper end. -/
def roundingInterval (x : Binary64) : Nat × Nat × Nat × Nat :=
  let low := if x.significand = Binary64.leastFull ∧ Binary64.minExponent < x.exponent then 1 else 2
  let scale := x.exponent - 2
  let up := if 0 ≤ scale then Nat.pow 2 scale.toNat else 1
  let den := if 0 ≤ scale then 1 else Nat.pow 2 (-scale).toNat
  ((4 * x.significand - low) * up, 4 * x.significand * up, (4 * x.significand + 2) * up, den)

/-- The decimal nearest to `x` among those that read back as `x` and are multiples
of `10 ^ grid`. -/
def onGrid? (x : Binary64) (grid : Int) : Option Decimal :=
  let (low, value, high, den) := roundingInterval x
  let up := if 0 ≤ grid then 1 else Nat.pow 10 (-grid).toNat
  let den := if 0 ≤ grid then den * Nat.pow 10 grid.toNat else den
  let (low, value, high) := (low * up, value * up, high * up)
  let even := x.significand % 2 = 0
  let inside (n : Nat) : Bool :=
    if even then low ≤ n * den ∧ n * den ≤ high else low < n * den ∧ n * den < high
  let below := value / den
  let above := below + 1
  match inside below, inside above with
  | true, true =>
    let under := value - below * den
    let excess := above * den - value
    let nearer :=
      if under < excess then below
      else if excess < under then above
      else if below % 2 = 0 then below else above
    some ⟨nearer, grid⟩
  | true, false => some ⟨below, grid⟩
  | false, true => some ⟨above, grid⟩
  | false, false => none

/-- Without the zeros at the end of the digits; `fuel` bounds their number. -/
def trimZeros : (fuel : Nat) → Decimal → Decimal
  | 0, d => d
  | fuel + 1, d =>
    if d.digits % 10 = 0 ∧ d.digits ≠ 0 then trimZeros fuel ⟨d.digits / 10, d.exponent + 1⟩ else d

/-- The decimal with the fewest digits that reads back as the absolute value of
`x`.  Seventeen digits always suffice. -/
def shortest (x : Binary64) : Decimal :=
  if x.isZero then ⟨0, 0⟩
  else
    let (num, den) := x.magnitude
    let top := floorLog10 num den
    let found := (List.range 17).findSome? fun (n : Nat) => onGrid? x (top - n)
    trimZeros 20 (found.getD ⟨0, 0⟩)

/-! ## Notation -/

/-- How the digits of a number are laid out. -/
structure Layout where
  /-- Numbers are written without an exponent from ten to this power on. -/
  least : Int
  /-- Numbers are written without an exponent below ten to this power. -/
  bound : Int
  deriving Repr

/-- The digits with a point after the first of them, if there is a second. -/
def pointed (digits : List Char) : List Char :=
  match digits with
  | first :: second :: rest => first :: '.' :: second :: rest
  | _ => digits

/-- The text of the digits of `d` without an exponent, and with at least one digit
on each side of the point. -/
def positional (d : Decimal) : List Char :=
  let digits := Nat.toDigits 10 d.digits
  if 0 ≤ d.exponent then digits ++ List.replicate d.exponent.toNat '0' ++ ['.', '0']
  else
    let places := (-d.exponent).toNat
    let padded := List.replicate (places + 1 - digits.length) '0' ++ digits
    padded.take (padded.length - places) ++ '.' :: padded.drop (padded.length - places)

/-- The text of `x`: its fewest digits, with a point, or with an exponent and its
sign when the number is outside the range of the layout. -/
def text (layout : Layout) (x : Binary64) : String :=
  let d := shortest x
  let digits := Nat.toDigits 10 d.digits
  let top : Int := d.exponent + (digits.length : Int) - 1
  let body :=
    if d.digits = 0 ∨ (layout.least ≤ top ∧ top < layout.bound) then positional d
    else
      pointed digits ++ 'e' :: (if top < 0 then '-' else '+') :: Nat.toDigits 10 top.natAbs
  .ofList (if x.negative then '-' :: body else body)

/-- The digits of the integral part of `x`, if `x` has no other. -/
def integerText? (x : Binary64) : Option String :=
  let (num, den) := x.magnitude
  if num % den = 0 then
    some ((if x.negative then "-" else "") ++ .ofList (Nat.toDigits 10 (num / den)))
  else none

end Decimal

end GraphQL

namespace PathQuery.Decimal

/-! # Binary64 numbers

A finite binary64 number is kept as an exact value, `significand * 2 ^ exponent`
with a sign.  Of the many ways to write one value the one with the least exponent
from `-1074` up is used, that is, the significand is at least `2 ^ 52` unless the
exponent is `-1074`.  All arithmetic is that of natural numbers; only `nearest`
rounds.
-/

/-- A finite binary64 number.  Zero keeps its sign. -/
structure Binary64 where
  negative : Bool
  significand : Nat
  exponent : Int
  deriving DecidableEq

/-- A quotient rounded to the nearest natural number, a half to the even one. -/
def roundDiv (num den : Nat) : Nat :=
  let floor := num / den
  let twice := 2 * (num % den)
  if twice < den then floor
  else if den < twice then floor + 1
  else if floor % 2 = 0 then floor else floor + 1

def twoTo (exponent : Nat) : Nat := Nat.pow 2 exponent

def tenTo (exponent : Nat) : Nat := Nat.pow 10 exponent

/-- The ratio of `num / den` to `2 ^ exponent`, again as a numerator and a
    denominator. -/
def ratioTo (num den : Nat) (exponent : Int) : Nat × Nat :=
  if 0 ≤ exponent then (num, den * twoTo exponent.toNat)
  else (num * twoTo (-exponent).toNat, den)

namespace Binary64

def zero (negative : Bool) : Binary64 := ⟨negative, 0, -1074⟩

def isZero (x : Binary64) : Bool := x.significand == 0

/-- Two numbers are equal in value when they are the same or both zero. -/
def sameValue (x y : Binary64) : Bool := x == y || (x.isZero && y.isZero)

/-- The exponent that gives `num / den` a significand of 53 bits, but at least
    the least exponent. -/
def exponentOf (num den : Nat) : Int :=
  let estimate := max (-1074) ((Nat.log2 num : Int) - Nat.log2 den - 53)
  let (top, bottom) := ratioTo num den estimate
  if twoTo 53 ≤ top / bottom then estimate + 1 else estimate

/-- The number nearest to `num / den`, of two equally near ones the one with the
    even significand; none if it is too large. -/
def nearest (negative : Bool) (num den : Nat) : Option Binary64 :=
  if num = 0 then some (zero negative)
  else
    let exponent := exponentOf num den
    let (top, bottom) := ratioTo num den exponent
    let significand := roundDiv top bottom
    let (significand, exponent) :=
      if significand = twoTo 53 then (twoTo 52, exponent + 1) else (significand, exponent)
    if 971 < exponent then none else some ⟨negative, significand, exponent⟩

def ratio (x : Binary64) : Nat × Nat :=
  if 0 ≤ x.exponent then (x.significand * twoTo x.exponent.toNat, 1)
  else (x.significand, twoTo (-x.exponent).toNat)

/-- The rounded product of two magnitudes. -/
def mul (x y : Binary64) : Option Binary64 :=
  let (xTop, xBottom) := x.ratio
  let (yTop, yBottom) := y.ratio
  nearest x.negative (xTop * yTop) (xBottom * yBottom)

/-- The rounded quotient of two magnitudes, the second not zero. -/
def div (x y : Binary64) : Option Binary64 :=
  let (xTop, xBottom) := x.ratio
  let (yTop, yBottom) := y.ratio
  nearest x.negative (xTop * yBottom) (xBottom * yTop)

end Binary64

/-- A power of ten, rounded.  It is finite for exponents up to 308. -/
def powerOfTen (exponent : Nat) : Option Binary64 :=
  Binary64.nearest false (tenTo exponent) 1

/-- The number nearest to `digits * 10 ^ exponent`; none if it is too large.  Far
    outside the range of the format the power itself is never computed. -/
def Binary64.ofDecimal (negative : Bool) (digits : Nat) (exponent : Int) :
    Option Binary64 :=
  if digits = 0 then some (zero negative)
  else
    let size := exponent + (Nat.log2 digits : Int) / 3
    if 320 < exponent then none
    else if size < -400 then some (zero negative)
    else if 0 ≤ exponent then nearest negative (digits * tenTo exponent.toNat) 1
    else nearest negative digits (tenTo (-exponent).toNat)

/-- A decimal scaled in steps that each round: the digits first, then one
    multiplication or division by a power of ten, or, below the least power, as
    many divisions by `10 ^ 308` as it takes.  It differs from `ofDecimal` in the
    last place for a few long literals. -/
def Binary64.ofScaled (negative : Bool) (digits : Nat) (exponent : Int) :
    Option Binary64 := do
  let value ← nearest negative digits 1
  if value.isZero then some value
  else if 308 < exponent then none
  else if 0 ≤ exponent then value.mul (← powerOfTen exponent.toNat)
  else if -308 ≤ exponent then value.div (← powerOfTen (-exponent).toNat)
  else
    let step ← powerOfTen 308
    let value ← value.div step
    if -616 ≤ exponent then value.div (← powerOfTen (-exponent - 308).toNat)
    else some (zero negative)

end PathQuery.Decimal

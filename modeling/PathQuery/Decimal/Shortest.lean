import PathQuery.Decimal.Binary64

namespace PathQuery.Decimal

/-! # The shortest decimal

A number is written with the fewest digits that read back as it, and of those
with the nearest.  The reals that round to `significand * 2 ^ exponent` form an
interval; for one digit, two digits and so on the two neighbours of the number on
that decimal grid are tested, and the first grid with a hit gives the digits.
-/

/-- The reals that round to a number, in units of `2 ^ (exponent - 2)`: the number
    itself and the two ends, which belong to it iff the significand is even. -/
structure Interval where
  low : Nat
  middle : Nat
  high : Nat
  closed : Bool
  exponent : Int

/-- The number below a power of two is only half as far away as the one above. -/
def Binary64.interval (x : Binary64) : Interval where
  low := if x.significand = twoTo 52 ∧ -1074 < x.exponent then 4 * x.significand - 1
    else 4 * x.significand - 2
  middle := 4 * x.significand
  high := 4 * x.significand + 2
  closed := x.significand % 2 == 0
  exponent := x.exponent - 2

/-- `digits * 10 ^ exponent`. -/
structure Digits where
  digits : Nat
  exponent : Int
  deriving DecidableEq

/-- An interval and a decimal grid over a common denominator: the ends and the
    middle, and the distance of two grid points. -/
def Interval.onGrid (i : Interval) (gridExponent : Int) : Nat × Nat × Nat × Nat :=
  let binary := twoTo i.exponent.natAbs
  let decimal := tenTo gridExponent.natAbs
  let scale := (if 0 ≤ i.exponent then binary else 1) *
    (if 0 ≤ gridExponent then 1 else decimal)
  let step := (if 0 ≤ i.exponent then 1 else binary) *
    (if 0 ≤ gridExponent then decimal else 1)
  (i.low * scale, i.middle * scale, i.high * scale, step)

/-- The grid point nearest to the middle that lies in the interval, if one of the
    two neighbours of the middle does; of two equally near ones the even one. -/
def Interval.gridPoint (i : Interval) (gridExponent : Int) : Option Nat :=
  let (low, middle, high, step) := i.onGrid gridExponent
  let below := middle / step
  let inside (point : Nat) : Bool :=
    if i.closed then low ≤ point * step && point * step ≤ high
    else low < point * step && point * step < high
  let toBelow := middle - below * step
  let toAbove := (below + 1) * step - middle
  match inside below, inside (below + 1) with
  | false, false => none
  | true, false => some below
  | false, true => some (below + 1)
  | true, true =>
    if toBelow < toAbove then some below
    else if toAbove < toBelow then some (below + 1)
    else if below % 2 = 0 then some below else some (below + 1)

/-- The exponent of the first digit of a positive number: the largest `e` with
    `10 ^ e` not above it. -/
def Binary64.decimalExponent (x : Binary64) : Int :=
  let (top, bottom) := x.ratio
  let estimate : Int := ((Nat.log2 top : Int) - Nat.log2 bottom) * 30103 / 100000
  let fits (e : Int) : Bool :=
    if 0 ≤ e then tenTo e.toNat * bottom ≤ top else bottom ≤ top * tenTo (-e).toNat
  if fits (estimate + 1) then estimate + 1
  else if fits estimate then estimate
  else estimate - 1

/-- Digits without trailing zeros; a grid of few digits can only end in one. -/
def Digits.strip (d : Digits) : Digits :=
  if d.digits ≠ 0 ∧ d.digits % 10 = 0 then ⟨d.digits / 10, d.exponent + 1⟩ else d

/-- The first hit among the grids of `count` digits and more. -/
def Binary64.shortestFrom (x : Binary64) (count : Nat) : Nat → Digits
  | 0 => ⟨x.significand, 0⟩
  | fuel + 1 =>
    let gridExponent := x.decimalExponent - (count : Int) + 1
    match x.interval.gridPoint gridExponent with
    | some point => Digits.strip ⟨point, gridExponent⟩
    | none => x.shortestFrom (count + 1) fuel

/-- The shortest digits of a positive number; seventeen always suffice. -/
def Binary64.shortest (x : Binary64) : Digits := x.shortestFrom 1 17

/-- How a number is written: positional between two exponents of its first digit,
    with the exponent and its sign after `e` elsewhere. -/
structure Layout where
  leastPositional : Int
  mostPositional : Int

def zeros (count : Nat) : String := String.ofList (List.replicate count '0')

def Digits.text (layout : Layout) (d : Digits) : String :=
  let digits := (Nat.toDigits 10 d.digits)
  let first : Int := d.exponent + digits.length - 1
  if layout.leastPositional ≤ first ∧ first ≤ layout.mostPositional then
    if first < 0 then "0." ++ zeros (-first - 1).toNat ++ String.ofList digits
    else
      let whole := first.toNat + 1
      let fraction := digits.drop whole
      String.ofList (digits.take whole) ++ zeros (whole - digits.length) ++ "." ++
        (if fraction.isEmpty then "0" else String.ofList fraction)
  else
    let fraction := digits.drop 1
    let mantissa := String.ofList (digits.take 1) ++
      (if fraction.isEmpty then "" else "." ++ String.ofList fraction)
    let exponent := String.ofList (Nat.toDigits 10 first.natAbs)
    mantissa ++ (if first < 0 then "e-" else "e+") ++ exponent

/-- The shortest text of a number in a layout. -/
def Binary64.text (layout : Layout) (x : Binary64) : String :=
  (if x.negative then "-" else "") ++
    (if x.isZero then "0.0" else x.shortest.text layout)

end PathQuery.Decimal

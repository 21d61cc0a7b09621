/-
The shortest decimal digits of a double.

The reals that round to a double form an interval around it.  `shortest` looks at ever finer
decimal grids and takes the first one with a point in that interval: fewer digits cannot be read
back.  Of two such points the nearer is taken, and `Tie` settles a value half way between them.
-/
import MapStyle.Decimal.Binary

namespace MapStyle

/-- Which of two decimal neighbours stands for a value half way between them. -/
inductive Tie where
  | up
  | even
deriving DecidableEq, Repr

/-- The number `digits · 10 ^ exponent`. -/
structure Digits where
  digits : Nat
  exponent : Int
deriving DecidableEq, Repr

namespace Digits

/-- The same number with one final zero moved into the exponent, as often as `fuel` allows. -/
def strip : Nat → Digits → Digits
  | 0, d => d
  | fuel + 1, d =>
    if d.digits ≠ 0 ∧ d.digits % 10 = 0 then strip fuel ⟨d.digits / 10, d.exponent + 1⟩ else d

/-- A positive double and the reals that round to it, all as multiples of a common unit:
`least ≤ value ≤ greatest`, the ends included when `closed`. -/
structure Interval where
  least : Nat
  value : Nat
  greatest : Nat
  closed : Bool

/-- The interval of `mantissa · 2 ^ exponent` in quarters of `2 ^ exponent`.  Just below a power
of two the doubles lie closer together, so there the lower end is nearer. -/
def Interval.ofBinary (mantissa : Nat) (exponent : Int) : Interval where
  least :=
    if mantissa = Nat.pow 2 Binary.fractionBits ∧ Binary.leastExponent < exponent then
      4 * mantissa - 1
    else 4 * mantissa - 2
  value := 4 * mantissa
  greatest := 4 * mantissa + 2
  closed := mantissa % 2 == 0

/-- Whether `point`, in the unit of the interval times `scale`, rounds to the double. -/
def Interval.holds (i : Interval) (scale point : Nat) : Bool :=
  if i.closed then i.least * scale ≤ point && point ≤ i.greatest * scale
  else i.least * scale < point && point < i.greatest * scale

/-- The point of the grid `10 ^ grid` that stands for the value, if one lies in the interval.
`quarter` is the exponent of two of the interval's unit. -/
def onGrid (tie : Tie) (i : Interval) (quarter grid : Int) : Option Nat :=
  let scale := Nat.pow 2 quarter.toNat * Nat.pow 10 (-grid).toNat
  let step := Nat.pow 10 grid.toNat * Nat.pow 2 (-quarter).toNat
  let value := i.value * scale
  let lower := value / step
  let upper := lower + 1
  match i.holds scale (lower * step), i.holds scale (upper * step) with
  | true, false => some lower
  | false, true => some upper
  | false, false => none
  | true, true =>
    let below := value - lower * step
    let above := upper * step - value
    if below < above then some lower
    else if above < below then some upper
    else match tie with
      | .up => some upper
      | .even => some (if lower % 2 = 0 then lower else upper)

/-- The first of `fuel` grids from `grid` down that has a point in the interval. -/
def firstGrid (tie : Tie) (i : Interval) (quarter : Int) : Nat → Int → Option Digits
  | 0, _ => none
  | fuel + 1, grid =>
    match onGrid tie i quarter grid with
    | some n => some ⟨n, grid⟩
    | none => firstGrid tie i quarter fuel (grid - 1)

/-- All decimal digits of `mantissa · 2 ^ exponent`. -/
def exact (mantissa : Nat) (exponent : Int) : Digits :=
  ⟨mantissa * Nat.pow 2 exponent.toNat * Nat.pow 5 (-exponent).toNat, min exponent 0⟩

/-- A grid at least as coarse as the number `mantissa · 2 ^ exponent` itself. -/
def coarsest (mantissa : Nat) (exponent : Int) : Int :=
  ((Nat.log2 mantissa : Int) + exponent) * 30103 / 100000 + 1

/-- The fewest digits that read back as the positive double `mantissa · 2 ^ exponent`. -/
def shortest (tie : Tie) (mantissa : Nat) (exponent : Int) : Digits :=
  let i := Interval.ofBinary mantissa exponent
  let found := firstGrid tie i (exponent - 2) 20 (coarsest mantissa exponent)
  let d := found.getD (exact mantissa exponent)
  strip (Nat.log2 d.digits + 1) d

end Digits
end MapStyle

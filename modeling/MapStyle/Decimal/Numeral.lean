/-
Decimal numerals.

`numeral?` reads the usual written form of a number: a sign, digits with an optional point and an
optional exponent, or one of the words for infinity and NaN.  The result is the double nearest to
the number that is written, however many digits it has.
-/
import MapStyle.Decimal.Binary

namespace MapStyle

/-- The double nearest to `± digits · 10 ^ exponent`.  Numbers far outside the range of doubles
are settled by their size alone. -/
def nearestDecimal (negative : Bool) (digits : Nat) (exponent : Int) : Float :=
  let size : Int := (Nat.toDigits 10 digits).length + exponent
  if digits = 0 ∨ size < -330 then Binary.withSign negative 0
  else if 310 < size then Binary.withSign negative Binary.infinityBits
  else
    Binary.nearest negative (digits * Nat.pow 10 exponent.toNat) (Nat.pow 10 (-exponent).toNat)

namespace Numeral

/-- The number that a run of digits continues from `n`. -/
def value (n : Nat) (ds : List Char) : Nat :=
  ds.foldl (fun n c => 10 * n + (c.toNat - '0'.toNat)) n

/-- A sign, if there is one: whether it is a minus, and what follows. -/
def sign : List Char → Bool × List Char
  | '-' :: cs => (true, cs)
  | '+' :: cs => (false, cs)
  | cs => (false, cs)

/-- The exponent that ends a numeral: nothing, or `e`, a sign and at least one digit. -/
def exponent? : List Char → Option Int
  | [] => some 0
  | c :: cs =>
    if c = 'e' ∨ c = 'E' then
      let (negative, ds) := sign cs
      if ds ≠ [] ∧ ds.all Char.isDigit then
        some (if negative then -(value 0 ds : Int) else value 0 ds)
      else none
    else none

/-- Digits with an optional point among or around them, then an exponent. -/
def unsigned? (negative : Bool) (cs : List Char) : Option Float :=
  let whole := cs.takeWhile Char.isDigit
  let rest := cs.dropWhile Char.isDigit
  let (fraction, rest) := match rest with
    | '.' :: more => (more.takeWhile Char.isDigit, more.dropWhile Char.isDigit)
    | _ => ([], rest)
  if whole = [] ∧ fraction = [] then none
  else (exponent? rest).map fun e =>
    nearestDecimal negative (value (value 0 whole) fraction) (e - fraction.length)

/-- The words for infinity and NaN, in any case. -/
def word? (negative : Bool) (cs : List Char) : Option Float :=
  let word := String.ofList (cs.map Char.toLower)
  if word = "inf" ∨ word = "infinity" then
    some (Binary.withSign negative Binary.infinityBits)
  else if word = "nan" then some (0.0 / 0.0)
  else none

end Numeral

/-- The number that a whole text writes. -/
def numeral? (cs : List Char) : Option Float :=
  let (negative, rest) := Numeral.sign cs
  (Numeral.word? negative rest).or (Numeral.unsigned? negative rest)

end MapStyle

/-
Numbers as JSON texts write them.

A whole number that fits 64 bits keeps its digits; every other number becomes a double.  The
double is not always the nearest one: as many leading digits as fit 64 bits are taken, rounded,
and then multiplied or divided by one power of ten.
-/
import MapStyle.Json.Basic
import MapStyle.Decimal.Numeral

namespace MapStyle.JsonNumeral

/-- The largest significand that is gathered. -/
def maxSignificand : Nat := UInt64.size - 1

/-- Takes digits into a significand as long as it fits; the digits that are left over follow. -/
def gather (significand : Nat) : List Char → Nat × List Char
  | [] => (significand, [])
  | c :: cs =>
    let next := 10 * significand + (c.toNat - '0'.toNat)
    if next ≤ maxSignificand then gather next cs else (significand, c :: cs)

def powerOfTen (n : Nat) : Float := Binary.nearest false (Nat.pow 10 n) 1

/-- The product `f · 10 ^ exponent` in at most `fuel` steps, each with a power of ten that is a
double. -/
def scale : Nat → Float → Int → Float
  | 0, _, _ => 0
  | fuel + 1, f, exponent =>
    if 0 ≤ exponent then f * powerOfTen exponent.toNat
    else if exponent.natAbs ≤ 308 then f / powerOfTen exponent.natAbs
    else scale fuel (f / powerOfTen 308) (exponent + 308)

/-- The double `± significand · 10 ^ exponent`; `none` when it is too large.  Three divisions are
enough: two of them take every significand to zero. -/
def double? (negative : Bool) (significand : Nat) (exponent : Int) : Option Number :=
  let f := Binary.nearest false significand 1
  if significand ≠ 0 ∧ 308 < exponent then none
  else
    let x := if significand = 0 then f else scale 4 f exponent
    Number.double? (if negative then -x else x)

/-- The parts of a numeral. -/
structure Parts where
  negative : Bool
  whole : List Char
  fraction : List Char
  exponent : Int
  /-- Written without a fraction and an exponent. -/
  plain : Bool

/-- The number of a numeral, `none` when it is too large. -/
def number? (p : Parts) : Option Number :=
  let (significand, dropped) := gather 0 p.whole
  if p.plain ∧ dropped = [] then
    if !p.negative then some (.int significand)
    else if significand ≠ 0 ∧ significand ≤ 0x8000000000000000 then some (.int (-significand))
    else double? true significand 0
  else
    let (all, ignored) := gather significand p.fraction
    double? p.negative all
      (p.exponent + dropped.length - (p.fraction.length - ignored.length : Nat))

def digits (cs : List Char) : List Char × List Char :=
  (cs.takeWhile Char.isDigit, cs.dropWhile Char.isDigit)

/-- The fraction that follows, if there is a point: at least one digit. -/
def fraction? : List Char → Option (Bool × List Char × List Char)
  | '.' :: cs => match digits cs with
    | ([], _) => none
    | (ds, rest) => some (true, ds, rest)
  | cs => some (false, [], cs)

/-- The exponent that follows, if there is an `e`: a sign and at least one digit. -/
def exponent? : List Char → Option (Bool × Int × List Char)
  | [] => some (false, 0, [])
  | c :: cs =>
    if c = 'e' ∨ c = 'E' then
      let (negative, more) := Numeral.sign cs
      match digits more with
      | ([], _) => none
      | (ds, rest) =>
        let n : Int := Numeral.value 0 ds
        some (true, if negative then -n else n, rest)
    else some (false, 0, c :: cs)

/-- Reads a numeral off the front of a text.  A whole part of several digits does not begin with
zero. -/
def read? (cs : List Char) : Option (Number × List Char) := do
  let (negative, unsigned) := match cs with
    | '-' :: rest => (true, rest)
    | _ => (false, cs)
  let (whole, rest) := digits unsigned
  guard (whole ≠ [] ∧ (whole.head? ≠ some '0' ∨ whole.length = 1))
  let (hasPoint, fraction, rest) ← fraction? rest
  let (hasExponent, exponent, rest) ← exponent? rest
  let n ← number? ⟨negative, whole, fraction, exponent, !hasPoint && !hasExponent⟩
  pure (n, rest)

end MapStyle.JsonNumeral

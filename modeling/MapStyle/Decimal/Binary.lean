/-
Doubles as exact numbers.

A finite double is `± mantissa · 2 ^ exponent` with natural `mantissa`.  `Binary.ofFloat?` reads
that form off the bits, `nearest` goes back: it rounds a quotient of naturals to the nearest
double, ties to the even one.  Whole numbers, rounding and the exact remainder of a division are
stated on this form, so nothing here depends on the rounding of an intermediate result.
-/
namespace MapStyle

/-- A finite double read exactly: `± mantissa · 2 ^ exponent`. -/
structure Binary where
  negative : Bool
  mantissa : Nat
  exponent : Int
deriving DecidableEq, Repr

namespace Binary

def fractionBits : Nat := 52

/-- The exponent of the smallest positive double. -/
def leastExponent : Int := -1074

/-- Bits of positive infinity: above those of every finite positive double. -/
def infinityBits : Nat := 0x7FF0000000000000

def signBit : Nat := 0x8000000000000000

/-- The exact form of a finite double; infinities and NaN have none. -/
def ofFloat? (x : Float) : Option Binary :=
  let bits := x.toBits.toNat
  let biased := bits / Nat.pow 2 fractionBits % Nat.pow 2 11
  let fraction := bits % Nat.pow 2 fractionBits
  let negative := decide (signBit ≤ bits)
  if biased = 0x7FF then none
  else if biased = 0 then some ⟨negative, fraction, leastExponent⟩
  else some ⟨negative, Nat.pow 2 fractionBits + fraction, leastExponent + (biased - 1 : Nat)⟩

/-- The double with the given sign whose magnitude has the given bits. -/
def withSign (negative : Bool) (bits : Nat) : Float :=
  Float.ofBits (UInt64.ofNat (if negative then signBit + bits else bits))

/-- The quotient `num / den` to the nearest whole number, a tie to the even one. -/
def roundHalfEven (num den : Nat) : Nat :=
  let q := num / den
  let r := num % den
  if den < 2 * r || (2 * r == den && q % 2 == 1) then q + 1 else q

/-- The exponent at which `num / den` has 53 bits, or the least one there is. -/
def roundingExponent (num den : Nat) : Int :=
  let k : Int := (Nat.log2 num : Int) - (Nat.log2 den : Int)
  let below := num * Nat.pow 2 (-k).toNat < den * Nat.pow 2 k.toNat
  max leastExponent ((if below then k - 1 else k) - fractionBits)

/-- The bits of the double nearest to `num / den`, ties to the even mantissa.  The exponent and
the mantissa are added, so a mantissa that rounds up to the next power of two carries into the
exponent by itself. -/
def nearestBits (num den : Nat) : Nat :=
  if num = 0 then 0
  else
    let q := roundingExponent num den
    let mantissa := roundHalfEven (num * Nat.pow 2 (-q).toNat) (den * Nat.pow 2 q.toNat)
    (q - leastExponent).toNat * Nat.pow 2 fractionBits + mantissa

/-- The double nearest to `± num / den`; infinite where the quotient is too large. -/
def nearest (negative : Bool) (num den : Nat) : Float :=
  withSign negative (min (nearestBits num den) infinityBits)

/-- The finite double nearest to `± num / den`. -/
def nearestFinite (negative : Bool) (num den : Nat) : Float :=
  withSign negative (min (nearestBits num den) (infinityBits - 1))

/-- The double nearest to an exact form. -/
def toFloat (b : Binary) : Float :=
  nearest b.negative (b.mantissa * Nat.pow 2 b.exponent.toNat) (Nat.pow 2 (-b.exponent).toNat)

/-- The magnitude of a whole number, `none` when there is a fraction. -/
def whole? (b : Binary) : Option Nat :=
  let unit := Nat.pow 2 (-b.exponent).toNat
  if b.mantissa % unit = 0 then some (b.mantissa / unit * Nat.pow 2 b.exponent.toNat)
  else none

end Binary

/-- The whole number that a double is, if it is one. -/
def wholeNumber? (x : Float) : Option Int := do
  let b ← Binary.ofFloat? x
  let n ← b.whole?
  pure (if b.negative then -n else n)

/-- Finite and without a fraction. -/
def isWhole (x : Float) : Bool := (wholeNumber? x).isSome

/-- The nearest whole number, a half away from zero; the sign of zero is kept. -/
def roundAway (x : Float) : Float :=
  match Binary.ofFloat? x with
  | none => x
  | some b =>
    let unit := Nat.pow 2 (-b.exponent).toNat
    if unit = 1 then x
    else Binary.nearest b.negative ((2 * b.mantissa + unit) / (2 * unit)) 1

/-- The remainder of `x / y` truncated toward zero: exact, with the sign of `x`. -/
def remainder (x y : Float) : Float :=
  match Binary.ofFloat? x, Binary.ofFloat? y with
  | some a, some b =>
    if b.mantissa = 0 then 0.0 / 0.0
    else
      let q := min a.exponent b.exponent
      let n := a.mantissa * Nat.pow 2 (a.exponent - q).toNat
      let d := b.mantissa * Nat.pow 2 (b.exponent - q).toNat
      Binary.toFloat ⟨a.negative, n % d, q⟩
  | some _, none => if y.isNaN then y else x
  | none, _ => 0.0 / 0.0

/-- The largest whole number up to which the doubles have all of them: `2 ^ 53 - 1`. -/
def maxSafeInteger : Float := 9007199254740991.0

end MapStyle

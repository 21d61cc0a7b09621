/-
Number texts.

A `Layout` holds the decisions of one written form of numbers: how far they are written
positionally, whether whole numbers show a fraction, how ties among shortest digits go.  The three
layouts of the library stand at the end.
-/
import MapStyle.Decimal.Digits

namespace MapStyle

/-- One written form of the finite doubles. -/
structure Layout where
  /-- Which digits stand for a value half way between two shortest ones. -/
  tie : Tie
  /-- Powers of ten of the leading digit that are written positionally; `none` for all. -/
  positional : Option (Int × Int)
  /-- Whole positional numbers end in `.0`. -/
  showsFraction : Bool

namespace Layout

def zeros (count : Nat) : String := String.ofList (List.replicate count '0')

/-- The digits `ds` with the decimal point after the first `point` of them. -/
def positionalText (layout : Layout) (ds : String) (point : Int) : String :=
  if point ≤ 0 then "0." ++ zeros (-point).toNat ++ ds
  else if point < ds.length then
    String.ofList (ds.toList.take point.toNat) ++ "." ++ String.ofList (ds.toList.drop point.toNat)
  else ds ++ zeros (point.toNat - ds.length) ++ (if layout.showsFraction then ".0" else "")

/-- Scientific text, as in `d.ddde+XX`: the exponent always shows its sign. -/
def scientificText (ds : String) (power : Int) : String :=
  let mantissa := match ds.toList with
    | [] => ""
    | [c] => String.singleton c
    | c :: cs => String.singleton c ++ "." ++ String.ofList cs
  mantissa ++ "e" ++ (if power < 0 then "-" else "+") ++ toString power.natAbs

def digitsText (layout : Layout) (d : Digits) : String :=
  let ds := toString d.digits
  let point : Int := ds.length + d.exponent
  match layout.positional with
  | none => layout.positionalText ds point
  | some (low, high) =>
    if low ≤ point - 1 ∧ point - 1 ≤ high then layout.positionalText ds point
    else scientificText ds (point - 1)

def binaryText (layout : Layout) (b : Binary) : String :=
  (if b.negative then "-" else "") ++
    (if b.mantissa = 0 then (if layout.showsFraction then "0.0" else "0")
     else layout.digitsText (Digits.shortest layout.tie b.mantissa b.exponent))

end Layout

/-- JSON text of doubles: positional from `1e-5` up to `1e16`, whole numbers with `.0`. -/
def Layout.json : Layout := ⟨.even, some (-5, 15), true⟩

/-- Labels and `to-string`: positional from `1e-6` up to `1e21`. -/
def Layout.label : Layout := ⟨.up, some (-6, 20), false⟩

/-- Color channels: always positional. -/
def Layout.channel : Layout := ⟨.up, none, false⟩

/-- A number as labels and `to-string` show it; both zeros are `0`. -/
def numberText (x : Float) : String :=
  match Binary.ofFloat? x with
  | some b => if b.mantissa = 0 then "0" else Layout.label.binaryText b
  | none => if x.isNaN then "NaN" else if x < 0 then "-Infinity" else "Infinity"

/-- A number as a color shows its channels; the sign of zero is kept. -/
def channelText (x : Float) : String :=
  match Binary.ofFloat? x with
  | some b => Layout.channel.binaryText b
  | none => if x.isNaN then "NaN" else if x < 0 then "-inf" else "inf"

end MapStyle

/-
Kinds of curves.

An interpolation says how a curve blends between two neighbouring stops; `blendFraction` is how far
an input lies between them.
-/
import MapStyle.Curve.Easing
import MapStyle.Json.Basic

namespace MapStyle

/-- How a curve blends between neighbouring stops. -/
inductive Interpolation where
  /-- The output of the lower stop. -/
  | step
  | linear
  /-- Growth toward the upper stop; `base` 1 is linear. -/
  | exponential (base : Float)
  /-- The linear fraction, eased. -/
  | cubicBezier (points : ControlPoints)

namespace Interpolation

def name : Interpolation → String
  | step => "step"
  | linear => "linear"
  | exponential _ => "exponential"
  | cubicBezier _ => "cubic-bezier"

def parameters : Interpolation → List Float
  | step => []
  | linear => []
  | exponential base => [base]
  | cubicBezier p => p.toList

def toJson (i : Interpolation) : Json := .call i.name (i.parameters.map .ofFloat)

/-- Whether outputs are never blended. -/
def isStep : Interpolation → Bool
  | step => true
  | _ => false

end Interpolation

/-- How far `input` lies between `lower` and `upper`, on a scale that grows with `base`; 0 when
they are equal.  The numbers are left open, and so is their power. -/
def blendFraction {α : Type} [Sub α] [Div α] [BEq α] [OfNat α 0] [OfNat α 1] (power : α → α → α)
    (input base lower upper : α) : α :=
  let difference := upper - lower
  let progress := input - lower
  if difference == 0 then 0
  else if base == 1 then progress / difference
  else (power base progress - 1) / (power base difference - 1)

/-- How far `input` lies between `lower` and `upper`, as a double. -/
def fraction (input base lower upper : Float) : Float :=
  blendFraction Float.pow input base lower upper

end MapStyle

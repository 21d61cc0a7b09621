/-
Checking `curve`.

The labels of the stops are literal numbers in strictly ascending order.  Unless the curve is
stepped, the type of its outputs has to be one that can be blended.
-/
import MapStyle.Typing.Context

namespace MapStyle.Typing

/-- The interpolation of a name and parameters. -/
def interpolationOf (name : Json) (parameters : List Json) (ctx : Context) :
    Reporting (Option Interpolation) :=
  match name.str? with
  | some "step" => pure (some .step)
  | some "linear" => pure (some .linear)
  | some "exponential" =>
    match parameters.head?.bind Json.num? with
    | some base => pure (some (.exponential base))
    | none => ctx.reportAt [1, 1] .missingBase
  | some "cubic-bezier" =>
    match (parameters.filterMap Json.num?).filter (inRange 0 1), parameters with
    | [x1, y1, x2, y2], [_, _, _, _] => pure (some (.cubicBezier ⟨x1, y1, x2, y2⟩))
    | _, _ => ctx.reportAt [1] .controlPoints
  | _ => ctx.reportAt [1, 0] (.unknownInterpolation name)

def interpolation (j : Json) (ctx : Context) : Reporting (Option Interpolation) :=
  match j with
  | .arr (name :: parameters) => interpolationOf name parameters ctx
  | _ => ctx.reportAt [1] .missingInterpolation

/-- What is known after some stops: the type that the outputs share, and the last label. -/
structure StopsSeen where
  shared : Option Ty
  last : Option Float

/-- Checks a stop: its label against the one before, then its output. -/
def nextStop (ctx : Context) (seen : StopsSeen) (stop : (Arg × Arg) × Nat) :
    Reporting (StopsSeen × Option (Float × Expr)) := do
  let ((label, output), k) := stop
  let i := 2 * k + 3
  match label.raw.num? with
  | none => pure (seen, ← ctx.reportAt [i] (.stopLabelKind label.raw.kind))
  | some x =>
    if maxSafeInteger < x.abs then pure (seen, ← ctx.reportAt [i] .stopLabelTooLarge)
    else if seen.last.any (fun last => x ≤ last) then
      pure (seen, ← ctx.reportAt [i] .stopsNotAscending)
    else
      match ← output.checkOutput ctx (i + 1) seen.shared with
      | (shared, some e) => pure (⟨shared, some x⟩, some (x, e))
      | (shared, none) => pure (⟨shared, seen.last⟩, none)

/-- A curve whose parts are all right, provided that its outputs can be blended. -/
def curveOf (ctx : Context) (interpolation : Interpolation) (input : Expr) (ty : Ty)
    (stops : List (Float × Expr)) : Reporting (Option Expr) :=
  if interpolation.isStep || ctx.interpolators.supports ty then
    pure (some (.curve ctx.path ty interpolation input (stops.map (·.1)) (stops.map (·.2))))
  else ctx.report (.notInterpolatable ty interpolation.name)

/-- Checks `["curve", interpolation, input, label, output, …]`. -/
def curve (args : List Arg) (ctx : Context) : Reporting (Option Expr) :=
  if args.length < 4 then ctx.report (.fewArguments args.length)
  else match args with
    | description :: input :: rest =>
      match inPairs rest with
      | (stops, none) => do
        let kind ← interpolation description.raw ctx
        let input ← input.check (ctx.child 2 (some .number))
        let (seen, checked) ← Reporting.sweep (nextStop ctx) ⟨ctx.expected, none⟩ stops.zipIdx
        match kind, input, checked with
        | some kind, some input, some stops =>
          curveOf ctx kind input (seen.shared.getD .null) stops
        | _, _, _ => pure none
      | (_, some _) => ctx.report .argumentsNotEven
    | _ => ctx.report .argumentsNotEven

end MapStyle.Typing

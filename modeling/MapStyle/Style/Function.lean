/-
Style functions.

A definition of a style property is a constant, an expression or a stop function.  It becomes one
compiled expression.  If that depends on the zoom level, it has to do so through a single curve
over the zoom level, whose labels are the only zooms at which the function needs to be sampled.
-/
import MapStyle.Compiled
import MapStyle.Style.Conversion

namespace MapStyle

/-- A curve over the zoom level inside an expression. -/
structure ZoomCurve where
  path : Path
  ty : Ty
  interpolation : Interpolation
  labels : List Float
  outputs : List Expr

namespace ZoomCurve

/-- One of two curves that may be there; two are one too many, and the second is blamed. -/
def merge (found next : Option ZoomCurve) : Except ConfigError (Option ZoomCurve) :=
  match found, next with
  | some _, some c => throw (.severalZoomCurves c.path)
  | some c, none => pure (some c)
  | none, next => pure next

mutual

/-- The zoom curve of an expression: the expression itself, or one in an argument of a `coalesce`
or the body of a `let`. -/
def find : Expr → Except ConfigError (Option ZoomCurve)
  | .curve p t interpolation input labels outputs =>
    pure (if input.isCallOf .zoom then some ⟨p, t, interpolation, labels, outputs⟩ else none)
  | .letIn _ _ _ body => find body
  | .coalesce _ _ args => findAmong none args
  | _ => pure none

/-- The zoom curve among expressions, after those in which `found` was found. -/
def findAmong (found : Option ZoomCurve) : List Expr → Except ConfigError (Option ZoomCurve)
  | [] => pure found
  | e :: es => do
    let next ← find e
    findAmong (← merge found next) es

end

/-- Labels and their indices in turn. -/
def positions (labels : List Float) : List Json :=
  labels.zipIdx.flatMap fun (x, i) => [.double x, .ofNat i]

/-- The expression of the position along the labels: the curve with stop indices as outputs. -/
def positionJson (c : ZoomCurve) : Json :=
  .call "coalesce" [
    .call "curve" (c.interpolation.toJson :: Conversion.zoom :: positions c.labels), .ofNat 0]

end ZoomCurve

/-- A style function that depends on the zoom level has labels and a position along them. -/
structure ZoomSampling where
  stops : List Float
  position : Compiled

/-- A compiled style property. -/
structure StyleFunction where
  compiled : Compiled
  sampling : Option ZoomSampling

namespace StyleFunction

/-- Whether a member is there and neither null nor false. -/
def isSet (j : Option Json) : Bool :=
  match j with
  | none => false
  | some .null => false
  | some (.bool false) => false
  | some _ => true

def isText (s : String) (j : Option Json) : Bool := (j.bind Json.str?) == some s

/-- Whether a definition is a function and not a constant. -/
def isFunction (definition : Json) : Bool :=
  isSet (definition.get? "expression") || isSet (definition.get? "stops") ||
    isText "identity" (definition.get? "type")

def expression (definition : Json) (spec : PropertySpec) : Except StyleError Json :=
  if !isFunction definition then pure (Conversion.constant spec definition)
  else match definition.get? "expression" with
    | some e => pure (.call "coalesce" [e, Conversion.defaultOf spec spec.default])
    | none =>
      match StopFunction.ofJson? definition with
      | none => throw .malformed
      | some f => (Conversion.ofStops f spec).mapError .config

/-- The labels and the position of the zoom curve of an expression that depends on the zoom. -/
def sample (c : Compiled) : Except StyleError ZoomSampling := do
  match ← (ZoomCurve.find c.root).mapError .config with
  | none => throw (.config .zoomOutsideCurve)
  | some curve =>
    let position ← (compile curve.positionJson (some .number) c.interpolators).mapError .parse
    pure ⟨curve.labels, position⟩

/-- The style function of a definition. -/
def create (definition : Json) (spec : PropertySpec) (interpolators : Interpolators) :
    Except StyleError StyleFunction := do
  let j ← expression definition spec
  let compiled ← (compile j (some spec.expectedTy) interpolators).mapError .parse
  if compiled.isZoomConstant then pure ⟨compiled, none⟩
  else pure ⟨compiled, some (← sample compiled)⟩

/-- The value for a zoom level and a feature, `none` for null, and the easings that are there
afterwards. -/
def evaluate (f : StyleFunction) (easings : EasingCache) (zoom : Float) (properties : Properties) :
    Outcome (Option Value) × EasingCache :=
  let (outcome, easings) := f.compiled.evaluate easings zoom properties
  (outcome.map fun v => if v.isNull then none else some v, easings)

/-- The position of a zoom level along the labels: the index of a stop and the fraction towards
the next one. -/
def position (f : StyleFunction) (zoom : Float) : Outcome (Option Float) :=
  match f.sampling with
  | none => pure none
  | some s => (s.position.evaluate .empty zoom []).1.map Value.number?

end StyleFunction
end MapStyle

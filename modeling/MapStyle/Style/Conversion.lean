/-
Constants and stop functions as expressions.

Constants are quoted, so that no data is taken for a call.  A stop function becomes a curve, a
`match` or an assertion inside a `coalesce` with its default.
-/
import MapStyle.Color.Css
import MapStyle.Style.Error
import MapStyle.Style.StopFunction
import MapStyle.Style.PropertySpec

namespace MapStyle

namespace Conversion

/-- The expression of a constant: color texts as calls, arrays and objects quoted. -/
def constant (spec : PropertySpec) (j : Json) : Json :=
  match j, spec.kind with
  | .str s, .color =>
    match Css.color? s with
    | some c => .call "rgba" (c.wire.map .ofFloat)
    | none => j
  | .arr _, _ => .call "literal" [j]
  | .obj _, _ => .call "literal" [j]
  | _, _ => j

/-- The stops with their outputs as expressions. -/
def outputs (spec : PropertySpec) (stops : List (Json × Json)) : List (Json × Json) :=
  stops.map fun (input, output) => (input, constant spec output)

def flatten (stops : List (Json × Json)) : List Json :=
  stops.flatMap fun (input, output) => [input, output]

def interpolation (kind : StopKind) (base : Option Float) : Json :=
  match kind with
  | .exponential => .call "exponential" [.ofFloat (base.getD 1)]
  | _ => .call "step" []

def curve (f : StopFunction) (kind : StopKind) (input : Json) (stops : List (Json × Json)) :
    Json :=
  .call "curve" (interpolation kind f.base :: input :: flatten stops)

def zoom : Json := .call "zoom" []

def lookUp (property : String) : Json := .call "get" [.str property]

/-- The item kinds that an array assertion can name. -/
def assertable : List String := ["number", "string", "boolean"]

/-- A looked-up property, asserted to be what the style property takes. -/
def typedLookUp (spec : PropertySpec) (property : String) : Json :=
  match spec.kind with
  | .number => .call "number" [lookUp property]
  | .string => .call "string" [lookUp property]
  | .enum _ => .call "string" [lookUp property]
  | .boolean => .call "boolean" [lookUp property]
  | .color => .call "to-color" [lookUp property]
  | .array item length =>
    if assertable.contains item then
      .call "array" (.str item :: ((length.map Json.ofNat).toList ++ [lookUp property]))
    else .call "array" [lookUp property]

def ofProperty (f : StopFunction) (kind : StopKind) (spec : PropertySpec) (default : Json)
    (property : String) (stops : List (Json × Json)) : Json :=
  match kind with
  | .identity => typedLookUp spec property
  | .categorical =>
    .call "match" (lookUp property :: (flatten (outputs spec stops) ++ [default]))
  | _ => curve f kind (.call "number" [lookUp property]) (outputs spec stops)

/-- The zoom and the value of a stop of both. -/
def zoomAndValue? (input : Json) : Option (Float × Json) := do
  let z ← (← input.get? "zoom").num?
  let v ← input.get? "value"
  pure (z, v)

/-- Adds a stop to the group of its zoom, which comes last if it is new. -/
def addToGroup (z : Float) (stop : Json × Json) :
    List (Float × List (Json × Json)) → List (Float × List (Json × Json))
  | [] => [(z, [stop])]
  | (y, stops) :: rest =>
    if y == z then (y, stops ++ [stop]) :: rest else (y, stops) :: addToGroup z stop rest

/-- The stops of both zoom and value, grouped by their zoom in the order in which it first occurs;
fails at the first one that lacks either. -/
def groups : List (Float × List (Json × Json)) → List (Json × Json) →
    Except ConfigError (List (Float × List (Json × Json)))
  | done, [] => pure done
  | done, (input, output) :: rest =>
    match zoomAndValue? input with
    | some (z, v) => groups (addToGroup z (v, output) done) rest
    | none => throw (.stopShape input)

/-- A stop function of both zoom and a property: a zoom curve between functions of the property. -/
def ofZoomAndProperty (f : StopFunction) (kind : StopKind) (spec : PropertySpec)
    (default : Json) (property : String) : Except ConfigError Json := do
  let gs ← groups [] f.stops
  pure (curve f kind zoom (gs.map fun (z, stops) =>
    (.ofFloat z, ofProperty f kind spec default property stops)))

/-- Whether the first stop is one of both zoom and value. -/
def startsWithObject (stops : List (Json × Json)) : Bool :=
  match stops with
  | (.obj _, _) :: _ => true
  | _ => false

/-- The expression of a stop function, without its default. -/
def body (f : StopFunction) (kind : StopKind) (spec : PropertySpec) (default : Json) :
    Except ConfigError Json :=
  match f.property with
  | none =>
    if kind = .identity then throw .identityWithoutProperty
    else pure (curve f kind zoom (outputs spec f.stops))
  | some property =>
    if startsWithObject f.stops then ofZoomAndProperty f kind spec default property
    else pure (ofProperty f kind spec default property f.stops)

/-- The kind of a stop function; one that names none blends if the style property can. -/
def kindOf (f : StopFunction) (spec : PropertySpec) : StopKind :=
  f.kind.getD (if spec.isInterpolatable then .exponential else .interval)

/-- The default of a property as an expression; null if there is none. -/
def defaultOf (spec : PropertySpec) (default : Option Json) : Json :=
  (default.map (constant spec)).getD .null

/-- The expression of a stop function. -/
def ofStops (f : StopFunction) (spec : PropertySpec) : Except ConfigError Json := do
  let default := defaultOf spec (f.default.or spec.default)
  let inner ← body f (kindOf f spec) spec default
  pure (.call "coalesce" [inner, default])

end Conversion
end MapStyle

/-
Compiled expressions.

`compile` checks a document and yields either a tree that is ready for any number of evaluations
or everything that is wrong with it.
-/
import MapStyle.Expr.Eval
import MapStyle.Expr.Wire
import MapStyle.Typing.Check

namespace MapStyle

/-- A checked expression with the interpolators that it was checked for. -/
structure Compiled where
  root : Expr
  interpolators : Interpolators

/-- Checks a document, against an expected type if there is one. -/
def compile (j : Json) (expected : Option Ty) (interpolators : Interpolators) :
    Except (List Diagnostic) Compiled :=
  match (Typing.check j (.root expected interpolators)).run [] with
  | (some e, []) => .ok ⟨e, interpolators⟩
  | (_, ds) => .error ds

namespace Compiled

def ty (c : Compiled) : Ty := c.root.ty

def toJson (c : Compiled) : Json := c.root.toJson

/-- No part looks at the properties of the feature. -/
def isFeatureConstant (c : Compiled) : Bool := c.root.isFeatureConstant

/-- No part looks at the zoom level. -/
def isZoomConstant (c : Compiled) : Bool := c.root.isZoomConstant

/-- The outcome for a zoom level and the properties of a feature, and the easings that are there
afterwards. -/
def evaluate (c : Compiled) (easings : EasingCache) (zoom : Float) (properties : Properties) :
    Outcome Value × EasingCache :=
  let (outcome, st) := c.root.eval ⟨zoom, properties, c.interpolators⟩ ⟨[], easings⟩
  (outcome, st.easings)

end Compiled
end MapStyle

/-
Colors.

A color has four channels in `[0, 1]`, not premultiplied.  On the wire red, green and blue run
from 0 to 255.
-/
import MapStyle.Decimal.Layout

namespace MapStyle

/-- A color by its channels. -/
structure Color where
  r : Float
  g : Float
  b : Float
  a : Float

/-- Whether `low ≤ x ≤ high`; NaN is within no bounds. -/
def inRange (low high x : Float) : Bool := low ≤ x && x ≤ high

/-- The nearest number within bounds; NaN stays. -/
def clamp (low high x : Float) : Float :=
  if x < low then low else if high < x then high else x

def lerp (a b t : Float) : Float := a + (b - a) * t

namespace Color

def black : Color := ⟨0, 0, 0, 1⟩

def white : Color := ⟨1, 1, 1, 1⟩

/-- Black that cannot be seen. -/
def transparent : Color := ⟨0, 0, 0, 0⟩

/-- A color of 8-bit red, green and blue. -/
def ofBytes (r g b : UInt8) (a : Float) : Color :=
  ⟨r.toFloat / 255, g.toFloat / 255, b.toFloat / 255, a⟩

def channels (c : Color) : List Float := [c.r, c.g, c.b, c.a]

/-- The channels on the wire scale. -/
def wire (c : Color) : List Float := [c.r * 255, c.g * 255, c.b * 255, c.a]

/-- Every channel is finite and within `[0, 1]`. -/
def isValid (c : Color) : Bool := c.channels.all fun x => x.isFinite && inRange 0 1 x

def blend (x y : Color) (t : Float) : Color :=
  ⟨lerp x.r y.r t, lerp x.g y.g t, lerp x.b y.b t, lerp x.a y.a t⟩

def same (x y : Color) : Bool := x.r == y.r && x.g == y.g && x.b == y.b && x.a == y.a

/-- The `rgba(…)` text of a color, red, green and blue rounded. -/
def display (c : Color) : String :=
  let shown := [roundAway (c.r * 255), roundAway (c.g * 255), roundAway (c.b * 255), c.a]
  "rgba(" ++ ", ".intercalate (shown.map channelText) ++ ")"

end Color
end MapStyle

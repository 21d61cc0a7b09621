/-
Cubic Bézier easings.

An easing maps progress in `[0, 1]` along a cubic Bézier curve from `(0, 0)` to `(1, 1)`.  Easings
that were built are remembered by the bits of their control points; entries are only ever added.
-/
import MapStyle.Color.Basic

namespace MapStyle

/-- The two inner control points of an easing. -/
structure ControlPoints where
  x1 : Float
  y1 : Float
  x2 : Float
  y2 : Float

namespace ControlPoints

def toList (p : ControlPoints) : List Float := [p.x1, p.y1, p.x2, p.y2]

def bits (p : ControlPoints) : List UInt64 := p.toList.map Float.toBits

end ControlPoints

/-- An easing: the coefficients of `x` and of `y` as cubic polynomials without constant term. -/
structure Easing where
  cx : Float
  bx : Float
  ax : Float
  cy : Float
  bY : Float
  ay : Float

namespace Easing

/-- The polynomial coefficients of one coordinate, from the linear one up. -/
def coefficients (first second : Float) : Float × Float × Float :=
  let c := 3 * first
  let b := 3 * (second - first) - c
  (c, b, 1 - c - b)

def ofPoints (p : ControlPoints) : Easing :=
  let (cx, bx, ax) := coefficients p.x1 p.x2
  let (cy, bY, ay) := coefficients p.y1 p.y2
  ⟨cx, bx, ax, cy, bY, ay⟩

/-- The coordinate `x` at the curve parameter `t`. -/
def sampleX (e : Easing) (t : Float) : Float := ((e.ax * t + e.bx) * t + e.cx) * t

def sampleY (e : Easing) (t : Float) : Float := ((e.ay * t + e.bY) * t + e.cy) * t

/-- The slope of `x` at the curve parameter `t`. -/
def slopeX (e : Easing) (t : Float) : Float := (3 * e.ax * t + 2 * e.bx) * t + e.cx

/-- How near to `x` is near enough. -/
def tolerance : Float := 1e-6

/-- The distance from 1 to the next double. -/
def machineEpsilon : Float := 2.220446049250313e-16

/-- Newton's method from `t`: the parameter at `x`, `none` if it is not found in `fuel` steps or
the slope vanishes. -/
def newton (e : Easing) (x : Float) : Nat → Float → Option Float
  | 0, _ => none
  | fuel + 1, t =>
    let error := e.sampleX t - x
    if error.abs < tolerance then some t
    else
      let slope := e.slopeX t
      if slope.abs < 1e-6 then none else newton e x fuel (t - error / slope)

/-- Halves the interval from `low` to `high` around the parameter at `x`, starting with the guess
`t`.  The interval is at most one wide, so `fuel` is not used up before it is down to
`machineEpsilon`. -/
def bisect (e : Easing) (x : Float) : Nat → Float → Float → Float → Float
  | 0, _, _, t => t
  | fuel + 1, low, high, t =>
    if low < high then
      let found := e.sampleX t
      if (found - x).abs < tolerance then t
      else
        let low := if found < x then t else low
        let high := if found < x then high else t
        let middle := (high - low) * 0.5 + low
        if high - low < machineEpsilon then middle else bisect e x fuel low high middle
    else t

/-- The curve parameter at which the curve reaches `x`. -/
def solveX (e : Easing) (x : Float) : Float :=
  match e.newton x 8 x with
  | some t => t
  | none => if x < 0 then 0 else if 1 < x then 1 else e.bisect x 64 0 1 x

/-- The eased progress; progress outside `[0, 1]` counts as the nearer end. -/
def apply (e : Easing) (t : Float) : Float := e.sampleY (e.solveX (clamp 0 1 t))

/-- Equality of the coefficients as numbers. -/
def same (d e : Easing) : Bool :=
  d.cx == e.cx && d.bx == e.bx && d.ax == e.ax && d.cy == e.cy && d.bY == e.bY && d.ay == e.ay

end Easing

/-- The easings built so far by the bits of their control points. -/
structure EasingCache where
  entries : List (List UInt64 × Easing)

namespace EasingCache

def empty : EasingCache := ⟨[]⟩

def size (cache : EasingCache) : Nat := cache.entries.length

/-- The easing of control points, built at its first use, and the cache that has it. -/
def easing (cache : EasingCache) (p : ControlPoints) : Easing × EasingCache :=
  match cache.entries.lookup p.bits with
  | some e => (e, cache)
  | none => (Easing.ofPoints p, ⟨cache.entries ++ [(p.bits, Easing.ofPoints p)]⟩)

end EasingCache
end MapStyle

/-
Interpolators.

A registry names, for kinds of types, how two values are blended.  The default one knows numbers,
colors and arrays of numbers.
-/
import MapStyle.EvalError
import MapStyle.Text.Quoted

namespace MapStyle

/-- A blend of two values at a fraction. -/
abbrev Blend := Value → Value → Float → Outcome Value

/-- The blends by the name of the kind of type that they serve. -/
structure Interpolators where
  blends : Dict Blend

namespace Blend

def number : Blend
  | .number x, .number y, t => pure (.number (lerp x y t))
  | a, b, _ => throw (.notBlendable .number a.typeOf b.typeOf)

def color : Blend
  | .color x, .color y, t => pure (.color (x.blend y t))
  | a, b, _ => throw (.notBlendable .color a.typeOf b.typeOf)

/-- Numbers in pairs. -/
def numbers (t : Float) : List Value → List Value → Outcome (List Value)
  | x :: xs, y :: ys => do
    let z ← number x y t
    pure (z :: (← numbers t xs ys))
  | _, _ => pure []

/-- Arrays of numbers of the same length, item by item. -/
def array : Blend
  | .array xs, .array ys, t =>
    if xs.length = ys.length then do pure (.array (← numbers t xs ys))
    else throw (.lengthsDiffer xs.length ys.length)
  | a, b, _ => throw (.notBlendable (.array .number none) a.typeOf b.typeOf)

end Blend

namespace Interpolators

def empty : Interpolators := ⟨[]⟩

/-- The registry with a blend for a kind, in place of an earlier one. -/
def register (r : Interpolators) (kind : String) (blend : Blend) : Interpolators :=
  ⟨r.blends.insert kind blend⟩

/-- Numbers, colors and arrays of numbers. -/
def standard : Interpolators :=
  ((empty.register "Number" Blend.number).register "Color" Blend.color).register "Array" Blend.array

/-- Arrays can be blended only when their items are numbers. -/
def itemsBlend : Ty → Bool
  | .array item _ => item == .number
  | _ => true

def supports (r : Interpolators) (ty : Ty) : Bool := r.blends.has ty.kindName && itemsBlend ty

def blend (r : Interpolators) (ty : Ty) (a b : Value) (t : Float) : Outcome Value :=
  match r.blends.get? ty.kindName with
  | some f => f a b t
  | none => throw (.noInterpolator ty)

/-- The names of the kinds that can be blended, in ascending order. -/
def kinds (r : Interpolators) : List String := r.blends.map (·.1)

/-- The registry as a text: the kinds that can be blended, quoted. -/
def describe (r : Interpolators) : String :=
  "Interpolators \x7b types: [" ++ ", ".intercalate (r.kinds.map Text.quoted) ++ "] \x7d"

end Interpolators
end MapStyle

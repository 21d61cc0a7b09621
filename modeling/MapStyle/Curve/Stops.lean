/-
Reading a curve.

The labels of a curve are strictly ascending.  `locate` finds where an input stands among them;
outside of them it is held at the nearer end.  Only the stops on both sides of the input are asked
for their outputs.
-/
import MapStyle.Curve.Interpolation
import MapStyle.Curve.Blend
import MapStyle.Rule

namespace MapStyle

/-- The length of the longest start of a list whose members all satisfy `p`, found by halving;
right when no member after a refused one satisfies `p`. -/
def partitionPoint {α : Type} (p : α → Bool) (xs : List α) : Nat :=
  match h : xs.drop (xs.length / 2) with
  | [] => 0
  | x :: above =>
    if p x then xs.length / 2 + 1 + partitionPoint p above
    else partitionPoint p (xs.take (xs.length / 2))
termination_by xs.length
decreasing_by
  all_goals
    have := congrArg List.length h
    simp only [List.length_drop, List.length_cons, List.length_take] at this ⊢
    omega

namespace Curve

/-- Where an input stands among the labels of a curve. -/
inductive Place where
  /-- There are no labels. -/
  | nowhere
  /-- At one stop, or held there. -/
  | at (index : Nat)
  /-- Between a stop and the next one. -/
  | after (index : Nat)

/-- The place of an input.  NaN stands after the first stop. -/
def locate (labels : List Float) (input : Float) : Place :=
  match labels, labels.getLast? with
  | first :: rest, some last =>
    if rest.isEmpty || input ≤ first then .at 0
    else if last ≤ input then .at rest.length
    else .after (partitionPoint (· ≤ input) labels - 1)
  | _, _ => .nowhere

/-- The blend fraction between two labels. -/
def progress (interpolation : Interpolation) (input lower upper : Float) : Rule Float :=
  match interpolation with
  | .step => pure (fraction input 1 lower upper)
  | .linear => pure (fraction input 1 lower upper)
  | .exponential base => pure (fraction input base lower upper)
  | .cubicBezier points => do
    let easing ← Rule.easing points
    pure (easing.apply (fraction input 1 lower upper))

def label (labels : List Float) (i : Nat) : Rule Float :=
  match labels[i]? with
  | some x => pure x
  | none => Rule.fail (.missingOperand i)

/-- The value of a curve at an input, where `output i` is the output of the stop `i`. -/
def value (interpolators : Interpolators) (labels : List Float) (interpolation : Interpolation)
    (ty : Ty) (output : Nat → Rule Value) (input : Float) : Rule Value :=
  match locate labels input with
  | .nowhere => pure .null
  | .at i => output i
  | .after i =>
    if interpolation.isStep then output i
    else do
      let lower ← label labels i
      let upper ← label labels (i + 1)
      let t ← progress interpolation input lower upper
      let a ← output i
      let b ← output (i + 1)
      Rule.done (interpolators.blend ty a b t)

end Curve
end MapStyle

/-
Errors of evaluation.

Each constructor is one cause; `message` is the only place where causes become text.
-/
import MapStyle.Value.Wire

namespace MapStyle

/-- Why an evaluation failed. -/
inductive EvalError where
  | unknownVariable (name : String)
  | typeMismatch (expected actual : Ty)
  | invalidValue (v : Value)
  | indexOutOfBounds (index : Float) (size : Nat)
  | indexNotWhole (index : Float)
  | missingMember (key : String)
  | missingProperty (key : String)
  | memberOfNull (key : String)
  | notNumeric (v : Value)
  | notPrimitive (actual : Ty)
  | notMeasurable (actual : Ty)
  | notComparable (left right : Ty)
  | colorText (text : String)
  | colorValue (v : Value)
  | rgbOutOfRange (channels : List Float)
  | alphaOutOfRange (channels : List Float)
  | noInterpolator (ty : Ty)
  | notBlendable (wanted left right : Ty)
  | lengthsDiffer (left right : Nat)
  /-- A cause that a registered interpolator reports. -/
  | reported (text : String)
  /-- A node was asked for an operand, stop or label that it does not have. -/
  | missingOperand (index : Nat)

namespace EvalError

/-- A fault of the tree itself and not of the data. -/
def isFault : EvalError → Bool
  | missingOperand _ => true
  | _ => false

/-- The channels of a refused color. -/
def channelList (channels : List Float) : String := ", ".intercalate (channels.map numberText)

def message : EvalError → String
  | unknownVariable name => "Unknown variable \"" ++ name ++ "\"."
  | typeMismatch expected actual =>
    "Expected value to be of type " ++ expected.name ++ ", but found " ++ actual.name ++ " instead."
  | invalidValue v => "Invalid value " ++ v.display ++ "."
  | indexOutOfBounds index size =>
    "Array index out of bounds: " ++ numberText index ++ " > " ++ toString size ++ "."
  | indexNotWhole index =>
    "Array index must be an integer, but found " ++ numberText index ++ " instead."
  | missingMember key => "Property '" ++ key ++ "' not found in object"
  | missingProperty key => "Property '" ++ key ++ "' not found in feature.properties"
  | memberOfNull key => "Cannot get property " ++ key ++ " from null object."
  | notNumeric v => "Could not convert " ++ v.toJson.compact ++ " to number."
  | notPrimitive actual =>
    "Expected a primitive value in [\"string\", ...], but found " ++ actual.name ++ " instead."
  | notMeasurable actual =>
    "Expected value to be of type String or Array, but found " ++ actual.name ++ " instead."
  | notComparable left right => "Cannot compare " ++ left.name ++ " and " ++ right.name ++ "."
  | colorText text => "Could not parse color from value '" ++ text ++ "'"
  | colorValue v => "Could not parse color from value '" ++ v.toJson.compact ++ "'"
  | rgbOutOfRange channels =>
    "Invalid rgba value [" ++ channelList channels ++
      "]: 'r', 'g', and 'b' must be between 0 and 255."
  | alphaOutOfRange channels =>
    "Invalid rgba value [" ++ channelList channels ++ "]: 'a' must be between 0 and 1."
  | noInterpolator ty => "Type " ++ ty.name ++ " is not interpolatable."
  | notBlendable wanted left right =>
    "Cannot interpolate " ++ left.name ++ " and " ++ right.name ++ " as " ++ wanted.name ++ "."
  | lengthsDiffer left right =>
    "Cannot interpolate arrays of different lengths (" ++ toString left ++ " and " ++
      toString right ++ ")."
  | reported text => text
  | missingOperand index => "Operand " ++ toString index ++ " is missing."

end EvalError

/-- The outcome of an evaluation. -/
abbrev Outcome (α : Type) := Except EvalError α

end MapStyle

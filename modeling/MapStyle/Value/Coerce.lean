/-
Assertions and coercions.

`asType` demands a type of a value; the other functions turn a value into a number, a text or a
color, look things up in arrays and objects, or fail with the cause.
-/
import MapStyle.EvalError
import MapStyle.Color.Css
import MapStyle.Text.Blank

namespace MapStyle

namespace Value

/-- Whether a value may stand where a type is demanded; null satisfies only `Ty.null`. -/
def fits (expected : Ty) (v : Value) : Bool :=
  if v.isNull then expected == .null else expected.accepts v.typeOf

/-- The value itself, provided that it is valid and of the type. -/
def asType (v : Value) (expected : Ty) : Outcome Value :=
  if !v.isValid then throw (.invalidValue v)
  else if fits expected v then pure v
  else throw (.typeMismatch expected v.typeOf)

/-- The number that a text writes: nothing but blanks is zero, infinity is spelled in full. -/
def parseNumber? (s : String) : Option Float :=
  let cs := Text.trim s.toList
  let (negative, body) := Numeral.sign cs
  if cs = [] then some 0
  else if body = "Infinity".toList then some (Binary.withSign negative Binary.infinityBits)
  else if body.any (fun c => c.isAlpha && c ≠ 'e' && c ≠ 'E') then none
  else numeral? cs

/-- The number that a value can be read as. -/
def numeric? : Value → Option Float
  | number x => some x
  | bool b => some (if b then 1 else 0)
  | string s => parseNumber? s
  | _ => none

/-- A value as a number; NaN is refused. -/
def toNumber (v : Value) : Outcome Float :=
  match v.numeric?.filter (fun x => !x.isNaN) with
  | some x => pure x
  | none => throw (.notNumeric v)

/-- A primitive value as a text. -/
def toText : Value → Outcome String
  | null => pure "null"
  | string s => pure s
  | number x => pure (numberText x)
  | bool b => pure (boolText b)
  | v => throw (.notPrimitive v.typeOf)

/-- Any value as a text: colors as `rgba(…)`, arrays and objects as JSON. -/
def stringify : Value → Outcome String
  | color c => pure c.display
  | array items => pure (toJson (array items)).compact
  | object fields => pure (toJson (object fields)).compact
  | v => v.toText

/-- The item of an array at a whole index within bounds. -/
def itemAt (index : Float) (items : List Value) : Outcome Value :=
  let size := items.length
  if 0 ≤ index ∧ index < Binary.nearest false size 1 then
    match wholeNumber? index with
    | none => throw (.indexNotWhole index)
    | some i =>
      match items[i.toNat]? with
      | some v => pure v
      | none => throw (.missingOperand i.toNat)
  else throw (.indexOutOfBounds index size)

/-- The members of a value that is demanded to be an object; `key` names what is looked for. -/
def members (v : Value) (key : String) : Outcome (Dict Value) :=
  if v.isNull then throw (.memberOfNull key)
  else do pure ((← v.asType .object).object?.getD [])

def has (v : Value) (key : String) : Outcome Bool := do pure ((← v.members key).has key)

def get (v : Value) (key : String) : Outcome Value := do
  match (← v.members key).get? key with
  | some w => pure w
  | none => throw (.missingMember key)

end Value

def Properties.get (properties : Properties) (key : String) : Outcome Value :=
  match properties.get? key with
  | some v => pure v
  | none => throw (.missingProperty key)

namespace Color

/-- The color of wire channels; each has to be in range. -/
def ofWire (r g b : Float) (a : Option Float) : Outcome Color :=
  let alpha := a.getD 1
  if !(inRange 0 255 r && inRange 0 255 g && inRange 0 255 b) then
    throw (.rgbOutOfRange [r, g, b, alpha])
  else if !inRange 0 1 alpha then throw (.alphaOutOfRange [r, g, b, alpha])
  else pure ⟨r / 255, g / 255, b / 255, alpha⟩

def ofText (s : String) : Outcome Color :=
  match Css.color? s with
  | some c => pure c
  | none => throw (.colorText s)

/-- The color of three or four numbers. -/
def ofItems : List Value → Option (Outcome Color)
  | [.number r, .number g, .number b] => some (ofWire r g b none)
  | [.number r, .number g, .number b, .number a] => some (ofWire r g b (some a))
  | _ => none

def ofValue (v : Value) : Outcome Color :=
  match v with
  | .color c => pure c
  | .string s => ofText s
  | .array items => (ofItems items).getD (throw (.colorValue v))
  | _ => throw (.colorValue v)

end Color
end MapStyle

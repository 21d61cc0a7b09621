/-
What the built-in functions compute.

`Builtin.rule` is the evaluation rule of a call.  Arguments are asked for from left to right; the
logical functions and the coercions with several candidates stop as soon as the answer is known.
-/
import MapStyle.Builtin
import MapStyle.Rule
import MapStyle.Curve.Blend
import MapStyle.Text.Case

namespace MapStyle

/-- What an evaluation looks at. -/
structure Scene where
  zoom : Float
  properties : Properties
  interpolators : Interpolators

/-- What comes of comparing two values. -/
inductive Compared where
  /-- Their order, `none` next to NaN. -/
  | ordered (o : Option Ordering)
  /-- They are neither two numbers nor two strings. -/
  | refused

/-- The order of two doubles, `none` when one is NaN. -/
def orderFloats (x y : Float) : Option Ordering :=
  if x < y then some .lt else if y < x then some .gt else if x == y then some .eq else none

/-- The order of two texts, code point by code point. -/
def orderTexts (s t : String) : Ordering := if s < t then .lt else if t < s then .gt else .eq

/-- The order of two values. -/
def Value.compared : Value → Value → Compared
  | number x, number y => .ordered (orderFloats x y)
  | string s, string t => .ordered (some (orderTexts s t))
  | _, _ => .refused

/-- The number of UTF-16 units of a text. -/
def units16 (s : String) : Nat :=
  s.toList.foldl (fun n c => n + (if 0xFFFF < c.toNat then 2 else 1)) 0

/-- The double of a count. -/
def countOf (n : Nat) : Float := Binary.nearest false n 1

namespace Builtin.Rules

/-- A member of the second argument, or a property of the feature when there is none. -/
def get (scene : Scene) (count : Nat) : Rule Value := do
  let key ← Rule.string 0
  if 1 < count then
    let v ← Rule.operand 1
    v.get key
  else scene.properties.get key

/-- Whether the second argument, or the feature when there is none, has a member. -/
def has (scene : Scene) (count : Nat) : Rule Value := do
  let key ← Rule.string 0
  if 1 < count then
    let v ← Rule.operand 1
    let found ← v.has key
    pure (.bool found)
  else pure (.bool (scene.properties.has key))

def item : Rule Value := do
  let index ← Rule.number 0
  let items ← Rule.array 1
  Value.itemAt index items

/-- The number of items of an array, or of UTF-16 units of a string. -/
def length : Rule Value := do
  match ← Rule.operand 0 with
  | .array items => pure (.number (countOf items.length))
  | .string s => pure (.number (countOf (units16 s)))
  | v => Rule.fail (.notMeasurable v.typeOf)

/-- The conversion of the first of `count` arguments, from `i` on, that can be converted; else the
error of the last one. -/
def firstConverted (convert : Value → Outcome Value) : (count i : Nat) → Rule Value
  | 0, i => Rule.fail (.missingOperand i)
  | 1, i => do
    let v ← Rule.operand i
    convert v
  | count + 2, i => do
    let v ← Rule.operand i
    match convert v with
    | .ok w => pure w
    | .error _ => firstConverted convert (count + 1) (i + 1)

/-- A color as the list of its wire channels. -/
def toRgba : Rule Value := do
  let c ← Rule.color 0
  pure (.array (c.wire.map .number))

/-- The color of three or four channels on the wire scale. -/
def rgba (count : Nat) : Rule Value := do
  let r ← Rule.number 0
  let g ← Rule.number 1
  let b ← Rule.number 2
  let a ← if 3 < count then some <$> Rule.number 3 else pure none
  let c ← Color.ofWire r g b a
  pure (.color c)

/-- The numbers of `count` arguments from `i` on, combined from the left. -/
def foldNumbers (f : Float → Float → Float) : (count i : Nat) → Float → Rule Value
  | 0, _, total => pure (.number total)
  | count + 1, i, total => do
    let x ← Rule.number i
    foldNumbers f count (i + 1) (f total x)

/-- The difference of two numbers, or the opposite of one. -/
def minus (count : Nat) : Rule Value := do
  let x ← Rule.number 0
  if 1 < count then
    let y ← Rule.number 1
    pure (.number (x - y))
  else pure (.number (-x))

def binary (f : Float → Float → Float) : Rule Value := do
  let x ← Rule.number 0
  let y ← Rule.number 1
  pure (.number (f x y))

def equal : Rule Value := do
  let a ← Rule.operand 0
  let b ← Rule.operand 1
  pure (.bool (a.same b))

def unequal : Rule Value := do
  let a ← Rule.operand 0
  let b ← Rule.operand 1
  pure (.bool (!a.same b))

/-- Whether the order of two values is an accepted one; nothing holds next to NaN. -/
def compare (accept : Ordering → Bool) : Rule Value := do
  let a ← Rule.operand 0
  let b ← Rule.operand 1
  match a.compared b with
  | .ordered o => pure (.bool (o.any accept))
  | .refused => Rule.fail (.notComparable a.typeOf b.typeOf)

def not : Rule Value := do
  let b ← Rule.boolean 0
  pure (.bool (!b))

/-- The truth value `stop` if one of `count` arguments from `i` on is `stop`, else the opposite. -/
def search (stop : Bool) : (count i : Nat) → Rule Value
  | 0, _ => pure (.bool (!stop))
  | count + 1, i => do
    let b ← Rule.boolean i
    if b = stop then pure (.bool stop) else search stop count (i + 1)

/-- The texts of `count` arguments from `i` on, after what there is already. -/
def concat : (count i : Nat) → String → Rule Value
  | 0, _, text => pure (.string text)
  | count + 1, i, text => do
    let v ← Rule.operand i
    let more ← v.stringify
    concat count (i + 1) (text ++ more)

def mapText (f : String → String) : Rule Value := do
  let s ← Rule.string 0
  pure (.string (f s))

def mapValue (f : Value → Outcome Value) : Rule Value := do
  let v ← Rule.operand 0
  f v

end Builtin.Rules

open Builtin.Rules in
/-- The evaluation rule of a call with `count` arguments. -/
def Builtin.rule (scene : Scene) (count : Nat) : Builtin → Rule Value
  | zoom => pure (.number scene.zoom)
  | properties => pure (.object scene.properties)
  | get => Rules.get scene count
  | has => Rules.has scene count
  | item => Rules.item
  | length => Rules.length
  | typeOf => mapValue fun v => pure (.string v.typeOf.name)
  | toNumber => firstConverted (fun v => .number <$> v.toNumber) count 0
  | toString => mapValue fun v => .string <$> v.stringify
  | toBoolean => mapValue fun v => pure (.bool v.truthy)
  | toColor => firstConverted (fun v => .color <$> Color.ofValue v) count 0
  | toRgba => Rules.toRgba
  | rgb => Rules.rgba count
  | rgba => Rules.rgba count
  | sum => foldNumbers (· + ·) count 0 0
  | product => foldNumbers (· * ·) count 0 1
  | minus => Rules.minus count
  | divide => Rules.binary (· / ·)
  | remainder => Rules.binary MapStyle.remainder
  | power => Rules.binary Float.pow
  | equal => Rules.equal
  | unequal => Rules.unequal
  | less => Rules.compare Ordering.isLT
  | lessEqual => Rules.compare Ordering.isLE
  | greater => Rules.compare Ordering.isGT
  | greaterEqual => Rules.compare Ordering.isGE
  | not => Rules.not
  | all => search false count 0
  | any => search true count 0
  | concat => Rules.concat count 0 ""
  | upcase => mapText Text.upper
  | downcase => mapText Text.lower

end MapStyle

/-
Types of style expressions.

A type describes what an expression yields.  `accepts` is the check between an expected and a
found type; it is lenient about lengths, so an array type without a length fits one with a length
in both directions.
-/
namespace MapStyle

/-- The type of an expression or of a value. -/
inductive Ty where
  | null
  | number
  | string
  | boolean
  | color
  | object
  /-- Any value. -/
  | value
  /-- Arrays of an item type, of a fixed length if one is given. -/
  | array (item : Ty) (len : Option Nat)
deriving DecidableEq, Repr

namespace Ty

/-- Arrays of anything and of any length. -/
def anyArray : Ty := array value none

/-- The name of a type's kind: all array types share one. -/
def kindName : Ty → String
  | null => "Null"
  | number => "Number"
  | string => "String"
  | boolean => "Boolean"
  | color => "Color"
  | object => "Object"
  | value => "Value"
  | array _ _ => "Array"

def item? : Ty → Option Ty
  | array item _ => some item
  | _ => none

/-- The name of a type, such as `Number`, `Array` or `Array<Array<Number, 2>>`. -/
def name : Ty → String
  | array item (some n) => "Array<" ++ item.name ++ ", " ++ toString n ++ ">"
  | array item none => if item = value then "Array" else "Array<" ++ item.name ++ ">"
  | t => t.kindName

/-- Two lengths are at odds only when both are given and differ. -/
def lensAgree : Option Nat → Option Nat → Bool
  | some m, some n => m == n
  | _, _ => true

/-- Whether something of type `actual` fits where `expected` is wanted. -/
def accepts : Ty → Ty → Bool
  | value, _ => true
  | array e m, array a n => accepts e a && lensAgree m n
  | array _ _, _ => false
  | e, a => e == a

def mismatchText (expected actual : Ty) : String :=
  "Expected " ++ expected.name ++ " but found " ++ actual.name ++ " instead."

/-- The complaint about a type that does not fit, `none` if it does. -/
def complaint? (expected actual : Ty) : Option String :=
  if accepts expected actual then none else some (mismatchText expected actual)

end Ty
end MapStyle

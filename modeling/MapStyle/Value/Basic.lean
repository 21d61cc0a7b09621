/-
Values.

What expressions consume and yield at run time.  Every value has a type; that of an array carries
its length and the type that its items share.
-/
import MapStyle.Ty.Basic
import MapStyle.Color.Basic
import MapStyle.Dict

namespace MapStyle

/-- A run-time value. -/
inductive Value where
  | null
  | bool (b : Bool)
  | number (x : Float)
  | string (s : String)
  | color (c : Color)
  | array (items : List Value)
  | object (fields : List (String × Value))

/-- The properties of a feature by name. -/
abbrev Properties := Dict Value

/-- The type that all of some types are, `Ty.value` when they differ or there are none. -/
def Ty.common : List Ty → Ty
  | [] => .value
  | t :: ts => if ts.all (· == t) then t else .value

namespace Value

mutual

def typeOf : Value → Ty
  | null => .null
  | bool _ => .boolean
  | number _ => .number
  | string _ => .string
  | color _ => .color
  | object _ => .object
  | array items => .array (Ty.common (typesOf items)) (some items.length)

def typesOf : List Value → List Ty
  | [] => []
  | v :: vs => typeOf v :: typesOf vs

end

mutual

/-- Every color inside is valid. -/
def isValid : Value → Bool
  | color c => c.isValid
  | array items => allValid items
  | object fields => fieldsValid fields
  | _ => true

def allValid : List Value → Bool
  | [] => true
  | v :: vs => isValid v && allValid vs

def fieldsValid : List (String × Value) → Bool
  | [] => true
  | (_, v) :: rest => isValid v && fieldsValid rest

end

mutual

/-- Equality: numbers as numbers, so NaN differs from itself and the zeros are equal. -/
def same : Value → Value → Bool
  | null, null => true
  | bool a, bool b => a == b
  | number x, number y => x == y
  | string s, string t => s == t
  | color c, color d => c.same d
  | array xs, array ys => sameItems xs ys
  | object xs, object ys => sameFields xs ys
  | _, _ => false

def sameItems : List Value → List Value → Bool
  | [], [] => true
  | x :: xs, y :: ys => same x y && sameItems xs ys
  | _, _ => false

def sameFields : List (String × Value) → List (String × Value) → Bool
  | [], [] => true
  | (k, x) :: xs, (l, y) :: ys => k == l && same x y && sameFields xs ys
  | _, _ => false

end

def isNull : Value → Bool
  | null => true
  | _ => false

def number? : Value → Option Float
  | number x => some x
  | _ => none

def string? : Value → Option String
  | string s => some s
  | _ => none

def bool? : Value → Option Bool
  | bool b => some b
  | _ => none

def color? : Value → Option Color
  | color c => some c
  | _ => none

def array? : Value → Option (List Value)
  | array items => some items
  | _ => none

def object? : Value → Option (Dict Value)
  | object fields => some fields
  | _ => none

/-- Whether a value counts as true: all but null, false, zero, NaN and the empty string. -/
def truthy : Value → Bool
  | null => false
  | bool b => b
  | number x => x != 0 && !x.isNaN
  | string s => !s.isEmpty
  | _ => true

end Value
end MapStyle

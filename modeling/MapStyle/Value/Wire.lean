/-
Values and JSON.

`toJson` writes a value, colors as the list of their wire channels; `ofJson` reads any document.
`display` is the text of a value for people.
-/
import MapStyle.Value.Basic
import MapStyle.Json.Writer

namespace MapStyle.Value

mutual

def ofJson : Json → Value
  | .null => null
  | .bool b => bool b
  | .num n => number n.toFloat
  | .str s => string s
  | .arr items => array (ofItems items)
  | .obj fields => object (ofFields fields)

def ofItems : List Json → List Value
  | [] => []
  | j :: js => ofJson j :: ofItems js

def ofFields : List (String × Json) → List (String × Value)
  | [] => []
  | (k, j) :: rest => (k, ofJson j) :: ofFields rest

end

mutual

def toJson : Value → Json
  | null => .null
  | bool b => .bool b
  | number x => .ofFloat x
  | string s => .str s
  | color c => .arr (c.wire.map .ofFloat)
  | array items => .arr (toItems items)
  | object fields => .obj (toFields fields)

def toItems : List Value → List Json
  | [] => []
  | v :: vs => toJson v :: toItems vs

def toFields : List (String × Value) → List (String × Json)
  | [] => []
  | (k, v) :: rest => (k, toJson v) :: toFields rest

end

def boolText (b : Bool) : String := if b then "true" else "false"

/-- The text of a value; arrays and objects as JSON. -/
def display : Value → String
  | null => "null"
  | bool b => boolText b
  | number x => numberText x
  | string s => s
  | color c => c.display
  | array items => (toJson (array items)).compact
  | object fields => (toJson (object fields)).compact

end MapStyle.Value

/-- The properties that a document holds; none unless it is an object. -/
def MapStyle.Properties.ofJson (j : Json) : Properties :=
  match Value.ofJson j with
  | .object fields => fields
  | _ => []

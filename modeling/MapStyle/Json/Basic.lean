/-
JSON documents.

A number keeps whether it was written as a whole number or as a double: a few places accept only
the first, and printing shows the difference.  Doubles in documents are finite, by type.
-/
import MapStyle.Decimal.Binary
import MapStyle.Dict

namespace MapStyle

/-- A number of a JSON document. -/
inductive Number where
  | int (n : Int)
  | real (x : Float) (finite : x.isFinite = true)

namespace Number

/-- The double that a number counts as.  Whole numbers are rounded to the nearest finite one. -/
def toFloat : Number → Float
  | int n => Binary.nearestFinite (decide (n < 0)) n.natAbs 1
  | real x _ => x

/-- The number of a double: a whole number where the doubles still have all of them, `none` for
NaN and infinities. -/
def ofFloat? (x : Float) : Option Number :=
  if finite : x.isFinite = true then
    match wholeNumber? x with
    | some n => some (if n.natAbs ≤ 0x1FFFFFFFFFFFFF then .int n else .real x finite)
    | none => some (.real x finite)
  else none

/-- The double itself as a number, `none` for NaN and infinities. -/
def double? (x : Float) : Option Number :=
  if finite : x.isFinite = true then some (.real x finite) else none

/-- The natural number that a whole number token writes. -/
def natural? : Number → Option Nat
  | int n => if 0 ≤ n then some n.toNat else none
  | real _ _ => none

end Number

/-- A JSON document.  Objects that were read or built here have ascending keys. -/
inductive Json where
  | null
  | bool (b : Bool)
  | num (n : Number)
  | str (s : String)
  | arr (items : List Json)
  | obj (fields : List (String × Json))

namespace Json

/-- The short name of the kind of a document. -/
def kind : Json → String
  | null => "null"
  | bool _ => "boolean"
  | num _ => "number"
  | str _ => "string"
  | arr _ => "array"
  | obj _ => "object"

def str? : Json → Option String
  | str s => some s
  | _ => none

def num? : Json → Option Float
  | num n => some n.toFloat
  | _ => none

def arr? : Json → Option (List Json)
  | arr items => some items
  | _ => none

def obj? : Json → Option (Dict Json)
  | obj fields => some fields
  | _ => none

def get? (j : Json) (key : String) : Option Json := j.obj?.bind (·.get? key)

/-- The document of a double, `null` for NaN and infinities. -/
def ofFloat (x : Float) : Json :=
  match Number.ofFloat? x with
  | some n => num n
  | none => null

/-- The document of a double that is always written as one. -/
def double (x : Float) : Json :=
  match Number.double? x with
  | some n => num n
  | none => null

def ofNat (n : Nat) : Json := num (.int n)

def ofMembers (members : List (String × Json)) : Json := obj (Dict.ofEntries members)

/-- The array that calls `name`. -/
def call (name : String) (args : List Json) : Json := arr (str name :: args)

end Json
end MapStyle

/-
Stop functions.

The older way to write a style function: a list of stops, each with an input and an output, read
at the zoom level, at a property of the feature, or at both.
-/
import MapStyle.Json.Basic

namespace MapStyle

/-- What a stop function does with its input. -/
inductive StopKind where
  /-- Passes a property through. -/
  | identity
  /-- Blends between stops. -/
  | exponential
  /-- Takes the output of the last stop at or below the input. -/
  | interval
  /-- Takes the output of the stop that equals the input. -/
  | categorical
deriving DecidableEq, Repr

namespace StopKind

def name : StopKind → String
  | identity => "identity"
  | exponential => "exponential"
  | interval => "interval"
  | categorical => "categorical"

def every : List StopKind := [identity, exponential, interval, categorical]

def ofName? (s : String) : Option StopKind := every.find? (fun k => k.name == s)

end StopKind

/-- A stop function. -/
structure StopFunction where
  kind : Option StopKind
  property : Option String
  base : Option Float
  stops : List (Json × Json)
  default : Option Json

namespace StopFunction

def fieldNames : List String := ["type", "property", "base", "stops", "default"]

/-- The function as a document, with all fields. -/
def toJson (f : StopFunction) : Json :=
  .ofMembers [
    ("type", (f.kind.map fun k => Json.str k.name).getD .null),
    ("property", (f.property.map Json.str).getD .null),
    ("base", (f.base.map Json.double).getD .null),
    ("stops", .arr (f.stops.map fun (input, output) => .arr [input, output])),
    ("default", f.default.getD .null)]

/-- A field that may be left out or null. -/
def optional? {α : Type} (read : Json → Option α) (j : Option Json) : Option (Option α) :=
  match j with
  | none => some none
  | some .null => some none
  | some j => (read j).map some

/-- A kind: its name, or an object that has it as the only member, with nothing in it. -/
def kind? (j : Json) : Option StopKind :=
  match j with
  | .str s => StopKind.ofName? s
  | .obj [(s, .null)] => StopKind.ofName? s
  | _ => none

def stop? (j : Json) : Option (Json × Json) :=
  match j with
  | .arr [input, output] => some (input, output)
  | _ => none

/-- The stops; none when left out. -/
def stops? (j : Option Json) : Option (List (Json × Json)) :=
  match j with
  | none => some []
  | some (.arr items) => items.mapM stop?
  | some _ => none

def ofFields? (field : String → Option Json) : Option StopFunction := do
  let kind ← optional? kind? (field "type")
  let property ← optional? Json.str? (field "property")
  let base ← optional? Json.num? (field "base")
  let stops ← stops? (field "stops")
  let default ← optional? some (field "default")
  pure ⟨kind, property, base, stops, default⟩

/-- The function that a document describes: an object, or the list of the fields in order. -/
def ofJson? (j : Json) : Option StopFunction :=
  match j with
  | .obj members => ofFields? (Dict.get? members)
  | .arr items =>
    if fieldNames.length < items.length then none else ofFields? (Dict.get? (fieldNames.zip items))
  | _ => none

end StopFunction
end MapStyle

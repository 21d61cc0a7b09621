/-
Style properties.

A property spec says what kind of value a style property takes and what it is by default.  It is
read from an object with a `type`, or from an array that lists the type and the fields in order.
-/
import MapStyle.Json.Basic
import MapStyle.Ty.Basic

namespace MapStyle

/-- What a style property takes. -/
inductive PropertyKind where
  | number
  | string
  | boolean
  | color
  /-- A string out of a fixed set, with a description for each. -/
  | enum (values : Dict Json)
  /-- Items of a kind, of a fixed number if one is given. -/
  | array (item : String) (length : Option Nat)

/-- A style property: its kind and its default. -/
structure PropertySpec where
  kind : PropertyKind
  default : Option Json

namespace PropertyKind

def name : PropertyKind → String
  | number => "number"
  | string => "string"
  | boolean => "boolean"
  | color => "color"
  | enum _ => "enum"
  | array _ _ => "array"

/-- The type of array items of a kind. -/
def itemTy (kind : String) : Ty :=
  match kind with
  | "number" => .number
  | "string" => .string
  | "boolean" => .boolean
  | _ => .value

/-- The fields beside type and default. -/
def fields : PropertyKind → List (String × Json)
  | enum values => [("values", .obj values)]
  | array item length =>
    [("value", .str item), ("length", (length.map Json.ofNat).getD .null)]
  | _ => []

end PropertyKind

namespace PropertySpec

/-- The type that a function of the property yields. -/
def expectedTy (spec : PropertySpec) : Ty :=
  match spec.kind with
  | .number => .number
  | .string => .string
  | .enum _ => .string
  | .boolean => .boolean
  | .color => .color
  | .array item length => .array (PropertyKind.itemTy item) length

theorem expectedTy_of_array {spec : PropertySpec} {item : String} {len : Option Nat}
    (hkind : spec.kind = .array item len) :
    spec.expectedTy = .array (PropertyKind.itemTy item) len := by
  rw [expectedTy, hkind]

/-- Whether functions of the property blend between stops unless told otherwise. -/
def isInterpolatable (spec : PropertySpec) : Bool :=
  match spec.kind with
  | .number => true
  | .color => true
  | .array item _ => item == "number"
  | _ => false

/-- The spec as a document, with all fields of its kind. -/
def toJson (spec : PropertySpec) : Json :=
  .ofMembers (("type", .str spec.kind.name) :: ("default", spec.default.getD .null)
    :: spec.kind.fields)

/-- A member that may be left out; null counts as left out. -/
def optional? (j : Option Json) : Option Json :=
  match j with
  | some .null => none
  | j => j

/-- The values of an `enum`: an object, empty when left out. -/
def values? (j : Option Json) : Option (Dict Json) :=
  match j with
  | none => some []
  | some j => j.obj?

/-- The length of an `array`: a natural number within 64 bits, or none. -/
def length? (j : Option Json) : Option (Option Nat) :=
  match optional? j with
  | none => some none
  | some (.num n) => (n.natural?.filter (· < UInt64.size)).map some
  | some _ => none

def fieldNames (kind : String) : Option (List String) :=
  match kind with
  | "number" => some ["default"]
  | "string" => some ["default"]
  | "boolean" => some ["default"]
  | "color" => some ["default"]
  | "enum" => some ["values", "default"]
  | "array" => some ["value", "length", "default"]
  | _ => none

/-- The kind of a name with the given fields. -/
def kind? (name : String) (field : String → Option Json) : Option PropertyKind :=
  match name with
  | "number" => some .number
  | "string" => some .string
  | "boolean" => some .boolean
  | "color" => some .color
  | "enum" => (values? (field "values")).map .enum
  | "array" => do
    let item ← (← field "value").str?
    let length ← length? (field "length")
    pure (.array item length)
  | _ => none

def ofFields? (name : String) (field : String → Option Json) : Option PropertySpec :=
  (kind? name field).map fun kind => ⟨kind, optional? (field "default")⟩

/-- The spec of an object that writes no field twice. -/
def ofMembers? (members : List (String × Json)) : Option PropertySpec := do
  let name ← (← Dict.get? members "type").str?
  let names ← fieldNames name
  let repeated := ("type" :: names).any fun n => 1 < (members.map (·.1)).count n
  if repeated then none else ofFields? name (Dict.get? members)

/-- The spec of a list: the name of the type, then the fields in order. -/
def ofItems? (items : List Json) : Option PropertySpec :=
  match items with
  | .str name :: rest => do
    let names ← fieldNames name
    if names.length < rest.length then none
    else ofFields? name (Dict.get? (names.zip rest))
  | _ => none

def ofJson? (j : Json) : Option PropertySpec :=
  match j with
  | .obj members => ofMembers? members
  | .arr items => ofItems? items
  | _ => none

end PropertySpec
end MapStyle

/-
Built-in functions.

The functions that expressions can call: their names, the parameters that they take and the types
of their results.  Some functions take their arguments in several ways; these are tried in order.
-/
import MapStyle.Ty.Basic

namespace MapStyle

/-- The parameters of one way to call a function. -/
inductive Signature where
  /-- One argument for each type. -/
  | exactly (params : List Ty)
  /-- At least `least` arguments, all of one type. -/
  | atLeast (least : Nat) (param : Ty)
deriving DecidableEq, Repr

namespace Signature

/-- Whether a number of arguments is possible. -/
def takes : Signature → Nat → Bool
  | exactly params, n => params.length == n
  | atLeast least _, n => least ≤ n

/-- The type of the argument `i`. -/
def param : Signature → Nat → Ty
  | exactly params, i => params[i]?.getD .value
  | atLeast _ param, _ => param

/-- The parameters in brackets. -/
def describe : Signature → String
  | exactly params => "(" ++ ", ".intercalate (params.map Ty.name) ++ ")"
  | atLeast _ param => "(" ++ param.name ++ ", ...)"

/-- The complaint about a number of arguments. -/
def arityText (found : Nat) : Signature → String
  | exactly params =>
    "Expected " ++ toString params.length ++ " argument" ++ (if params.length = 1 then "" else "s")
      ++ ", but found " ++ toString found ++ " instead."
  | atLeast least _ =>
    "Expected at least " ++ toString least ++ " arguments, but found " ++ toString found
      ++ " instead."

end Signature

/-- The functions that expressions can call. -/
inductive Builtin where
  | zoom
  | properties
  | get
  | has
  | item
  | length
  | typeOf
  | toNumber
  | toString
  | toBoolean
  | toColor
  | toRgba
  | rgb
  | rgba
  | sum
  | product
  | minus
  | divide
  | remainder
  | power
  | equal
  | unequal
  | less
  | lessEqual
  | greater
  | greaterEqual
  | not
  | all
  | any
  | concat
  | upcase
  | downcase
deriving DecidableEq, Repr

namespace Builtin

/-- The name in wire form. -/
def name : Builtin → String
  | zoom => "zoom"
  | properties => "properties"
  | get => "get"
  | has => "has"
  | item => "at"
  | length => "length"
  | typeOf => "typeof"
  | toNumber => "to-number"
  | toString => "to-string"
  | toBoolean => "to-boolean"
  | toColor => "to-color"
  | toRgba => "to-rgba"
  | rgb => "rgb"
  | rgba => "rgba"
  | sum => "+"
  | product => "*"
  | minus => "-"
  | divide => "/"
  | remainder => "%"
  | power => "^"
  | equal => "=="
  | unequal => "!="
  | less => "<"
  | lessEqual => "<="
  | greater => ">"
  | greaterEqual => ">="
  | not => "!"
  | all => "all"
  | any => "any"
  | concat => "concat"
  | upcase => "upcase"
  | downcase => "downcase"

def every : List Builtin :=
  [zoom, properties, get, has, item, length, typeOf, toNumber, toString, toBoolean, toColor, toRgba,
    rgb, rgba, sum, product, minus, divide, remainder, power, equal, unequal, less, lessEqual,
    greater, greaterEqual, not, all, any, concat, upcase, downcase]

def ofName? (s : String) : Option Builtin := every.find? (fun f => f.name == s)

/-- Two numbers, or two strings. -/
def ordered : List Signature := [.exactly [.number, .number], .exactly [.string, .string]]

/-- The ways to call a function. -/
def signatures : Builtin → List Signature
  | zoom => [.exactly []]
  | properties => [.exactly []]
  | get => [.exactly [.string], .exactly [.string, .object]]
  | has => [.exactly [.string], .exactly [.string, .object]]
  | item => [.exactly [.number, .anyArray]]
  | length => [.exactly [.anyArray], .exactly [.string]]
  | typeOf => [.exactly [.value]]
  | toNumber => [.atLeast 1 .value]
  | toString => [.exactly [.value]]
  | toBoolean => [.exactly [.value]]
  | toColor => [.atLeast 1 .value]
  | toRgba => [.exactly [.color]]
  | rgb => [.exactly [.number, .number, .number]]
  | rgba => [.exactly [.number, .number, .number, .number]]
  | sum => [.atLeast 0 .number]
  | product => [.atLeast 0 .number]
  | minus => [.exactly [.number, .number], .exactly [.number]]
  | divide => [.exactly [.number, .number]]
  | remainder => [.exactly [.number, .number]]
  | power => [.exactly [.number, .number]]
  | equal => [.exactly [.value, .value]]
  | unequal => [.exactly [.value, .value]]
  | less => ordered
  | lessEqual => ordered
  | greater => ordered
  | greaterEqual => ordered
  | not => [.exactly [.boolean]]
  | all => [.atLeast 0 .boolean]
  | any => [.atLeast 0 .boolean]
  | concat => [.atLeast 0 .value]
  | upcase => [.exactly [.string]]
  | downcase => [.exactly [.string]]

/-- The type of the result for arguments of the given types. -/
def result (args : List Ty) : Builtin → Ty
  | zoom => .number
  | properties => .object
  | get => .value
  | has => .boolean
  | item => (args[1]?.bind Ty.item?).getD .value
  | length => .number
  | typeOf => .string
  | toNumber => .number
  | toString => .string
  | toBoolean => .boolean
  | toColor => .color
  | toRgba => .array .number (some 4)
  | rgb => .color
  | rgba => .color
  | sum => .number
  | product => .number
  | minus => .number
  | divide => .number
  | remainder => .number
  | power => .number
  | equal => .boolean
  | unequal => .boolean
  | less => .boolean
  | lessEqual => .boolean
  | greater => .boolean
  | greaterEqual => .boolean
  | not => .boolean
  | all => .boolean
  | any => .boolean
  | concat => .string
  | upcase => .string
  | downcase => .string

/-- Whether a call with `count` arguments depends on the properties of the feature. -/
def readsFeature (count : Nat) : Builtin → Bool
  | properties => true
  | get => count == 1
  | has => count == 1
  | _ => false

/-- Whether a call depends on the zoom level. -/
def readsZoom : Builtin → Bool
  | zoom => true
  | _ => false

end Builtin
end MapStyle

/-
Type checking.

`check` turns a document into a typed tree.  Scalars are literals; arrays are checked by the form
that their first item names.  What comes out is then brought in line with the expected type: a
type that fits is kept, a more general one gets an assertion, a string or an unknown value becomes
a color where one is expected, and everything else is a mistake.
-/
import MapStyle.Typing.Assertion
import MapStyle.Typing.Binding
import MapStyle.Typing.Call
import MapStyle.Typing.Coalesce
import MapStyle.Typing.Curve
import MapStyle.Typing.Literal
import MapStyle.Typing.Select

namespace MapStyle.Typing

/-- The check of the arguments that follow a name. -/
abbrev Form := List Arg → Context → Reporting (Option Expr)

/-- The form that a name begins. -/
def form? (name : String) : Option Form :=
  match name with
  | "literal" => some literal
  | "coalesce" => some coalesce
  | "match" => some select
  | "curve" => some curve
  | "let" => some letIn
  | "var" => some var
  | "number" => some (assertion .number)
  | "string" => some (assertion .string)
  | "boolean" => some (assertion .boolean)
  | "object" => some (assertion .object)
  | "array" => some arrayAssertion
  | name => (Builtin.ofName? name).map call

/-- Checks the items of an array: a name and its arguments. -/
def applied (items : List Arg) (ctx : Context) : Reporting (Option Expr) :=
  match items with
  | [] => ctx.report .emptyArray
  | head :: args =>
    match head.raw.str? with
    | none => ctx.reportAt [0] (.nameNotString head.raw.kind)
    | some name =>
      match form? name with
      | none => ctx.reportAt [0] (.unknownExpression name)
      | some form => form args ctx

/-- Brings a tree in line with the expected type. -/
def conform (e : Expr) (ctx : Context) : Reporting (Option Expr) :=
  match ctx.expected with
  | none => pure (some e)
  | some t =>
    if e.ty = .null ∨ t.accepts e.ty then pure (some e)
    else if t = .color ∧ (e.ty = .value ∨ e.ty = .string) then
      pure (some (.call e.path .color .toColor [e]))
    else if t ≠ .null ∧ t ≠ .color ∧ e.ty.accepts t then pure (some (.assertion e.path t [e]))
    else ctx.report (.typeMismatch t e.ty)

/-- Checks something and brings it in line with the expected type. -/
def settled (p : Context → Reporting (Option Expr)) (ctx : Context) : Reporting (Option Expr) := do
  match ← p ctx with
  | none => pure none
  | some e => conform e ctx

mutual

def check : Json → Context → Reporting (Option Expr)
  | .null => settled (scalar .null)
  | .bool b => settled (scalar (.bool b))
  | .num n => settled (scalar (.num n))
  | .str s => settled (scalar (.str s))
  | .arr items => settled (applied (checks items))
  | .obj _ => fun ctx => ctx.report .bareObject

def checks : List Json → List Arg
  | [] => []
  | j :: js => ⟨j, check j⟩ :: checks js

end

end MapStyle.Typing

/-
Checking literals.
-/
import MapStyle.Typing.Context
import MapStyle.Color.Css

namespace MapStyle.Typing

/-- The type of a literal where a type is expected: an empty array takes an expected array type on,
unless that fixes another length. -/
def literalTy (expected : Option Ty) (v : Value) : Ty :=
  match v.typeOf, expected with
  | .array _ (some 0), some (.array item none) => .array item none
  | .array _ (some 0), some (.array item (some 0)) => .array item (some 0)
  | t, _ => t

def literalOf (v : Value) (ctx : Context) : Reporting (Option Expr) :=
  if v.isValid then pure (some (.literal ctx.path (literalTy ctx.expected v) v))
  else ctx.report .invalidValue

/-- A scalar that stands for itself.  Where a color is expected, a string has to be one. -/
def scalar (j : Json) (ctx : Context) : Reporting (Option Expr) :=
  match j, ctx.expected with
  | .str s, some .color =>
    match Css.color? s with
    | some c => literalOf (.color c) ctx
    | none => ctx.report (.colorText s)
  | j, _ => literalOf (Value.ofJson j) ctx

/-- Checks `["literal", value]`. -/
def literal (args : List Arg) (ctx : Context) : Reporting (Option Expr) :=
  match args with
  | [arg] => literalOf (Value.ofJson arg.raw) ctx
  | args => ctx.report (.literalArity args.length)

end MapStyle.Typing

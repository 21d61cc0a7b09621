/-
Checking assertions.

`["number" | "string" | "boolean" | "object", input, …]` and `["array", item?, length?, input]`.
-/
import MapStyle.Typing.Context

namespace MapStyle.Typing

/-- An assertion of a type without parameters. -/
def assertion (ty : Ty) (args : List Arg) (ctx : Context) : Reporting (Option Expr) := do
  if args.isEmpty then ctx.report .assertionArity
  else
    let (_, checked) ← Reporting.sweep
      (fun (_ : Unit) (arg, i) => do pure ((), ← Arg.check arg (ctx.child i (some .value)))) ()
      (args.zipIdx 1)
    pure (checked.map fun inputs => .assertion ctx.path ty inputs)

/-- The item type that an array assertion names. -/
def itemTy? (j : Json) : Option Ty :=
  match j with
  | .str "string" => some .string
  | .str "number" => some .number
  | .str "boolean" => some .boolean
  | _ => none

/-- The length that an array assertion demands: a positive whole number. -/
def length? (j : Json) : Option Nat :=
  match j with
  | .num n => n.natural?.filter (0 < ·)
  | _ => none

/-- An array assertion with known parameters; the input stands at `i`. -/
def arrayOf (item : Ty) (len : Option Nat) (input : Arg) (i : Nat) (ctx : Context) :
    Reporting (Option Expr) := do
  let e ← input.check (ctx.child i (some .value))
  pure (e.map fun e => .assertion ctx.path (.array item len) [e])

/-- Checks `["array", item?, length?, input]`. -/
def arrayAssertion (args : List Arg) (ctx : Context) : Reporting (Option Expr) :=
  match args with
  | [input] => arrayOf .value none input 1 ctx
  | [item, input] =>
    match itemTy? item.raw with
    | some item => arrayOf item none input 2 ctx
    | none => ctx.reportAt [1] .arrayItem
  | [item, len, input] =>
    match itemTy? item.raw, length? len.raw with
    | some item, some len => arrayOf item (some len) input 3 ctx
    | none, _ => ctx.reportAt [1] .arrayItem
    | some _, none => ctx.reportAt [2] .arrayLength
  | args => ctx.report (.arrayArity args.length)

end MapStyle.Typing

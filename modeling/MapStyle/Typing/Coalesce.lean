/-
Checking `coalesce`.
-/
import MapStyle.Typing.Context

namespace MapStyle.Typing

/-- Checks `["coalesce", a, b, …]`. -/
def coalesce (args : List Arg) (ctx : Context) : Reporting (Option Expr) := do
  let (shared, checked) ← Reporting.sweep (fun shared (arg, i) => arg.checkOutput ctx i shared)
    ctx.expected (args.zipIdx 1)
  pure (checked.map fun es => .coalesce ctx.path (shared.getD .null) es)

end MapStyle.Typing

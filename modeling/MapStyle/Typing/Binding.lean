/-
Checking `let` and `var`.

The values of a `let` are checked in the scope around it; only its body sees the names.
-/
import MapStyle.Typing.Context

namespace MapStyle.Typing

/-- Whether a text can name a variable. -/
def isIdentifier (s : String) : Bool :=
  match s.toList with
  | [] => false
  | c :: cs => (c.isAlpha || c == '_') && cs.all fun c => c.isAlphanum || c == '_'

def nextBinding (ctx : Context) (binding : (Arg × Arg) × Nat) :
    Reporting (Option (String × Expr)) := do
  let ((name, value), k) := binding
  let i := 2 * k + 1
  match name.raw.str?.filter isIdentifier with
  | none => ctx.reportAt [i] (.variableName name.raw)
  | some name =>
    let e ← value.check (ctx.child (i + 1) none)
    pure (e.map fun e => (name, e))

/-- Checks `["let", name, value, …, body]`. -/
def letIn (args : List Arg) (ctx : Context) : Reporting (Option Expr) :=
  if args.length < 3 then ctx.report (.fewBindingArguments args.length)
  else match inPairs args with
    | (bindings, some last) => do
      let (_, checked) ← Reporting.sweep
        (fun (_ : Unit) binding => do pure ((), ← nextBinding ctx binding)) () bindings.zipIdx
      match checked with
      | none => pure none
      | some bound =>
        let body ← last.check
          (ctx.childWith args.length (bound.map fun (name, e) => (name, e.ty)))
        pure (body.map fun body => .letIn ctx.path (bound.map (·.1)) (bound.map (·.2)) body)
    | (_, none) => ctx.report .argumentsNotOdd

/-- Checks `["var", name]`. -/
def var (args : List Arg) (ctx : Context) : Reporting (Option Expr) :=
  match args with
  | [arg] =>
    match arg.raw.str? with
    | none => ctx.reportAt [1] .varNotString
    | some name =>
      match ctx.scope.lookup name with
      | some ty => pure (some (.var ctx.path ty name))
      | none => ctx.reportAt [1] (.unknownVariable name)
  | args => ctx.report (.varArity args.length)

end MapStyle.Typing

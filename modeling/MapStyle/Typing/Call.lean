/-
Checking calls of built-in functions.

A function with one signature has its arguments checked against it.  Of several signatures the
first one wins under which the arguments check without a diagnostic; if none does, the arguments
are checked without expectations, and their own mistakes or else their types are reported.
-/
import MapStyle.Typing.Context

namespace MapStyle.Typing

/-- Checks arguments, the one at `i` against `expected i`. -/
def arguments (args : List Arg) (expected : Nat → Option Ty) (ctx : Context) :
    Reporting (List (Option Expr)) := do
  let (_, checked) ← Reporting.along
    (fun (_ : Unit) (arg, i) => do pure ((), ← Arg.check arg (ctx.child (i + 1) (expected i)))) ()
    args.zipIdx
  pure checked

def callOf (fn : Builtin) (args : List Expr) (ctx : Context) : Expr :=
  .call ctx.path (fn.result (args.map Expr.ty)) fn args

/-- Checks arguments against a signature that takes as many. -/
def withSignature (fn : Builtin) (signature : Signature) (args : List Arg) (ctx : Context) :
    Reporting (Option Expr) := do
  let checked ← arguments args (fun i => some (signature.param i)) ctx
  pure ((Reporting.allOf checked).map fun es => callOf fn es ctx)

/-- The call under the first signature that fits without a diagnostic. -/
def firstFitting (fn : Builtin) (args : List Arg) (ctx : Context) :
    List Signature → Reporting (Option Expr)
  | [] => pure none
  | signature :: rest =>
    if signature.takes args.length then do
      match ← Reporting.apart (withSignature fn signature args ctx) with
      | (some e, []) => pure (some e)
      | _ => firstFitting fn args ctx rest
    else firstFitting fn args ctx rest

/-- Reports why no signature fits: the mistakes of the arguments themselves, else their types. -/
def noneFitting (fn : Builtin) (args : List Arg) (ctx : Context) : Reporting (Option Expr) := do
  match ← Reporting.apart (arguments args (fun _ => none) ctx) with
  | (checked, []) =>
    ctx.report (.noSignature fn.signatures ((checked.filterMap id).map Expr.ty))
  | (_, ds) => do
    Reporting.add ds
    pure none

def call (fn : Builtin) (args : List Arg) (ctx : Context) : Reporting (Option Expr) := do
  match fn.signatures with
  | [signature] =>
    if signature.takes args.length then withSignature fn signature args ctx
    else ctx.report (.callArity signature args.length)
  | signatures =>
    match ← firstFitting fn args ctx signatures with
    | some e => pure (some e)
    | none => noneFitting fn args ctx

end MapStyle.Typing

/-
Checking `match`.

All labels of all branches are of one type, which becomes the type expected of the input, and no
two of them have the same text.
-/
import MapStyle.Typing.Context

namespace MapStyle.Typing

def label (j : Json) (i : Nat) (ctx : Context) : Reporting (Option Label) :=
  match j with
  | .str s => pure (some (.string s))
  | .num n =>
    let x := n.toFloat
    if maxSafeInteger < x.abs then ctx.reportAt [i] .labelTooLarge
    else if isWhole x then pure (some (.number x))
    else ctx.reportAt [i] .labelNotWhole
  | _ => ctx.reportAt [i] .labelKind

/-- What is known of the labels: their type and the branches of their texts. -/
structure LabelsSeen where
  ty : Option Ty
  table : Dict Nat

/-- Checks a label of the branch `branch`, which stands at `i`, against the earlier ones. -/
def nextLabel (ctx : Context) (branch i : Nat) (seen : LabelsSeen) (j : Json) :
    Reporting (LabelsSeen × Option Label) := do
  match ← label j i ctx with
  | none => pure (seen, none)
  | some l =>
    let ty := seen.ty.getD l.ty
    if ty ≠ l.ty then
      pure (seen, ← ctx.reportAt [i] (.typeMismatch ty l.ty))
    else if seen.table.has l.text then
      pure (⟨some ty, seen.table⟩, ← ctx.reportAt [i] .labelRepeated)
    else pure (⟨some ty, seen.table.insert l.text branch⟩, some l)

/-- The labels of a branch: the items of an array, or a single one. -/
def branchLabels (arg : Arg) : List Json :=
  match arg.raw with
  | .arr items => items
  | j => [j]

/-- What is known after some branches: their labels, and the type that the outputs share. -/
structure BranchesSeen where
  labels : LabelsSeen
  shared : Option Ty

/-- Checks a branch: its labels, then its output. -/
def nextBranch (ctx : Context) (seen : BranchesSeen) (branch : (Arg × Arg) × Nat) :
    Reporting (BranchesSeen × Option (List Label × Expr)) := do
  let ((labels, output), k) := branch
  let i := 2 * k + 2
  if (branchLabels labels).isEmpty then
    pure (seen, ← ctx.reportAt [i] .noLabels)
  else
    let (known, ls) ← Reporting.sweep (nextLabel ctx k i) seen.labels (branchLabels labels)
    let (shared, e) ← output.checkOutput ctx (i + 1) seen.shared
    match ls, e with
    | some ls, some e => pure (⟨known, shared⟩, some (ls, e))
    | _, _ => pure (⟨known, shared⟩, none)

/-- Checks `["match", input, labels, output, …, otherwise]`. -/
def select (args : List Arg) (ctx : Context) : Reporting (Option Expr) :=
  if args.length < 4 then ctx.report (.fewArguments args.length)
  else match args with
    | input :: rest =>
      match inPairs rest with
      | (branches, some last) => do
        let (seen, checked) ← Reporting.sweep (nextBranch ctx) ⟨⟨none, []⟩, ctx.expected⟩
          branches.zipIdx
        let input ← input.check (ctx.child 1 seen.labels.ty)
        let otherwise ← last.check (ctx.child args.length seen.shared)
        match input, otherwise, seen.labels.ty, checked with
        | some input, some otherwise, some inputTy, some checked =>
          pure (some (.select ctx.path (seen.shared.getD otherwise.ty) inputTy input
            seen.labels.table (checked.map (·.1)) (checked.map (·.2)) otherwise))
        | _, _, _, _ => pure none
      | (_, none) => ctx.report .argumentsNotEven
    | [] => ctx.report .argumentsNotEven

end MapStyle.Typing

/-
Contexts and reports.

Type checking of a part of a document happens in a `Context`: where the part stands, which type is
expected of it, which names are in scope and which types can be blended.  What is found wrong is
added to one list of diagnostics; checking goes on past a mistake, so that all of them are found.
-/
import MapStyle.Curve.Blend
import MapStyle.Diagnostic

namespace MapStyle

/-- The surroundings of a part of a document. -/
structure Context where
  path : Path
  expected : Option Ty
  /-- The types of the names in scope, the innermost first. -/
  scope : List (String × Ty)
  interpolators : Interpolators

/-- A computation that adds to the list of diagnostics. -/
abbrev Reporting (α : Type) := StateM (List Diagnostic) α

/-- A part of a document that is still to be checked, in a context to be chosen. -/
structure Arg where
  raw : Json
  check : Context → Reporting (Option Expr)

namespace Reporting

def add (ds : List Diagnostic) : Reporting Unit := modify (· ++ ds)

/-- Runs a computation on a list of its own and yields its diagnostics beside its result. -/
def apart {α : Type} (p : Reporting α) : Reporting (α × List Diagnostic) :=
  fun ds => (p.run [], ds)

/-- All results of a list, `none` if one is missing. -/
def allOf {α : Type} : List (Option α) → Option (List α)
  | [] => some []
  | none :: _ => none
  | some a :: rest => (allOf rest).map (a :: ·)

/-- Takes steps along a list, also past failures; what one step leaves is the start of the next. -/
def along {σ α β : Type} (step : σ → α → Reporting (σ × Option β)) :
    σ → List α → Reporting (σ × List (Option β))
  | s, [] => pure (s, [])
  | s, a :: rest => do
    let (s, b) ← step s a
    let (s, bs) ← along step s rest
    pure (s, b :: bs)

/-- Takes steps along a list and yields all results, or none if a step failed. -/
def sweep {σ α β : Type} (step : σ → α → Reporting (σ × Option β)) (s : σ) (as : List α) :
    Reporting (σ × Option (List β)) := do
  let (s, bs) ← along step s as
  pure (s, allOf bs)

end Reporting

namespace Context

def root (expected : Option Ty) (interpolators : Interpolators) : Context :=
  ⟨[], expected, [], interpolators⟩

def child (ctx : Context) (i : Nat) (expected : Option Ty) : Context :=
  { ctx with path := ctx.path ++ [i], expected }

/-- The context of the part at an index, with more names in scope; the last one is innermost. -/
def childWith (ctx : Context) (i : Nat) (names : List (String × Ty)) : Context :=
  { ctx with path := ctx.path ++ [i], scope := names.reverse ++ ctx.scope }

/-- Complains about a part below. -/
def reportAt {α : Type} (ctx : Context) (below : Path) (c : Complaint) :
    Reporting (Option α) := do
  Reporting.add [⟨ctx.path ++ below, c⟩]
  pure none

def report {α : Type} (ctx : Context) (c : Complaint) : Reporting (Option α) := ctx.reportAt [] c

end Context

/-- The type that the outputs of a node share, as far as it is known: the expected one, or that of
the first output that is not merely null. -/
def learn (shared : Option Ty) (e : Expr) : Option Ty :=
  match shared with
  | some t => some t
  | none => if e.ty = .null then none else some e.ty

/-- Checks an output against the shared type and learns from it. -/
def Arg.checkOutput (arg : Arg) (ctx : Context) (i : Nat) (shared : Option Ty) :
    Reporting (Option Ty × Option Expr) := do
  match ← arg.check (ctx.child i shared) with
  | some e => pure (learn shared e, some e)
  | none => pure (shared, none)

/-- The items of a list in pairs, and the one that is left over. -/
def inPairs {α : Type} : List α → List (α × α) × Option α
  | [] => ([], none)
  | [a] => ([], some a)
  | a :: b :: rest => ((a, b) :: (inPairs rest).1, (inPairs rest).2)

end MapStyle

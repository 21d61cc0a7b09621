/-
Evaluation of expression trees.

Each kind of node has a `Rule`; `Expr.eval` answers its questions by evaluating the operands.  The
values of names stand on a stack that a `letIn` extends for its body and cuts back afterwards,
whatever the body comes to.  Easings that were built are kept from one evaluation to the next.
-/
import MapStyle.Builtin.Rules
import MapStyle.Curve.Stops
import MapStyle.Expr.Basic

namespace MapStyle

/-- What an evaluation changes as it goes. -/
structure EvalState where
  /-- The names in scope, the innermost first. -/
  scope : List (String × Value)
  easings : EasingCache

/-- An evaluation that has not been run yet.  The state survives an error. -/
abbrev Evaluation (α : Type) := EvalState → Outcome α × EvalState

namespace Rule

/-- Follows a rule, evaluating the operands that it asks for. -/
def run {α : Type} (operands : List (Evaluation Value)) : Rule α → Evaluation α
  | done r, st => (r, st)
  | ask i next, st =>
    match operands[i]? with
    | some operand =>
      let (r, after) := operand st
      run operands (next r) after
    | none => (throw (.missingOperand i), st)
  | ease p next, st =>
    let (easing, easings) := st.easings.easing p
    run operands (next easing) ⟨st.scope, easings⟩

end Rule

namespace Expr

/-- The first of `count` operands from `i` on that neither fails nor is null; the error of the
last one counts. -/
def coalesceRule : (count i : Nat) → Rule Value
  | 0, _ => pure .null
  | count + 1, i => do
    match ← Rule.attempt i with
    | .ok v => if v.isNull then coalesceRule count (i + 1) else pure v
    | .error e =>
      if count = 0 ∨ e.isFault then Rule.fail e else coalesceRule count (i + 1)

/-- Operand 0 is the input, operand 1 the output for an input without a branch; the outputs of
the branches follow. -/
def selectRule (inputTy : Ty) (table : Dict Nat) : Rule Value := do
  let input ← Rule.operand 0
  let v ← input.asType inputTy
  let text ← v.toText
  match table.get? text with
  | some branch => Rule.operand (branch + 2)
  | none => Rule.operand 1

/-- Operand 0 is the input; the outputs of the stops follow. -/
def curveRule (interpolators : Interpolators) (ty : Ty) (interpolation : Interpolation)
    (labels : List Float) : Rule Value := do
  let input ← Rule.operand 0
  let v ← input.asType .number
  Curve.value interpolators labels interpolation ty (fun i => Rule.operand (i + 1))
    (v.number?.getD (0.0 / 0.0))

/-- The first of `count` operands from `i` on that is of a type; the last one has to be. -/
def assertionRule (ty : Ty) : (count i : Nat) → Rule Value
  | 0, _ => pure .null
  | 1, i => do
    let v ← Rule.operand i
    v.asType ty
  | count + 2, i => do
    let v ← Rule.operand i
    match v.asType ty with
    | .ok w => pure w
    | .error _ => assertionRule ty (count + 1) (i + 1)

/-- Runs evaluations in order up to the first error. -/
def evalInOrder : List (Evaluation Value) → Evaluation (List Value)
  | [], st => (pure [], st)
  | e :: es, st =>
    match e st with
    | (.error err, st) => (.error err, st)
    | (.ok v, st) =>
      match evalInOrder es st with
      | (.error err, st) => (.error err, st)
      | (.ok vs, st) => (.ok (v :: vs), st)

/-- The scope with new names, the last one innermost. -/
def bindNames (names : List String) (values : List Value) (scope : List (String × Value)) :
    List (String × Value) :=
  (names.zip values).reverse ++ scope

/-- Runs a body with names in scope and cuts the scope back to its former height. -/
def inScope (names : List String) (values : List Value) (body : Evaluation Value) :
    Evaluation Value := fun st =>
  let after := body ⟨bindNames names values st.scope, st.easings⟩
  (after.1, ⟨after.2.scope.drop (after.2.scope.length - st.scope.length), after.2.easings⟩)

def lookUp (name : String) (scope : List (String × Value)) : Outcome Value :=
  match scope.lookup name with
  | some v => pure v
  | none => throw (.unknownVariable name)

mutual

def eval (scene : Scene) : Expr → Evaluation Value
  | literal _ _ v => fun st => (pure v, st)
  | coalesce _ _ args => (coalesceRule args.length 0).run (evalEach scene args)
  | select _ _ inputTy input table _ outputs otherwise =>
    (selectRule inputTy table).run
      (eval scene input :: eval scene otherwise :: evalEach scene outputs)
  | curve _ ty interpolation input labels outputs =>
    (curveRule scene.interpolators ty interpolation labels).run
      (eval scene input :: evalEach scene outputs)
  | letIn _ names values body => fun st =>
    match evalInOrder (evalEach scene values) st with
    | (.error e, st) => (.error e, st)
    | (.ok vs, st) => inScope names vs (eval scene body) st
  | var _ _ name => fun st => (lookUp name st.scope, st)
  | assertion _ ty inputs => (assertionRule ty inputs.length 0).run (evalEach scene inputs)
  | call _ _ fn args => (fn.rule scene args.length).run (evalEach scene args)

def evalEach (scene : Scene) : List Expr → List (Evaluation Value)
  | [] => []
  | e :: es => eval scene e :: evalEach scene es

end

end Expr
end MapStyle

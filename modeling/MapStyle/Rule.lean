/-
Evaluation rules.

How a node gets its value from its operands is a `Rule`: it asks for the result of one operand
after the other, by index, in the order in which they are to be evaluated, and ends with an
outcome.  An operand that is not asked for is not evaluated.  A rule may also ask for an easing.
Rules know nothing of scopes and caches; whoever evaluates a tree answers their questions.
-/
import MapStyle.Curve.Easing
import MapStyle.Value.Coerce

namespace MapStyle

/-- A computation that asks for operands and easings. -/
inductive Rule (α : Type) where
  | done (outcome : Outcome α)
  | ask (operand : Nat) (next : Outcome Value → Rule α)
  | ease (points : ControlPoints) (next : Easing → Rule α)

namespace Rule

variable {α β : Type}

/-- Goes on with the result of a rule; an error ends it. -/
def bind : Rule α → (α → Rule β) → Rule β
  | done (.ok a), f => f a
  | done (.error e), _ => done (.error e)
  | ask i next, f => ask i fun r => bind (next r) f
  | ease p next, f => ease p fun e => bind (next e) f

instance : Monad Rule where
  pure a := done (.ok a)
  bind := bind

instance : MonadLift (Except EvalError) Rule where
  monadLift := done

def fail (e : EvalError) : Rule α := done (.error e)

def operand (i : Nat) : Rule Value := ask i done

/-- The outcome of an operand, an error included. -/
def attempt (i : Nat) : Rule (Outcome Value) := ask i fun r => done (.ok r)

/-- The easing with the given control points. -/
def easing (p : ControlPoints) : Rule Easing := ease p fun e => done (.ok e)

/-- A part of an operand that only values of a type have. -/
def typed (expected : Ty) (part : Value → Option α) (i : Nat) : Rule α := do
  let v ← operand i
  match part v with
  | some a => pure a
  | none => fail (.typeMismatch expected v.typeOf)

def number (i : Nat) : Rule Float := typed .number Value.number? i

def string (i : Nat) : Rule String := typed .string Value.string? i

def boolean (i : Nat) : Rule Bool := typed .boolean Value.bool? i

def color (i : Nat) : Rule Color := typed .color Value.color? i

def array (i : Nat) : Rule (List Value) := typed .anyArray Value.array? i

/-- What a rule comes to when the operands have the given outcomes. -/
def answer (operands : List (Outcome Value)) : Rule α → Outcome α
  | done r => r
  | ask i next =>
    match operands[i]? with
    | some r => answer operands (next r)
    | none => throw (.missingOperand i)
  | ease p next => answer operands (next (Easing.ofPoints p))

end Rule
end MapStyle

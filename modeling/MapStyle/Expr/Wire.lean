/-
The wire form of expression trees.

`Expr.toJson` writes a tree as a document: a scalar literal as itself, every other node as an array
that begins with a name.  What type checking inserts has a written form too.
-/
import MapStyle.Expr.Basic

namespace MapStyle.Expr

def literalJson : Value → Json
  | .color c => .call "rgba" (c.wire.map .ofFloat)
  | .array items => .call "literal" [(Value.array items).toJson]
  | .object fields => .call "literal" [(Value.object fields).toJson]
  | v => v.toJson

/-- Branch labels and outputs in turn. -/
def branchJson : List (List Label) → List Json → List Json
  | labels :: rest, output :: outputs =>
    .arr (labels.map Label.toJson) :: output :: branchJson rest outputs
  | _, _ => []

/-- Stop labels and outputs in turn. -/
def stopJson : List Float → List Json → List Json
  | label :: labels, output :: outputs => .ofFloat label :: output :: stopJson labels outputs
  | _, _ => []

/-- Names and values in turn. -/
def bindingJson : List String → List Json → List Json
  | name :: names, value :: values => .str name :: value :: bindingJson names values
  | _, _ => []

/-- The name of a kind of type in wire form. -/
def kindJson (t : Ty) : String := String.ofList (t.kindName.toList.map Char.toLower)

/-- What stands before the input of an array assertion. -/
def arrayParameters (item : Ty) (len : Option Nat) : List Json :=
  (if item ≠ .value ∨ len ≠ none then [.str (kindJson item)] else []) ++
    (match len with
      | some n => [.ofNat n]
      | none => [])

def assertionJson (t : Ty) (inputs : List Json) : Json :=
  match t with
  | .array item len => .call "array" (arrayParameters item len ++ inputs)
  | t => .call (kindJson t) inputs

mutual

def toJson : Expr → Json
  | literal _ _ v => literalJson v
  | coalesce _ _ args => .call "coalesce" (toItems args)
  | select _ _ _ input _ labels outputs otherwise =>
    .call "match" (toJson input :: (branchJson labels (toItems outputs) ++ [toJson otherwise]))
  | curve _ _ interpolation input labels outputs =>
    .call "curve" (interpolation.toJson :: toJson input :: stopJson labels (toItems outputs))
  | letIn _ names values body => .call "let" (bindingJson names (toItems values) ++ [toJson body])
  | var _ _ name => .call "var" [.str name]
  | assertion _ t inputs => assertionJson t (toItems inputs)
  | call _ _ fn args => .call fn.name (toItems args)

def toItems : List Expr → List Json
  | [] => []
  | e :: es => toJson e :: toItems es

end

end MapStyle.Expr

/-
Expression trees.

A tree is what type checking makes of a document: every node knows its static type and the path
from the root of the document to where it was written.  Nodes are built once and never changed.
-/
import MapStyle.Builtin
import MapStyle.Curve.Interpolation
import MapStyle.Value.Wire

namespace MapStyle

/-- Indices from the root of a document down to a part of it. -/
abbrev Path := List Nat

/-- A path as it is shown: the indices with dots between them. -/
def Path.text (path : Path) : String := ".".intercalate (path.map toString)

/-- A label of a branch: a whole number or a text. -/
inductive Label where
  | number (x : Float)
  | string (s : String)

namespace Label

/-- The text by which a label is looked up. -/
def text : Label → String
  | number x => numberText x
  | string s => s

/-- The type of values that a label can equal. -/
def ty : Label → Ty
  | number _ => .number
  | string _ => .string

def toJson : Label → Json
  | number x => .ofFloat x
  | string s => .str s

end Label

/-- A typed expression. -/
inductive Expr where
  /-- A constant. -/
  | literal (path : Path) (ty : Ty) (value : Value)
  /-- The first argument that neither fails nor is null. -/
  | coalesce (path : Path) (ty : Ty) (args : List Expr)
  /-- The output of the branch that has the input among its labels.  `table` sends the text of
  each label to the index of its branch. -/
  | select (path : Path) (ty : Ty) (inputTy : Ty) (input : Expr) (table : Dict Nat)
      (labels : List (List Label)) (outputs : List Expr) (otherwise : Expr)
  /-- A look-up between stops with ascending labels. -/
  | curve (path : Path) (ty : Ty) (interpolation : Interpolation) (input : Expr)
      (labels : List Float) (outputs : List Expr)
  /-- A body in which names stand for values. -/
  | letIn (path : Path) (names : List String) (values : List Expr) (body : Expr)
  /-- A name that an enclosing `letIn` binds. -/
  | var (path : Path) (ty : Ty) (name : String)
  /-- The first input that is of a type. -/
  | assertion (path : Path) (ty : Ty) (inputs : List Expr)
  /-- A call of a built-in function. -/
  | call (path : Path) (ty : Ty) (fn : Builtin) (args : List Expr)

namespace Expr

def path : Expr → Path
  | literal p _ _ => p
  | coalesce p _ _ => p
  | select p _ _ _ _ _ _ _ => p
  | curve p _ _ _ _ _ => p
  | letIn p _ _ _ => p
  | var p _ _ => p
  | assertion p _ _ => p
  | call p _ _ _ => p

/-- The static type of a node; a body gives its type to the `letIn` around it. -/
def ty : Expr → Ty
  | literal _ t _ => t
  | coalesce _ t _ => t
  | select _ t _ _ _ _ _ _ => t
  | curve _ t _ _ _ _ => t
  | letIn _ _ _ body => body.ty
  | var _ t _ => t
  | assertion _ t _ => t
  | call _ t _ _ => t

/-- The nodes directly below a node, in the order in which they are visited. -/
def children : Expr → List Expr
  | literal _ _ _ => []
  | coalesce _ _ args => args
  | select _ _ _ input _ _ outputs otherwise => input :: (outputs ++ [otherwise])
  | curve _ _ _ input _ outputs => input :: outputs
  | letIn _ _ values body => values ++ [body]
  | var _ _ _ => []
  | assertion _ _ inputs => inputs
  | call _ _ _ args => args

mutual

/-- A node and all nodes below it, each before its children. -/
def nodes : Expr → List Expr
  | literal p t v => [literal p t v]
  | coalesce p t args => coalesce p t args :: nodesOf args
  | select p t inputTy input table labels outputs otherwise =>
    select p t inputTy input table labels outputs otherwise ::
      (nodes input ++ (nodesOf outputs ++ nodes otherwise))
  | curve p t interpolation input labels outputs =>
    curve p t interpolation input labels outputs :: (nodes input ++ nodesOf outputs)
  | letIn p names values body => letIn p names values body :: (nodesOf values ++ nodes body)
  | var p t name => [var p t name]
  | assertion p t inputs => assertion p t inputs :: nodesOf inputs
  | call p t fn args => call p t fn args :: nodesOf args

def nodesOf : List Expr → List Expr
  | [] => []
  | e :: es => nodes e ++ nodesOf es

end

def isCallOf (fn : Builtin) : Expr → Bool
  | call _ _ g _ => g == fn
  | _ => false

/-- Whether a node itself looks at the properties of the feature. -/
def readsFeature : Expr → Bool
  | call _ _ fn args => fn.readsFeature args.length
  | _ => false

/-- Whether a node itself looks at the zoom level. -/
def readsZoom : Expr → Bool
  | call _ _ fn _ => fn.readsZoom
  | _ => false

/-- No node of the tree looks at the properties of the feature. -/
def isFeatureConstant (e : Expr) : Bool := e.nodes.all fun n => !n.readsFeature

/-- No node of the tree looks at the zoom level. -/
def isZoomConstant (e : Expr) : Bool := e.nodes.all fun n => !n.readsZoom

end Expr
end MapStyle

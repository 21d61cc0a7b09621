/-
Running commands.

A run ends in a report on standard output, or in an error after the diagnostics, or is refused
because of its arguments.  Help and the version are reports too.
-/
import MapStyle.CommandLine.Arguments
import MapStyle.Json.Reader
import MapStyle.Style.Function
import MapStyle.Ty.Reader

namespace MapStyle.CommandLine

/-- Why a command failed. -/
inductive Failure where
  | notJson (what : String)
  | unknownType (name : String)
  | expression (diagnostics : List Diagnostic)
  | style (error : StyleError)
  | evaluation (error : EvalError)

namespace Failure

def message : Failure → String
  | notJson what => "parse " ++ what ++ " JSON"
  | unknownType name => "unknown type '" ++ name ++ "'"
  | expression ds => "expression has " ++ toString ds.length ++ " error(s)"
  | style e => e.message
  | evaluation e => e.message

/-- The diagnostics that come before the failure. -/
def diagnostics : Failure → List String
  | expression ds => ds.map Diagnostic.display
  | _ => []

end Failure

/-- A document given as text. -/
def document (what : String) (text : String) : Except Failure Json :=
  match Json.read? text with
  | some j => .ok j
  | none => .error (.notJson what)

/-- A type given by name. -/
def expectedTy (name : Option String) : Except Failure (Option Ty) :=
  match name with
  | none => .ok none
  | some name =>
    match Ty.ofName? name with
    | some t => .ok (some t)
    | none => .error (.unknownType name)

/-- An expression given as text, checked against a type given by name. -/
def compileText (expr : String) (ty : Option String) : Except Failure Compiled := do
  let j ← document "expression" expr
  let expected ← expectedTy ty
  (compile j expected .standard).mapError .expression

def propertiesOf (text : String) : Except Failure Properties := do
  pure (Properties.ofJson (← document "properties" text))

def specOf (text : String) : Except Failure PropertySpec :=
  match (Json.readAsWritten? text).bind PropertySpec.ofJson? with
  | some spec => .ok spec
  | none => .error (.notJson "property spec")

def checkReport (expr : String) (ty : Option String) : Except Failure String := do
  let c ← compileText expr ty
  pure (Json.ofMembers [
    ("type", .str c.ty.name),
    ("isFeatureConstant", .bool c.isFeatureConstant),
    ("isZoomConstant", .bool c.isZoomConstant),
    ("expression", c.toJson)]).pretty

def evalReport (expr : String) (ty : Option String) (zoom : Float) (properties : String) :
    Except Failure String := do
  let c ← compileText expr ty
  let properties ← propertiesOf properties
  match (c.evaluate .empty zoom properties).1 with
  | .ok v => pure v.toJson.compact
  | .error e => pure (Json.ofMembers [("error", .str e.message)]).compact

def functionReport (spec value : String) (zoom : Float) (properties : String) :
    Except Failure String := do
  let spec ← specOf spec
  let definition ← document "property value" value
  let f ← (StyleFunction.create definition spec .standard).mapError .style
  let properties ← propertiesOf properties
  let v ← (f.evaluate .empty zoom properties).1.mapError .evaluation
  let position ← (f.position zoom).mapError .evaluation
  pure (Json.ofMembers [
    ("value", (v.map Value.toJson).getD .null),
    ("isFeatureConstant", .bool f.compiled.isFeatureConstant),
    ("isZoomConstant", .bool f.compiled.isZoomConstant),
    ("zoomStops", (f.sampling.map fun s => Json.arr (s.stops.map .double)).getD .null),
    ("interpolationT", (position.map Json.double).getD .null)]).pretty

def report : Command → Except Failure String
  | .check expr ty => checkReport expr ty
  | .eval expr ty zoom properties => evalReport expr ty zoom properties
  | .function spec value zoom properties => functionReport spec value zoom properties

/-- How a run ends. -/
inductive Ending where
  | printed (report : String)
  | failed (failure : Failure)
  | refused

/-- Runs the command that the arguments ask for. -/
def run (args : List String) : Ending :=
  match readArguments false args with
  | .error .refused => .refused
  | .error .version => .printed versionLine
  | .error (.help topic) => .printed (helpText topic)
  | .ok c =>
    match report c with
    | .ok s => .printed s
    | .error f => .failed f

namespace Ending

def code : Ending → Nat
  | printed _ => 0
  | failed _ => 1
  | refused => 2

def output : Ending → String
  | printed s => s ++ "\n"
  | _ => ""

/-- What is written on standard error: diagnostics, then the failure. -/
def errors : Ending → List String
  | printed _ => []
  | failed f => f.diagnostics ++ ["Error: " ++ f.message]
  | refused => ["error: the arguments are refused"]

end Ending
end MapStyle.CommandLine

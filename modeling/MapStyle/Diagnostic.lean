/-
Diagnostics of type checking.

A diagnostic says where in the document something is wrong and what.  Each `Complaint` is one
cause; `message` is the only place where causes become text.
-/
import MapStyle.Expr.Basic
import MapStyle.Text.Blank

namespace MapStyle

/-- What is wrong with a part of a document. -/
inductive Complaint where
  | bareObject
  | emptyArray
  | nameNotString (kind : String)
  | unknownExpression (name : String)
  | typeMismatch (expected actual : Ty)
  | invalidValue
  | colorText (text : String)
  | literalArity (found : Nat)
  /-- Fewer than the four arguments that branches and stops need. -/
  | fewArguments (found : Nat)
  | argumentsNotEven
  | noLabels
  | labelTooLarge
  | labelNotWhole
  | labelKind
  | labelRepeated
  | missingInterpolation
  | missingBase
  | controlPoints
  | unknownInterpolation (found : Json)
  | stopLabelKind (kind : String)
  | stopLabelTooLarge
  | stopsNotAscending
  | notInterpolatable (ty : Ty) (interpolation : String)
  | fewBindingArguments (found : Nat)
  | argumentsNotOdd
  | variableName (found : Json)
  | varArity (found : Nat)
  | varNotString
  | unknownVariable (name : String)
  | assertionArity
  | arrayArity (found : Nat)
  | arrayItem
  | arrayLength
  | callArity (signature : Signature) (found : Nat)
  | noSignature (signatures : List Signature) (found : List Ty)

namespace Complaint

def message : Complaint → String
  | bareObject => "Bare objects invalid. Use [\"literal\", \x7b...\x7d] instead."
  | emptyArray =>
    "Expected an array with at least one element. If you wanted a literal array, use [\"literal\", []]."
  | nameNotString kind =>
    "Expression name must be a string, but found " ++ kind ++
      " instead. If you wanted a literal array, use [\"literal\", [...]]."
  | unknownExpression name =>
    "Unknown expression \"" ++ name ++
      "\". If you wanted a literal array, use [\"literal\", [...]]."
  | typeMismatch expected actual => Ty.mismatchText expected actual
  | invalidValue => "invalid value"
  | colorText text => "Could not parse color from value '" ++ text ++ "'"
  | literalArity found =>
    "'literal' expression requires exactly one argument, but found " ++ toString found ++
      " instead."
  | fewArguments found =>
    "Expected at least 4 arguments, but found only " ++ toString found ++ "."
  | argumentsNotEven => "Expected an even number of arguments."
  | noLabels => "Expected at least one branch label."
  | labelTooLarge =>
    "Overflow: numeric branch labels must be no larger than " ++ numberText maxSafeInteger ++ "."
  | labelNotWhole => "Numeric branch labels must be integer values."
  | labelKind => "Branch labels must be numbers or strings."
  | labelRepeated => "Branch labels must be unique."
  | missingInterpolation => "Expected an interpolation type expression."
  | missingBase => "Exponential interpolation requires a numeric base."
  | controlPoints =>
    "Cubic bezier interpolation requires four numeric arguments with values between 0 and 1."
  | unknownInterpolation found => "Unknown interpolation type " ++ found.compact
  | stopLabelKind kind =>
    "Input/output pairs for \"curve\" expressions must be defined using literal numeric values (not computed expressions) for the input values, but found "
      ++ kind ++ " instead."
  | stopLabelTooLarge =>
    "Numeric values must be no larger than " ++ numberText maxSafeInteger ++ "."
  | stopsNotAscending =>
    "Input/output pairs for \"curve\" expressions must be arranged with input values in strictly ascending order."
  | notInterpolatable ty interpolation =>
    "Type " ++ ty.name ++ " is not interpolatable, and thus cannot be used as a " ++
      interpolation ++ " curve's output type."
  | fewBindingArguments found =>
    "Expected at least 3 arguments, but found " ++ toString found ++ " instead."
  | argumentsNotOdd => "Expected an odd number of arguments."
  | variableName found =>
    "Variable names must contain only alphanumeric characters or '_', and may not start with a digit; found "
      ++ found.compact ++ "."
  | varArity found =>
    "'var' expression requires exactly one string literal argument, but found " ++
      toString found ++ " instead."
  | varNotString => "'var' expression requires a string literal argument."
  | unknownVariable name =>
    "Unknown variable \"" ++ name ++ "\". Make sure \"" ++ name ++
      "\" has been bound in an enclosing \"let\" expression before using it."
  | assertionArity => "Expected at least one argument."
  | arrayArity found =>
    "Expected 1, 2, or 3 arguments, but found " ++ toString found ++ " instead."
  | arrayItem => "The item type argument of \"array\" must be one of string, number, boolean"
  | arrayLength => "The length argument to \"array\" must be a positive integer literal"
  | callArity signature found => signature.arityText found
  | noSignature signatures found =>
    "Expected arguments of type " ++ " | ".intercalate (signatures.map Signature.describe) ++
      ", but found (" ++ ", ".intercalate (found.map Ty.name) ++ ") instead."

end Complaint

/-- A complaint and the place that it is about. -/
structure Diagnostic where
  path : Path
  complaint : Complaint

namespace Diagnostic

def message (d : Diagnostic) : String := d.complaint.message

/-- The complaint after its place; a complaint about the root stands alone. -/
def display (d : Diagnostic) : String :=
  if d.path.isEmpty then d.message else d.path.text ++ ": " ++ d.message

/-- All diagnostics in one line. -/
def summary (ds : List Diagnostic) : String := ", ".intercalate (ds.map display)

/-- Whether the complaint of one of the diagnostics contains a text. -/
def anyMentions (ds : List Diagnostic) (needle : String) : Bool :=
  ds.any fun d => Text.occursIn needle.toList d.message.toList

end Diagnostic
end MapStyle

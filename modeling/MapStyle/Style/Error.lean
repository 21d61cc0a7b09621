/-
Errors of style functions.
-/
import MapStyle.Diagnostic

namespace MapStyle

/-- Why a definition makes no style function, although it may make an expression. -/
inductive ConfigError where
  | identityWithoutProperty
  | stopShape (input : Json)
  | zoomOutsideCurve
  | severalZoomCurves (path : Path)

def ConfigError.message : ConfigError → String
  | identityWithoutProperty => "Identity functions require a \"property\" to read."
  | stopShape input =>
    "Zoom-and-property function stops must have numeric \"zoom\" and a \"value\"; found "
      ++ input.compact ++ "."
  | zoomOutsideCurve => "Invalid zoom expression"
  | severalZoomCurves path =>
    (if path.isEmpty then "" else path.text ++ ": ") ++
      "Only one zoom-based curve may be used in a style function."

/-- Why a definition makes no style function. -/
inductive StyleError where
  /-- The expression does not check. -/
  | parse (diagnostics : List Diagnostic)
  | config (error : ConfigError)
  /-- A stop function with missing or ill-formed fields. -/
  | malformed

def StyleError.message : StyleError → String
  | parse ds => "parse error: " ++ Diagnostic.summary ds
  | config e => "configuration error: " ++ e.message
  | malformed => "serialization error:"

end MapStyle

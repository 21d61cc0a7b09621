/-
What the command line offers.

The subcommands and their options stand in one table: arguments are read against it, and the help
texts are written from it.
-/
namespace MapStyle.CommandLine

/-- What happens where an option is not given. -/
inductive Absence where
  /-- The arguments are refused. -/
  | refused
  /-- The command does without. -/
  | allowed
  /-- A value stands in. -/
  | filled (value : String)

/-- An option that takes a value. -/
structure Setting where
  name : String
  /-- What stands for the value in a help text. -/
  placeholder : String
  about : String
  absence : Absence

namespace Setting

def expr : Setting := ⟨"expr", "EXPR", "Expression JSON", .refused⟩

def ty : Setting := ⟨"type", "TY", "Expected result type", .allowed⟩

/-- The same option, explained by examples. -/
def tyByExample : Setting :=
  { ty with about := "Expected result type, e.g. `Number` or `Array<Number, 2>`" }

def spec : Setting :=
  ⟨"spec", "SPEC",
    "Property spec JSON, e.g. `\x7b\"type\": \"color\", \"default\": \"#000\"\x7d`", .refused⟩

def value : Setting :=
  ⟨"value", "VALUE",
    "Property value: a constant, a legacy function or `\x7b\"expression\": ...\x7d`", .refused⟩

def zoom : Setting := ⟨"zoom", "ZOOM", "Zoom level", .filled "0"⟩

def props : Setting :=
  ⟨"props", "PROPS", "Feature properties as a JSON object", .filled "\x7b\x7d"⟩

/-- How the option is written. -/
def usage (s : Setting) : String := "--" ++ s.name ++ " <" ++ s.placeholder ++ ">"

/-- The option and what it is for. -/
def row (s : Setting) : String × String :=
  ("    " ++ s.usage, match s.absence with
    | .filled v => s.about ++ " [default: " ++ v ++ "]"
    | _ => s.about)

def isNeeded (s : Setting) : Bool :=
  match s.absence with
  | .refused => true
  | _ => false

end Setting

/-- The words that can follow the program's name. -/
inductive Subcommand where
  | check
  | eval
  | function
  | help
deriving DecidableEq

namespace Subcommand

/-- All of them, in the order of the help text. -/
def all : List Subcommand := [check, eval, function, help]

def name : Subcommand → String
  | check => "check"
  | eval => "eval"
  | function => "function"
  | help => "help"

def about : Subcommand → String
  | check => "Parse and type-check an expression; print its type and normalized form"
  | eval => "Evaluate an expression at a zoom level against feature properties"
  | function => "Build a style function from a property definition and evaluate it"
  | help => "Print this message or the help of the given subcommand(s)"

def ofName? (name : String) : Option Subcommand := all.find? (·.name = name)

theorem ofName?_name (c : Subcommand) : ofName? c.name = some c := by
  cases c <;> decide

/-- The options of a subcommand, in the order of its help text. -/
def settings : Subcommand → List Setting
  | check => [.expr, .tyByExample]
  | eval => [.expr, .ty, .zoom, .props]
  | function => [.spec, .value, .zoom, .props]
  | help => []

end Subcommand

def programName : String := "style-expr"

def versionLine : String := programName ++ " 0.1.0"

/-- Rows in two columns, the second as far to the left as the first allows. -/
def columns (rows : List (String × String)) : List String :=
  let width := rows.foldl (fun w r => max w r.1.length) 0
  rows.map fun r => "  " ++ r.1.pushn ' ' (width + 2 - r.1.length) ++ r.2

/-- How the arguments are put together. -/
def usageLine (words : List String) : String :=
  "Usage: " ++ String.intercalate " " (programName :: words)

def verboseRow : String × String :=
  ("-v, --verbose", "Log parse and evaluation diagnostics to stderr")

def helpRow : String × String := ("-h, --help", "Print help")

def versionRow : String × String := ("-V, --version", "Print version")

/-- The options of a subcommand and of all of them; the flag that they share comes second. -/
def optionRows (c : Subcommand) : List (String × String) :=
  (c.settings.map Setting.row).insertIdx 1 verboseRow ++ [helpRow]

/-- The paragraphs of the help on the program as a whole, or on a subcommand. -/
def helpParagraphs : Option Subcommand → List (List String)
  | none =>
    [[usageLine ["[OPTIONS]", "<COMMAND>"]],
      "Commands:" :: columns (Subcommand.all.map fun c => (c.name, c.about)),
      "Options:" :: columns [verboseRow, helpRow, versionRow]]
  | some .help =>
    [[Subcommand.help.about],
      [usageLine ["help", "[COMMAND]..."]],
      "Arguments:" :: columns [("[COMMAND]...", "Print help for the subcommand(s)")]]
  | some c =>
    [[c.about],
      [usageLine (c.name :: "[OPTIONS]" :: (c.settings.filter Setting.isNeeded).map Setting.usage)],
      "Options:" :: columns (optionRows c)]

/-- The help on the program as a whole, or on a subcommand. -/
def helpText (topic : Option Subcommand) : String :=
  String.intercalate "\n\n" ((helpParagraphs topic).map (String.intercalate "\n"))

end MapStyle.CommandLine

/-
Command-line arguments.

Words are read from left to right, and the first that settles the matter ends the reading: a word
out of place, or a request for help or for the version.  An option is written `--name value` or
`--name=value` and at most once; a value that begins with a dash has to be attached.  Flags of one
letter can share a dash.
-/
import MapStyle.CommandLine.Usage
import MapStyle.Decimal.Numeral
import MapStyle.Dict

namespace MapStyle.CommandLine

/-- What is to be done. -/
inductive Command where
  /-- Check an expression and show its type and wire form. -/
  | check (expr : String) (ty : Option String)
  /-- Evaluate an expression. -/
  | eval (expr : String) (ty : Option String) (zoom : Float) (properties : String)
  /-- Build a style function and evaluate it. -/
  | function (spec : String) (value : String) (zoom : Float) (properties : String)

/-- Why the reading of arguments ends without a command. -/
inductive Stop where
  | refused
  | version
  /-- Help on a subcommand, or on the program as a whole. -/
  | help (topic : Option Subcommand)

/-- The value, if there is one. -/
def orRefused {α : Type} : Option α → Except Stop α
  | some a => .ok a
  | none => .error .refused

/-- Whether a word begins with a dash and is more than that. -/
def isDashed (word : String) : Bool :=
  match word.toList with
  | '-' :: _ :: _ => true
  | _ => false

/-- The letters of the flags in a word. -/
def flags? (word : String) : Option (List Char) :=
  match word with
  | "--verbose" => some ['v']
  | "--help" => some ['h']
  | "--version" => some ['V']
  | _ =>
    match word.toList with
    | '-' :: '-' :: _ => none
    | '-' :: c :: cs => some (c :: cs)
    | _ => none

/-- Reads flags one after the other, and tells whether logs are verbose after them.  Only the
program as a whole has a version. -/
def readFlags (topic : Option Subcommand) : (verbose : Bool) → List Char → Except Stop Bool
  | verbose, [] => .ok verbose
  | verbose, 'v' :: cs => if verbose then .error .refused else readFlags topic true cs
  | _, 'h' :: _ => .error (.help topic)
  | _, 'V' :: _ => .error (if topic = none then .version else .refused)
  | _, _ :: _ => .error .refused

/-- Options by name, as they were given. -/
abbrev Options := Dict String

/-- The name of a long option and the value attached to it. -/
def longOption? (word : String) : Option (String × Option String) :=
  match word.toList with
  | '-' :: '-' :: cs =>
    let name := String.ofList (cs.takeWhile (· ≠ '='))
    match cs.dropWhile (· ≠ '=') with
    | [] => some (name, none)
    | _ :: value => some (name, some (String.ofList value))
  | _ => none

/-- Whether an option can have a value: a zoom level is a number. -/
def isValueOf (name value : String) : Bool := name != Setting.zoom.name || (numeral? value.toList).isSome

/-- Adds an option that the subcommand has and that was not given before. -/
def take (c : Subcommand) (taken : Options) (name value : String) : Except Stop Options :=
  if (c.settings.map Setting.name).contains name && !taken.has name && isValueOf name value then
    .ok (taken.insert name value)
  else .error .refused

/-- Reads the options of a subcommand. -/
def readOptions (c : Subcommand) : (verbose : Bool) → (taken : Options) → List String →
    Except Stop Options
  | _, taken, [] => .ok taken
  | verbose, taken, word :: rest =>
    match flags? word with
    | some letters => do readOptions c (← readFlags (some c) verbose letters) taken rest
    | none =>
      if word = "--" then if rest = [] then .ok taken else .error .refused
      else match longOption? word with
        | none => .error .refused
        | some (name, value) =>
          match value, rest with
          | some v, rest => do readOptions c verbose (← take c taken name v) rest
          | none, v :: rest =>
            if isDashed v then .error .refused
            else do readOptions c verbose (← take c taken name v) rest
          | none, [] => .error .refused

/-- The value of an option, given or standing in. -/
def Setting.given? (s : Setting) (given : Options) : Option String :=
  match given.get? s.name, s.absence with
  | some v, _ => some v
  | none, .filled v => some v
  | none, _ => none

def zoom? (given : Options) : Option Float :=
  (Setting.zoom.given? given).bind fun s => numeral? s.toList

/-- The command of a subcommand with its options, `none` where one of them is missing. -/
def Subcommand.command? (given : Options) : Subcommand → Option Command
  | check => do
    pure (.check (← Setting.expr.given? given) (Setting.ty.given? given))
  | eval => do
    pure (.eval (← Setting.expr.given? given) (Setting.ty.given? given) (← zoom? given)
      (← Setting.props.given? given))
  | function => do
    pure (.function (← Setting.spec.given? given) (← Setting.value.given? given) (← zoom? given)
      (← Setting.props.given? given))
  | help => none

/-- What the subcommand for help answers. -/
def helpOn : List String → Stop
  | [] => .help none
  | [word] => ((Subcommand.ofName? word).map fun c => .help (some c)).getD .refused
  | _ => .refused

/-- The command that the arguments ask for. -/
def readArguments : (verbose : Bool) → List String → Except Stop Command
  | _, [] => .error .refused
  | verbose, word :: rest =>
    match flags? word with
    | some letters => do readArguments (← readFlags none verbose letters) rest
    | none =>
      match Subcommand.ofName? word with
      | none => .error .refused
      | some .help => .error (helpOn rest)
      | some c => do orRefused (c.command? (← readOptions c false [] rest))

end MapStyle.CommandLine

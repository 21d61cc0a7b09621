/-
Written JSON.

`compact` has no blanks; `pretty` puts each member and item on a line of its own, indented by two
blanks per level.
-/
import MapStyle.Json.Basic
import MapStyle.Decimal.Layout

namespace MapStyle

/-- The text of a number: whole numbers as digits, doubles in their shortest form. -/
def Number.text : Number → String
  | .int n => toString n
  | .real x _ => ((Binary.ofFloat? x).map Layout.json.binaryText).getD "null"

namespace Json

/-- The characters with a short escape of their own, by code point. -/
def shortEscapes : List (Nat × String) :=
  [(0x22, "\\\""), (0x5C, "\\\\"), (0x8, "\\b"), (0xC, "\\f"), (0xA, "\\n"), (0xD, "\\r"),
    (0x9, "\\t")]

/-- A character inside a written string: control characters, quotation mark and backslash are
escaped. -/
def escapeChar (c : Char) : String :=
  match shortEscapes.lookup c.toNat with
  | some escape => escape
  | none =>
    if c.toNat < 0x20 then
      "\\u00" ++ toString (c.toNat / 16) ++ String.singleton (Nat.digitChar (c.toNat % 16))
    else String.singleton c

def quote (s : String) : String := "\"" ++ String.join (s.toList.map escapeChar) ++ "\""

mutual

/-- The text of a document without blanks. -/
def compact : Json → String
  | null => "null"
  | bool b => if b then "true" else "false"
  | num n => n.text
  | str s => quote s
  | arr items => "[" ++ ",".intercalate (compactItems items) ++ "]"
  | obj fields => "\x7b" ++ ",".intercalate (compactFields fields) ++ "\x7d"

def compactItems : List Json → List String
  | [] => []
  | j :: js => compact j :: compactItems js

def compactFields : List (String × Json) → List String
  | [] => []
  | (k, j) :: rest => (quote k ++ ":" ++ compact j) :: compactFields rest

end

/-- The line break before something at a level. -/
def lineAt (level : Nat) : String := "\n" ++ String.ofList (List.replicate (2 * level) ' ')

/-- Parts between brackets, each on a line of its own; nothing between them if there are none. -/
def block (level : Nat) (start : String) (stop : String) (parts : List String) : String :=
  if parts.isEmpty then start ++ stop
  else start ++ lineAt (level + 1) ++ ("," ++ lineAt (level + 1)).intercalate parts
    ++ lineAt level ++ stop

mutual

/-- The indented text of a document that stands at a level. -/
def prettyAt (level : Nat) : Json → String
  | null => "null"
  | bool b => if b then "true" else "false"
  | num n => n.text
  | str s => quote s
  | arr items => block level "[" "]" (prettyItems (level + 1) items)
  | obj fields => block level "\x7b" "\x7d" (prettyFields (level + 1) fields)

def prettyItems (level : Nat) : List Json → List String
  | [] => []
  | j :: js => prettyAt level j :: prettyItems level js

def prettyFields (level : Nat) : List (String × Json) → List String
  | [] => []
  | (k, j) :: rest => (quote k ++ ": " ++ prettyAt level j) :: prettyFields level rest

end

/-- The indented text of a document. -/
def pretty (j : Json) : String := prettyAt 0 j

end Json
end MapStyle

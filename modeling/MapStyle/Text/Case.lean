/-
Upper and lower case of texts.

Each character has its full case mapping, which may be several characters.  One mapping looks at
its surroundings: a capital sigma that ends a word becomes the final small sigma.
-/
import MapStyle.Text.CaseTable
import MapStyle.Text.Ranges

namespace MapStyle.Text

open CaseTable (Run)

/-- Where a run sends a code point, if it covers it. -/
def runTarget? (n : Nat) (r : Run) : Option Nat :=
  if r.first ≤ n ∧ n ≤ r.last ∧ (n - r.first) % r.stride = 0 then some (n + r.shift).toNat
  else none

/-- The image of a character beyond ASCII under a table of runs and a table of sequences. -/
def mapBeyondAscii (runs : List Run) (special : List (Nat × List Nat)) (c : Char) : List Char :=
  match special.lookup c.toNat with
  | some ns => ns.map Char.ofNat
  | none => [((runs.findSome? (runTarget? c.toNat)).map Char.ofNat).getD c]

def upperChar (c : Char) : List Char :=
  if c.toNat < 0x80 then [c.toUpper]
  else mapBeyondAscii CaseTable.upperRuns CaseTable.upperSpecial c

/-- The lower case of a character on its own. -/
def lowerChar (c : Char) : List Char :=
  if c.toNat < 0x80 then [c.toLower]
  else mapBeyondAscii CaseTable.lowerRuns CaseTable.lowerSpecial c

def isCased (c : Char) : Bool :=
  if c.toNat < 0x80 then c.isAlpha else inRanges CaseTable.casedRanges c.toNat

def isCaseIgnorable (c : Char) : Bool :=
  if c.toNat < 0x80 then [0x27, 0x2E, 0x3A, 0x5E, 0x60].contains c.toNat
  else inRanges CaseTable.ignorableRanges c.toNat

/-- Whether the first character that is not ignorable is cased. -/
def meetsCased (cs : List Char) : Bool :=
  ((cs.dropWhile isCaseIgnorable).head?.map isCased).getD false

/-- Lower case, given the characters before in reverse: a sigma is final when a cased character
stands before it and none after it. -/
def lowerFrom : List Char → List Char → List Char
  | _, [] => []
  | before, c :: cs =>
    (if c = 'Σ' then [if meetsCased before && !meetsCased cs then 'ς' else 'σ'] else lowerChar c)
      ++ lowerFrom (c :: before) cs

def upper (s : String) : String := String.ofList (s.toList.flatMap upperChar)

def lower (s : String) : String := String.ofList (lowerFrom [] s.toList)

end MapStyle.Text

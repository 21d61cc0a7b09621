/-
Quoted texts.

Inside quotation marks, the marks themselves, backslashes and what cannot be seen are escaped.
-/
import MapStyle.Text.Invisible
import MapStyle.Text.Ranges

namespace MapStyle.Text

/-- The escape of a character by its code point, as in `\u{7f}`. -/
def codeEscape (c : Char) : String :=
  "\\u\x7b" ++ String.ofList (Nat.toDigits 16 c.toNat) ++ "\x7d"

/-- The characters with a short escape of their own, by code point. -/
def shortEscape? (c : Char) : Option String :=
  [(0x0, "\\0"), (0x9, "\\t"), (0xA, "\\n"), (0xD, "\\r"), (0x22, "\\\""), (0x5C, "\\\\")].lookup
    c.toNat

/-- Whether a character is not shown as it is. -/
def isInvisible (c : Char) : Bool :=
  if c.toNat < 0x80 then c.toNat < 0x20 || c.toNat == 0x7F else inRanges invisibleRanges c.toNat

def quotedChar (c : Char) : String :=
  match shortEscape? c with
  | some escape => escape
  | none => if isInvisible c then codeEscape c else String.singleton c

def quoted (s : String) : String := "\"" ++ String.join (s.toList.map quotedChar) ++ "\""

end MapStyle.Text

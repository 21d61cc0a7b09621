/-
CSS color texts.

Three spellings are read: hexadecimal digits after `#`, the functions `rgb`, `rgba`, `hsl` and
`hsla` with commas between their arguments, and the common color names.  Case does not count.
-/
import MapStyle.Color.Names
import MapStyle.Text.Blank
import MapStyle.Decimal.Numeral

namespace MapStyle.Css

/-- The value of a hexadecimal digit in lower case. -/
def nibble? (c : Char) : Option UInt8 :=
  if c.isDigit then some (c.toNat - 48).toUInt8
  else if 'a' ≤ c ∧ c ≤ 'f' then some (c.toNat - 87).toUInt8
  else none

def byte? (c d : Char) : Option UInt8 := do pure ((← nibble? c) * 16 + (← nibble? d))

def alphaOfByte (a : UInt8) : Float := a.toFloat / 255

/-- The color after a `#`: three or four digits, each standing for itself twice, or six or eight. -/
def hex? : List Char → Option Color
  | [r, g, b] => do pure (Color.ofBytes (← byte? r r) (← byte? g g) (← byte? b b) 1)
  | [r, g, b, a] => do
    pure (Color.ofBytes (← byte? r r) (← byte? g g) (← byte? b b) (alphaOfByte (← byte? a a)))
  | [r, r', g, g', b, b'] => do
    pure (Color.ofBytes (← byte? r r') (← byte? g g') (← byte? b b') 1)
  | [r, r', g, g', b, b', a, a'] => do
    pure (Color.ofBytes (← byte? r r') (← byte? g g') (← byte? b b') (alphaOfByte (← byte? a a')))
  | _ => none

/-- The arguments of a function call, without blanks around them. -/
def arguments? (name : String) (cs : List Char) : Option (List (List Char)) := do
  let rest ← Text.after? name.toList cs
  let inner ← Text.after? ['('] (Text.trimStart rest)
  let inner ← Text.before? ')' inner
  pure ((Text.splitCommas inner).map Text.trim)

def finite? (cs : List Char) : Option Float := (numeral? cs).filter Float.isFinite

/-- A finite number, or a percentage of `whole`. -/
def component? (whole : Float) (cs : List Char) : Option Float :=
  match Text.before? '%' cs with
  | some p => ((numeral? (Text.trim p)).map fun v => v / 100 * whole).filter Float.isFinite
  | none => finite? cs

/-- The alpha argument; one that is left out is 1. -/
def alpha? : List (List Char) → Option Float
  | [] => some 1
  | a :: _ => (component? 1 a).map (clamp 0 1)

/-- A channel argument of `rgb`. -/
def rgbChannel? (cs : List Char) : Option Float :=
  (component? 255 cs).map fun v => clamp 0 255 v / 255

def rgb? : List (List Char) → Option Color
  | r :: g :: b :: rest =>
    if 1 < rest.length then none
    else do pure ⟨← rgbChannel? r, ← rgbChannel? g, ← rgbChannel? b, ← alpha? rest⟩
  | _ => none

/-- The channel at hue `t` between the darkest and the brightest channel. -/
def hueChannel (p q t : Float) : Float :=
  let t := if t < 0 then t + 1 else t
  let t := if 1 < t then t - 1 else t
  if t < 1.0 / 6.0 then p + (q - p) * 6.0 * t
  else if t < 1.0 / 2.0 then q
  else if t < 2.0 / 3.0 then p + (q - p) * (2.0 / 3.0 - t) * 6.0
  else p

/-- The color of a hue in degrees, a saturation and a lightness. -/
def ofHsl (hue saturation lightness alpha : Float) : Color :=
  let h := remainder (remainder hue 360 + 360) 360 / 360
  let s := clamp 0 1 saturation
  let l := clamp 0 1 lightness
  if s == 0 then ⟨l, l, l, alpha⟩
  else
    let q := if l < 0.5 then l * (1 + s) else l + s - l * s
    let p := 2 * l - q
    ⟨hueChannel p q (h + 1.0 / 3.0), hueChannel p q h, hueChannel p q (h - 1.0 / 3.0), alpha⟩

def hsl? : List (List Char) → Option Color
  | h :: s :: l :: rest =>
    if 1 < rest.length then none
    else do pure (ofHsl (← finite? h) (← component? 1 s) (← component? 1 l) (← alpha? rest))
  | _ => none

def named? (cs : List Char) : Option Color :=
  let name := String.ofList cs
  if name = "transparent" then some Color.transparent
  else (Color.names.lookup name).map fun (r, g, b) => Color.ofBytes r g b 1

def color? (s : String) : Option Color :=
  let cs := (Text.trim s.toList).map Char.toLower
  match Text.after? ['#'] cs with
  | some digits => hex? digits
  | none =>
    match (arguments? "rgba" cs).or (arguments? "rgb" cs) with
    | some args => rgb? args
    | none =>
      match (arguments? "hsla" cs).or (arguments? "hsl" cs) with
      | some args => hsl? args
      | none => named? cs

end MapStyle.Css

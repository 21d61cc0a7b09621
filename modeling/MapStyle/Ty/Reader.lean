/-
Type names.

`Ty.ofName?` reads the names that `Ty.name` writes, with blanks allowed around every part.  The
length of an array stands after the last comma that is not inside an item type.
-/
import MapStyle.Ty.Basic
import MapStyle.Text.Blank
import MapStyle.Decimal.Numeral

namespace MapStyle.Ty

/-- The types whose names have no parts. -/
def plain : List Ty := [null, number, string, boolean, color, object, value, anyArray]

/-- No bracket is closed that is not open; `depth` counts the open ones. -/
def balanced (depth : Nat) : List Char → Bool
  | [] => true
  | c :: cs =>
    if c = '<' then balanced (depth + 1) cs
    else if c = '>' then depth ≠ 0 && balanced (depth - 1) cs
    else balanced depth cs

/-- Splits at the last comma that is inside no bracket. -/
def splitLastComma (depth : Nat) : List Char → Option (List Char × List Char)
  | [] => none
  | c :: cs =>
    let inside := if c = '<' then depth + 1 else if c = '>' then depth - 1 else depth
    match splitLastComma inside cs with
    | some (before, after) => some (c :: before, after)
    | none => if c = ',' ∧ depth = 0 then some ([], cs) else none

/-- The item and the length of an array's parameters; without a length when there is no comma, or
when the brackets are not balanced. -/
def parts (inner : List Char) : List Char × Option (List Char) :=
  match if balanced 0 inner then splitLastComma 0 inner else none with
  | some (item, len) => (item, some len)
  | none => (inner, none)

/-- Lengths fit 64 bits. -/
def maxLength : Nat := UInt64.size - 1

/-- A length: digits, with blanks around them. -/
def length? (cs : List Char) : Option Nat :=
  let ds := Text.trim cs
  let n := Numeral.value 0 ds
  if ds ≠ [] ∧ ds.all Char.isDigit ∧ n ≤ maxLength then some n else none

/-- What stands between `Array<` and the final `>`. -/
def parameters? (cs : List Char) : Option (List Char) :=
  (Text.after? "Array<".toList cs).bind (Text.before? '>')

theorem length_parameters {cs inner : List Char} (h : parameters? cs = some inner) :
    inner.length < cs.length := by
  obtain ⟨rest, hr, hb⟩ := Option.bind_eq_some_iff.1 h
  rw [Text.after?_eq_some_iff.1 hr, Text.before?_eq_some_iff.1 hb]
  simp only [List.length_append, List.length_cons]
  omega

theorem length_splitLastComma {depth : Nat} {cs item len : List Char}
    (h : splitLastComma depth cs = some (item, len)) : item.length ≤ cs.length := by
  induction cs generalizing depth item len with
  | nil => simp [splitLastComma] at h
  | cons c cs ih =>
    simp only [splitLastComma] at h
    generalize (if c = '<' then depth + 1 else if c = '>' then depth - 1 else depth) = inside at h
    split at h
    · rename_i before after hsplit
      simp only [Option.some.injEq, Prod.mk.injEq] at h
      have := ih hsplit
      rw [← h.1]
      simpa using this
    · split at h
      · simp only [Option.some.injEq, Prod.mk.injEq] at h
        simp [← h.1]
      · simp at h

theorem length_parts (inner : List Char) : (parts inner).1.length ≤ inner.length := by
  unfold parts
  split
  · rename_i h
    split at h
    · exact length_splitLastComma h
    · simp at h
  · exact Nat.le_refl _

def ofChars? (cs : List Char) : Option Ty :=
  match plain.find? (fun t => t.name.toList == Text.trim cs) with
  | some t => some t
  | none =>
    match _h : parameters? (Text.trim cs) with
    | none => none
    | some inner =>
      match (parts inner).2 with
      | none => (ofChars? (parts inner).1).map (array · none)
      | some len => (length? len).bind fun n => (ofChars? (parts inner).1).map (array · (some n))
termination_by cs.length
decreasing_by
  all_goals
    have := length_parameters _h
    have := Text.length_trim_le cs
    have := length_parts inner
    omega

def ofName? (s : String) : Option Ty := ofChars? s.toList

end MapStyle.Ty

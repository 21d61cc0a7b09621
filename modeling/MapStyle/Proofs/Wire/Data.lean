/-
# `MapStyle.Proofs.Wire.Data` — the data of trees, written and read back

A tree carries values, branch labels, stop labels and interpolations.  Each of them is written to a
document and read back by checking, and comes back as it was except that a negative zero has lost
its sign.  `unsigned` on each kind of data is what comes back.

The conditions that the judgement puts on data do not see the difference, so data that was checked
once checks again.
-/
import MapStyle.Proofs.Typing.Judgement

namespace MapStyle

open Typing

/-! ## Numbers -/

theorem num?_ofFloat {x : Float} (h : x.isFinite = true) :
    (Json.ofFloat x).num? = some (unsigned x) := by
  obtain ⟨n, hn, hx⟩ := toFloat_ofFloat? h
  rw [Json.ofFloat, hn]
  exact congrArg some hx

theorem ofFloat_unsigned (x : Float) : Json.ofFloat (unsigned x) = Json.ofFloat x := by
  rw [Json.ofFloat, Json.ofFloat, ofFloat?_unsigned]

/-! ## Values -/

namespace Value

mutual

/-- A value with the signs of zeros left out. -/
def unsigned : Value → Value
  | number x => number (MapStyle.unsigned x)
  | array items => array (unsignedItems items)
  | object fields => object (unsignedFields fields)
  | v => v

def unsignedItems : List Value → List Value
  | [] => []
  | v :: vs => unsigned v :: unsignedItems vs

def unsignedFields : List (String × Value) → List (String × Value)
  | [] => []
  | (k, v) :: rest => (k, unsigned v) :: unsignedFields rest

end

mutual

theorem ofJson_toJson : ∀ j : Json, ofJson (ofJson j).toJson = (ofJson j).unsigned
  | .null => rfl
  | .bool _ => rfl
  | .num n => by
      obtain ⟨m, hm, hx⟩ := toFloat_ofFloat? n.isFinite_toFloat
      rw [ofJson, toJson, Json.ofFloat, hm]
      exact congrArg number hx
  | .str _ => rfl
  | .arr items => congrArg array (ofItems_toItems items)
  | .obj fields => congrArg object (ofFields_toFields fields)

theorem ofItems_toItems : ∀ js : List Json,
    ofItems (toItems (ofItems js)) = unsignedItems (ofItems js)
  | [] => rfl
  | j :: js => by
      rw [ofItems, toItems, ofItems, unsignedItems, ofJson_toJson j, ofItems_toItems js]

theorem ofFields_toFields : ∀ fields : List (String × Json),
    ofFields (toFields (ofFields fields)) = unsignedFields (ofFields fields)
  | [] => rfl
  | (k, j) :: rest => by
      rw [ofFields, toFields, ofFields, unsignedFields, ofJson_toJson j, ofFields_toFields rest]

end

mutual

theorem typeOf_unsigned : ∀ v : Value, v.unsigned.typeOf = v.typeOf
  | null => rfl
  | bool _ => rfl
  | number _ => rfl
  | string _ => rfl
  | color _ => rfl
  | array items => by
      rw [unsigned, typeOf, typeOf, typesOf_unsignedItems, length_unsignedItems]
  | object _ => rfl

theorem typesOf_unsignedItems : ∀ vs : List Value, typesOf (unsignedItems vs) = typesOf vs
  | [] => rfl
  | v :: vs => by rw [unsignedItems, typesOf, typesOf, typeOf_unsigned v, typesOf_unsignedItems vs]

theorem length_unsignedItems : ∀ vs : List Value, (unsignedItems vs).length = vs.length
  | [] => rfl
  | _ :: vs => congrArg (· + 1) (length_unsignedItems vs)

end

mutual

theorem toJson_unsigned : ∀ v : Value, v.unsigned.toJson = v.toJson
  | null => rfl
  | bool _ => rfl
  | number x => by rw [unsigned, toJson, toJson, ofFloat_unsigned]
  | string _ => rfl
  | color _ => rfl
  | array items => by rw [unsigned, toJson, toJson, toItems_unsigned]
  | object fields => by rw [unsigned, toJson, toJson, toFields_unsigned]

theorem toItems_unsigned : ∀ vs : List Value, toItems (unsignedItems vs) = toItems vs
  | [] => rfl
  | v :: vs => by rw [unsignedItems, toItems, toItems, toJson_unsigned v, toItems_unsigned vs]

theorem toFields_unsigned : ∀ fields : List (String × Value),
    toFields (unsignedFields fields) = toFields fields
  | [] => rfl
  | (k, v) :: rest => by
      rw [unsignedFields, toFields, toFields, toJson_unsigned v, toFields_unsigned rest]

end

mutual

/-- Documents hold no colors, so every value of one is valid. -/
theorem isValid_ofJson : ∀ j : Json, (ofJson j).isValid = true
  | .null => rfl
  | .bool _ => rfl
  | .num _ => rfl
  | .str _ => rfl
  | .arr items => allValid_ofItems items
  | .obj fields => fieldsValid_ofFields fields

theorem allValid_ofItems : ∀ js : List Json, allValid (ofItems js) = true
  | [] => rfl
  | j :: js => by rw [ofItems, allValid, isValid_ofJson j, allValid_ofItems js]; rfl

theorem fieldsValid_ofFields : ∀ fields : List (String × Json), fieldsValid (ofFields fields) = true
  | [] => rfl
  | (_, j) :: rest => by
      rw [ofFields, fieldsValid, isValid_ofJson j, fieldsValid_ofFields rest]; rfl

end

end Value

theorem literalTy_congr {expected : Option Ty} {v w : Value} (h : v.typeOf = w.typeOf) :
    literalTy expected v = literalTy expected w := by
  simp only [literalTy]
  rw [h]

/-! ## Labels -/

def Label.unsigned : Label → Label
  | .number x => .number (MapStyle.unsigned x)
  | .string s => .string s

theorem Label.ty_unsigned (l : Label) : l.unsigned.ty = l.ty := by
  cases l <;> rfl

theorem Label.text_unsigned (l : Label) : l.unsigned.text = l.text := by
  cases l with
  | number x => exact numberText_unsigned x
  | string s => rfl

theorem Label.toJson_unsigned (l : Label) : l.unsigned.toJson = l.toJson := by
  cases l with
  | number x => exact ofFloat_unsigned x
  | string s => rfl

theorem labelOf?_toJson {l : Label} (h : l.WellFormed) : labelOf? l.toJson = some l.unsigned := by
  cases l with
  | string s => rfl
  | number x =>
      obtain ⟨hsmall, hwhole⟩ := h
      obtain ⟨n, hn, hx⟩ := toFloat_ofFloat? (isFinite_of_isWhole hwhole)
      simp only [Label.toJson, Json.ofFloat, hn, labelOf?, hx, abs_unsigned, if_neg hsmall,
        isWhole_unsigned, hwhole, if_true, Label.unsigned]

namespace Typing

theorem LabelsSeen.add_unsigned (branch : Nat) (seen : LabelsSeen) (l : Label) :
    seen.add branch l.unsigned = seen.add branch l := by
  simp only [LabelsSeen.add, Label.ty_unsigned, Label.text_unsigned]

theorem LabelsSeen.addAll_unsigned (branch : Nat) (ls : List Label) (seen : LabelsSeen) :
    (ls.map Label.unsigned).foldl (LabelsSeen.add branch) seen =
      ls.foldl (LabelsSeen.add branch) seen := by
  induction ls generalizing seen with
  | nil => rfl
  | cons l ls ih => rw [List.map_cons, List.foldl_cons, List.foldl_cons, add_unsigned, ih]

theorem LabelsSeen.takesAll_unsigned {branch : Nat} {ls : List Label} {seen : LabelsSeen}
    (h : seen.TakesAll branch ls) : seen.TakesAll branch (ls.map Label.unsigned) := by
  induction ls generalizing seen with
  | nil => trivial
  | cons l ls ih =>
      obtain ⟨⟨hty, htext⟩, hrest⟩ := h
      refine ⟨⟨?_, ?_⟩, ?_⟩
      · rw [Label.ty_unsigned]
        exact hty
      · rw [Label.text_unsigned]
        exact htext
      · rw [add_unsigned]
        exact ih hrest

theorem stopFollows_unsigned {before : Option Float} {x : Float} (h : StopFollows before x) :
    StopFollows (before.map unsigned) (unsigned x) := by
  obtain ⟨hsmall, habove⟩ := h
  refine ⟨by rwa [abs_unsigned], ?_⟩
  cases before with
  | none => rfl
  | some y =>
      simp only [Option.map_some, Option.any_some, unsigned_le_iff] at habove ⊢
      exact habove

/-! ## Interpolations -/

end Typing

def ControlPoints.unsigned (p : ControlPoints) : ControlPoints :=
  ⟨MapStyle.unsigned p.x1, MapStyle.unsigned p.y1, MapStyle.unsigned p.x2, MapStyle.unsigned p.y2⟩

def Interpolation.unsigned : Interpolation → Interpolation
  | .step => .step
  | .linear => .linear
  | .exponential base => .exponential (MapStyle.unsigned base)
  | .cubicBezier p => .cubicBezier p.unsigned

theorem Interpolation.isStep_unsigned (kind : Interpolation) :
    kind.unsigned.isStep = kind.isStep := by
  cases kind <;> rfl

theorem Interpolation.toJson_unsigned (kind : Interpolation) :
    kind.unsigned.toJson = kind.toJson := by
  cases kind with
  | step => rfl
  | linear => rfl
  | exponential base =>
      simp only [toJson, unsigned, parameters, name, List.map_cons, List.map_nil, ofFloat_unsigned]
  | cubicBezier p =>
      simp only [toJson, unsigned, parameters, name, ControlPoints.unsigned, ControlPoints.toList,
        List.map_cons, List.map_nil, ofFloat_unsigned]

/-- A well-formed interpolation is described by what it is written as. -/
theorem describes_toJson {kind : Interpolation} (h : kind.WellFormed) :
    Describes kind.toJson kind.unsigned := by
  cases kind with
  | step => exact .step _
  | linear => exact .linear _
  | exponential base => exact .exponential (num?_ofFloat h)
  | cubicBezier p =>
      obtain ⟨x1, y1, x2, y2⟩ := p
      simp only [Interpolation.WellFormed, ControlPoints.toList, List.forall_mem_cons] at h
      obtain ⟨⟨hx1, hx1'⟩, ⟨hy1, hy1'⟩, ⟨hx2, hx2'⟩, ⟨hy2, hy2'⟩, _⟩ := h
      refine .cubicBezier ?_
      simp [num?_ofFloat, hx1, hy1, hx2, hy2, inRange_unsigned, hx1', hy1', hx2', hy2']

end MapStyle

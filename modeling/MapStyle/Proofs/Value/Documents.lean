/-
# `MapStyle.Proofs.Value.Documents` — values as documents, and back

A document has no colors and no numbers but finite ones, and only one zero.  A value that needs none
of the others comes back from its wire form equal to what it was, and of the same type
(`Value.ofJson_toJson_of_portable`); it comes back with the signs of zeros left out, which equality
does not see.  Every other value comes back as something else: a color as a list of its wire
channels, a number that is not finite as null.  One trip is enough to normalize, whatever the value
was: what comes back is written as the document that it was read from.

Every statement about values has a companion about items and one about members.
-/
import MapStyle.Proofs.Decimal.Order
import MapStyle.Proofs.Wire.Data

namespace MapStyle.Value

mutual

/-- A value that documents have: no color is in it, and its numbers are finite. -/
def isPortable : Value → Bool
  | number x => x.isFinite
  | color _ => false
  | array items => allPortable items
  | object fields => fieldsPortable fields
  | _ => true

def allPortable : List Value → Bool
  | [] => true
  | v :: vs => isPortable v && allPortable vs

def fieldsPortable : List (String × Value) → Bool
  | [] => true
  | (_, v) :: rest => isPortable v && fieldsPortable rest

end

/-! ## Numbers -/

theorem ofJson_ofFloat {x : Float} (h : x.isFinite = true) :
    ofJson (.ofFloat x) = number (MapStyle.unsigned x) := by
  obtain ⟨n, hn, hx⟩ := toFloat_ofFloat? h
  rw [Json.ofFloat, hn]
  exact congrArg number hx

/-- A number that is not finite is lost in a document. -/
theorem ofFloat_of_not_finite {x : Float} (h : x.isFinite = false) : Json.ofFloat x = .null := by
  have hnone : Number.ofFloat? x = none := by
    rw [Number.ofFloat?, dif_neg (by simp [h])]
  rw [Json.ofFloat, hnone]

/-- The document of any double is the one that is written for what is read off it. -/
theorem toJson_ofJson_ofFloat (x : Float) : (ofJson (.ofFloat x)).toJson = .ofFloat x := by
  cases h : x.isFinite with
  | true => rw [ofJson_ofFloat h, toJson, ofFloat_unsigned]
  | false =>
      rw [ofFloat_of_not_finite h]
      rfl

theorem toItems_ofItems_ofFloat (xs : List Float) :
    toItems (ofItems (xs.map .ofFloat)) = xs.map .ofFloat := by
  induction xs with
  | nil => rfl
  | cons x xs ih => rw [List.map_cons, ofItems, toItems, toJson_ofJson_ofFloat, ih]

/-! ## There and back -/

mutual

/-- Of a value that documents have, nothing but the signs of zeros is lost. -/
theorem ofJson_toJson_of_portable :
    ∀ v : Value, v.isPortable = true → ofJson v.toJson = v.unsigned
  | null, _ => rfl
  | bool _, _ => rfl
  | number _, h => ofJson_ofFloat h
  | string _, _ => rfl
  | array items, h => congrArg array (ofItems_toItems_of_portable items h)
  | object fields, h => congrArg object (ofFields_toFields_of_portable fields h)

theorem ofItems_toItems_of_portable :
    ∀ vs : List Value, allPortable vs = true → ofItems (toItems vs) = unsignedItems vs
  | [], _ => rfl
  | v :: vs, h => by
      obtain ⟨hv, hvs⟩ := Bool.and_eq_true_iff.1 h
      rw [toItems, ofItems, unsignedItems, ofJson_toJson_of_portable v hv,
        ofItems_toItems_of_portable vs hvs]

theorem ofFields_toFields_of_portable : ∀ fields : List (String × Value),
    fieldsPortable fields = true → ofFields (toFields fields) = unsignedFields fields
  | [], _ => rfl
  | (k, v) :: rest, h => by
      obtain ⟨hv, hrest⟩ := Bool.and_eq_true_iff.1 h
      rw [toFields, ofFields, unsignedFields, ofJson_toJson_of_portable v hv,
        ofFields_toFields_of_portable rest hrest]

end

mutual

theorem same_unsigned : ∀ v : Value, v.isPortable = true → v.unsigned.same v = true
  | null, _ => rfl
  | bool _, _ => beq_self_eq_true _
  | number x, h => by
      rw [unsigned, same, unsigned_beq]
      exact Float.beq_refl h
  | string _, _ => beq_self_eq_true _
  | array items, h => sameItems_unsigned items h
  | object fields, h => sameFields_unsigned fields h

theorem sameItems_unsigned :
    ∀ vs : List Value, allPortable vs = true → sameItems (unsignedItems vs) vs = true
  | [], _ => rfl
  | v :: vs, h => by
      obtain ⟨hv, hvs⟩ := Bool.and_eq_true_iff.1 h
      rw [unsignedItems, sameItems, same_unsigned v hv, sameItems_unsigned vs hvs]
      rfl

theorem sameFields_unsigned : ∀ fields : List (String × Value),
    fieldsPortable fields = true → sameFields (unsignedFields fields) fields = true
  | [], _ => rfl
  | (k, v) :: rest, h => by
      obtain ⟨hv, hrest⟩ := Bool.and_eq_true_iff.1 h
      rw [unsignedFields, sameFields, same_unsigned v hv, sameFields_unsigned rest hrest,
        beq_self_eq_true]
      rfl

end

mutual

/-- Only what documents have comes back equal. -/
theorem portable_of_same : ∀ v : Value, same (ofJson v.toJson) v = true → v.isPortable = true
  | null, _ => rfl
  | bool _, _ => rfl
  | number x, h => by
      cases hx : x.isFinite with
      | true => exact hx
      | false =>
          rw [toJson, ofFloat_of_not_finite hx] at h
          cases h
  | string _, _ => rfl
  | color _, h => nomatch h
  | array items, h => allPortable_of_same items h
  | object fields, h => fieldsPortable_of_same fields h

theorem allPortable_of_same : ∀ vs : List Value,
    sameItems (ofItems (toItems vs)) vs = true → allPortable vs = true
  | [], _ => rfl
  | v :: vs, h => by
      obtain ⟨hv, hvs⟩ := Bool.and_eq_true_iff.1 h
      rw [allPortable, portable_of_same v hv, allPortable_of_same vs hvs]
      rfl

theorem fieldsPortable_of_same : ∀ fields : List (String × Value),
    sameFields (ofFields (toFields fields)) fields = true → fieldsPortable fields = true
  | [], _ => rfl
  | (k, v) :: rest, h => by
      obtain ⟨hkv, hrest⟩ := Bool.and_eq_true_iff.1 h
      rw [fieldsPortable, portable_of_same v (Bool.and_eq_true_iff.1 hkv).2,
        fieldsPortable_of_same rest hrest]
      rfl

end

mutual

/-- What comes back of any value is written as the value was. -/
theorem toJson_ofJson_toJson : ∀ v : Value, (ofJson v.toJson).toJson = v.toJson
  | null => rfl
  | bool _ => rfl
  | number x => toJson_ofJson_ofFloat x
  | string _ => rfl
  | color c => congrArg Json.arr (toItems_ofItems_ofFloat c.wire)
  | array items => congrArg Json.arr (toItems_ofItems_toItems items)
  | object fields => congrArg Json.obj (toFields_ofFields_toFields fields)

theorem toItems_ofItems_toItems :
    ∀ vs : List Value, toItems (ofItems (toItems vs)) = toItems vs
  | [] => rfl
  | v :: vs => by
      rw [toItems, ofItems, toItems, toJson_ofJson_toJson v, toItems_ofItems_toItems vs]

theorem toFields_ofFields_toFields :
    ∀ fields : List (String × Value), toFields (ofFields (toFields fields)) = toFields fields
  | [] => rfl
  | (k, v) :: rest => by
      rw [toFields, ofFields, toFields, toJson_ofJson_toJson v, toFields_ofFields_toFields rest]

end

/-- A value comes back from its wire form equal and of the same type exactly when no color is in it
and its numbers are finite; and what comes back of any value has the same wire form. -/
theorem same_ofJson_toJson_iff (v : Value) :
    (v.isPortable = true ↔
      same (ofJson v.toJson) v = true ∧ (ofJson v.toJson).typeOf = v.typeOf) ∧
      (ofJson v.toJson).toJson = v.toJson := by
  refine ⟨⟨fun h => ?_, fun h => portable_of_same v h.1⟩, toJson_ofJson_toJson v⟩
  rw [ofJson_toJson_of_portable v h]
  exact ⟨same_unsigned v h, typeOf_unsigned v⟩

end MapStyle.Value

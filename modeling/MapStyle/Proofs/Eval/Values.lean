/-
# `MapStyle.Proofs.Eval.Values` — what values a static type stands for

A static type promises less than the type of a value says: the length of an array is left open, and
null may come of any expression.  `Value.Inhabits` is the promise without null, `Value.Stands` the
promise with it.

The relation goes along with `Ty.accepts`, so a value that is of the type of a tree is of every type
that the tree is right for.
-/
import MapStyle.Proofs.Typing.Judgement
import MapStyle.Curve.Stops
import MapStyle.Builtin.Rules

namespace MapStyle

open Typing

/-- A value is of a type, lengths aside: an array of an item type if its items are of that type. -/
def Value.Inhabits : Value → Ty → Prop
  | v, .null => v = .null
  | v, .boolean => ∃ b, v = .bool b
  | v, .number => ∃ x, v = .number x
  | v, .string => ∃ s, v = .string s
  | v, .color => ∃ c, v = .color c
  | v, .object => ∃ fields, v = .object fields
  | _, .value => True
  | v, .array item _ => ∃ items, v = .array items ∧ ∀ w ∈ items, w.Inhabits item

/-- A value can come of an expression of a type: it is null or of the type. -/
def Value.Stands (v : Value) (t : Ty) : Prop := v = .null ∨ v.Inhabits t

namespace Value

theorem inhabits_of_accepts {t u : Ty} (h : t.accepts u = true) {v : Value} (hv : v.Inhabits u) :
    v.Inhabits t := by
  induction t generalizing u v with
  | value => trivial
  | array item len ih =>
      cases u with
      | array item' len' =>
          obtain ⟨items, rfl, hitems⟩ := hv
          simp only [Ty.accepts, Bool.and_eq_true] at h
          exact ⟨items, rfl, fun w hw => ih h.1 (hitems w hw)⟩
      | _ => cases h
  | _ =>
      simp only [Ty.accepts, beq_iff_eq] at h
      exact h ▸ hv

theorem Stands.of_null {v : Value} (h : v.Stands .null) (t : Ty) : v.Stands t := by
  rcases h with h | h
  · exact .inl h
  · exact .inl h

/-- A value that can come of a type can come of every type that the type is right for. -/
theorem Stands.of_admits {t w : Ty} (h : Admits (some w) t) {v : Value} (hv : v.Stands t) :
    v.Stands w := by
  rcases admits_some.1 h with rfl | haccepts
  · exact hv.of_null w
  · rcases hv with hnull | hv
    · exact .inl hnull
    · exact .inr (inhabits_of_accepts haccepts hv)

theorem common_eq {ts : List Ty} {t : Ty} (h : t ∈ ts) :
    Ty.common ts = .value ∨ Ty.common ts = t := by
  cases ts with
  | nil => cases h
  | cons u us =>
      rw [Ty.common]
      by_cases hall : us.all (· == u) = true
      · rw [if_pos hall]
        rcases List.mem_cons.1 h with rfl | h
        · exact .inr rfl
        · exact .inr (beq_iff_eq.1 (List.all_eq_true.1 hall t h)).symm
      · rw [if_neg hall]
        exact .inl rfl

mutual

theorem inhabits_typeOf : ∀ v : Value, v.Inhabits v.typeOf
  | null => rfl
  | bool b => ⟨b, rfl⟩
  | number x => ⟨x, rfl⟩
  | string s => ⟨s, rfl⟩
  | color c => ⟨c, rfl⟩
  | object fields => ⟨fields, rfl⟩
  | array items => ⟨items, rfl, fun w hw => by
      obtain ⟨hmem, hw⟩ := inhabits_typesOf items w hw
      rcases common_eq hmem with h | h
      · rw [h]
        trivial
      · rw [h]
        exact hw⟩

theorem inhabits_typesOf : ∀ vs : List Value, ∀ v ∈ vs,
    v.typeOf ∈ typesOf vs ∧ v.Inhabits v.typeOf
  | [], _, h => nomatch h
  | v :: vs, w, h => by
      rcases List.mem_cons.1 h with h | h
      · rw [h]
        exact ⟨List.mem_cons_self, inhabits_typeOf v⟩
      · obtain ⟨hmem, hw⟩ := inhabits_typesOf vs w h
        exact ⟨List.mem_cons_of_mem _ hmem, hw⟩

end

/-- A literal is of its static type, also where an empty array takes an expected type on. -/
theorem inhabits_literalTy (expected : Option Ty) (v : Value) :
    v.Inhabits (literalTy expected v) := by
  have hempty : ∀ {item : Ty}, v.typeOf = .array item (some 0) → v = .array [] := by
    intro item h
    cases v with
    | array items =>
        cases items with
        | nil => rfl
        | cons w items => cases h
    | _ => cases h
  simp only [literalTy]
  split
  · rename_i h
    exact ⟨[], hempty h, by simp⟩
  · rename_i h
    exact ⟨[], hempty h, by simp⟩
  · exact inhabits_typeOf v

theorem inhabits_of_fits {t : Ty} {v : Value} (h : fits t v = true) : v.Inhabits t := by
  rw [fits] at h
  split at h
  · rename_i hnull
    rw [beq_iff_eq.1 h]
    cases v with
    | null => rfl
    | _ => cases hnull
  · exact inhabits_of_accepts h (inhabits_typeOf v)

end Value
end MapStyle

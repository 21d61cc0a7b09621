/-
# `MapStyle.Proofs.Value.Fits` — which values are of a type

Whether a value may stand where a type is demanded is decided on one type, the one that the value
has.  That of an array is made of the length and of the type that all items have, and it says
nothing of items that differ in type, nor of those of an empty array, which are not there.

`Value.Satisfies` is what a type promises of a value, item by item.  A value that is let through
keeps the promise, and has more to it: wherever a type of items is demanded that is not that of
anything, the array has items and they are all of one type (`Value.Uniform`).  Nothing else is
refused (`Value.asType_eq_ok_iff`).  So an empty array is no array of numbers, and rows of
different lengths are no array of arrays (`Value.asType_refuses_rows`).
-/
import MapStyle.Proofs.Color.Css
import MapStyle.Proofs.Eval.Values

namespace MapStyle

/-! ## Types in common -/

namespace Ty

theorem common_eq_iff {ts : List Ty} {t : Ty} (ht : t ≠ .value) :
    common ts = t ↔ ts ≠ [] ∧ ∀ u ∈ ts, u = t := by
  cases ts with
  | nil => exact iff_of_false (fun h => ht h.symm) fun h => h.1 rfl
  | cons u us =>
      rw [common]
      constructor
      · intro h
        split at h
        · rename_i hall
          subst h
          refine ⟨List.cons_ne_nil _ _, List.forall_mem_cons.2 ⟨rfl, fun w hw => ?_⟩⟩
          exact beq_iff_eq.1 (List.all_eq_true.1 hall w hw)
        · exact absurd h.symm ht
      · rintro ⟨_, h⟩
        obtain ⟨rfl, h⟩ := List.forall_mem_cons.1 h
        exact if_pos (List.all_eq_true.2 fun w hw => beq_iff_eq.2 (h w hw))

/-- Only the type of anything is right for anything. -/
theorem ne_value_of_accepts {t u : Ty} (ht : t ≠ .value) (h : t.accepts u = true) : u ≠ .value := by
  rintro rfl
  cases t <;> first | exact ht rfl | cases h

theorem lensAgree_some_iff {len : Option Nat} {m : Nat} :
    lensAgree len (some m) = true ↔ ∀ n, len = some n → m = n := by
  cases len with
  | none => exact iff_of_true rfl fun _ h => nomatch h
  | some k =>
      show (k == m) = true ↔ _
      rw [beq_iff_eq]
      exact ⟨fun h n hn => h.symm.trans (Option.some.inj hn), fun h => (h k rfl).symm⟩

end Ty

namespace Value

/-! ## What a type promises -/

/-- A value is all that a type promises: an array is of the length that is fixed, and each item is
of the type of items.  Null is of the type of null alone, and may be an item of any type. -/
def Satisfies : Value → Ty → Prop
  | v, .value => v ≠ .null
  | v, .null => v = .null
  | v, .boolean => ∃ b, v = .bool b
  | v, .number => ∃ x, v = .number x
  | v, .string => ∃ s, v = .string s
  | v, .color => ∃ c, v = .color c
  | v, .object => ∃ fields, v = .object fields
  | v, .array item len => ∃ items, v = .array items ∧ (∀ n, len = some n → items.length = n) ∧
      ∀ w ∈ items, w.Satisfies item ∨ item = .value ∧ w = .null

/-- Wherever a type of items is demanded that is not that of anything, there are items, and they are
all of one type. -/
def Uniform : Value → Ty → Prop
  | v, .array item _ => item = .value ∨ ∃ items t, v = .array items ∧ items ≠ [] ∧
      ∀ w ∈ items, w.typeOf = t ∧ w.Uniform item
  | _, _ => True

theorem typesOf_eq_map (vs : List Value) : typesOf vs = vs.map typeOf := by
  induction vs with
  | nil => rfl
  | cons v vs ih => rw [typesOf, ih]; rfl

/-- The type that a value has is right for another one just when the value keeps the promise of that
type and its items do not differ. -/
theorem accepts_typeOf_iff {t : Ty} (ht : t ≠ .value) (v : Value) :
    t.accepts v.typeOf = true ↔ v.Satisfies t ∧ v.Uniform t := by
  induction t generalizing v with
  | value => exact absurd rfl ht
  | array item len ih =>
      cases v with
      | array items =>
          rw [typeOf, Ty.accepts, Bool.and_eq_true, Ty.lensAgree_some_iff]
          by_cases hitem : item = .value
          · subst hitem
            refine ⟨fun h => ⟨⟨items, rfl, h.2, fun w _ => ?_⟩, .inl rfl⟩, ?_⟩
            · exact (em (w = .null)).elim (fun hw => .inr ⟨rfl, hw⟩) .inl
            · rintro ⟨⟨_, ⟨⟩, hlen, _⟩, _⟩
              exact ⟨rfl, hlen⟩
          · constructor
            · rintro ⟨haccepts, hlen⟩
              -- the type in common is one that all items have
              obtain ⟨hne, hall⟩ := (Ty.common_eq_iff (Ty.ne_value_of_accepts hitem haccepts)).1 rfl
              rw [typesOf_eq_map] at hne hall haccepts
              have hsame : ∀ w ∈ items, w.typeOf = Ty.common (items.map typeOf) := fun w hw =>
                hall _ (List.mem_map_of_mem hw)
              have hitems : ∀ w ∈ items, w.Satisfies item ∧ w.Uniform item := fun w hw =>
                (ih hitem w).1 (hsame w hw ▸ haccepts)
              refine ⟨⟨items, rfl, hlen, fun w hw => .inl (hitems w hw).1⟩, .inr ⟨items, _, rfl, ?_,
                fun w hw => ⟨hsame w hw, (hitems w hw).2⟩⟩⟩
              exact fun h => hne (List.map_eq_nil_iff.2 h)
            · rintro ⟨⟨_, ⟨⟩, hlen, hitems⟩, huniform⟩
              obtain ⟨_, u, ⟨⟩, hne, hall⟩ := huniform.resolve_left hitem
              obtain ⟨w, hw⟩ := List.exists_mem_of_ne_nil items hne
              obtain ⟨rfl, huniform⟩ := hall w hw
              have haccepts : item.accepts w.typeOf = true :=
                (ih hitem w).2 ⟨(hitems w hw).resolve_right fun h => hitem h.1, huniform⟩
              have hcommon : Ty.common (typesOf items) = w.typeOf := by
                rw [typesOf_eq_map]
                refine (Ty.common_eq_iff (Ty.ne_value_of_accepts hitem haccepts)).2 ⟨?_, ?_⟩
                · exact fun h => hne (List.map_eq_nil_iff.1 h)
                · exact List.forall_mem_map.2 fun v hv => (hall v hv).1
              exact ⟨hcommon ▸ haccepts, hlen⟩
      | _ => simp [typeOf, Ty.accepts, Satisfies]
  | _ => cases v <;> simp [typeOf, Ty.accepts, Satisfies, Uniform]

theorem fits_iff (t : Ty) (v : Value) : fits t v = true ↔ v.Satisfies t ∧ v.Uniform t := by
  cases v with
  | null =>
      show (t == .null) = true ↔ _
      cases t <;> simp [Satisfies, Uniform]
  | _ =>
      by_cases ht : t = .value
      · subst ht
        exact iff_of_true rfl ⟨nofun, trivial⟩
      · exact accepts_typeOf_iff ht _

/-- Types whose values are of no other type, and are of it whatever is inside. -/
theorem fits_array_iff {item : Ty} (hitem : item ≠ .value)
    (hsame : ∀ w : Value, w.Satisfies item → w.typeOf = item ∧ w.Uniform item) (len : Option Nat)
    (v : Value) : fits (.array item len) v = true ↔ ∃ items, v = .array items ∧ items ≠ [] ∧
      (∀ n, len = some n → items.length = n) ∧ ∀ w ∈ items, w.Satisfies item := by
  rw [fits_iff]
  constructor
  · rintro ⟨⟨items, rfl, hlen, hall⟩, huniform⟩
    obtain ⟨_, _, ⟨⟩, hne, _⟩ := huniform.resolve_left hitem
    exact ⟨items, rfl, hne, hlen, fun w hw => (hall w hw).resolve_right fun h => hitem h.1⟩
  · rintro ⟨items, rfl, hne, hlen, hall⟩
    exact ⟨⟨items, rfl, hlen, fun w hw => .inl (hall w hw)⟩,
      .inr ⟨items, item, rfl, hne, fun w hw => hsame w (hall w hw)⟩⟩

/-! ## Colors inside -/

/-- A color stands somewhere inside a value. -/
inductive Holds (c : Color) : Value → Prop
  | color : Holds c (.color c)
  | item {items : List Value} {w : Value} : w ∈ items → Holds c w → Holds c (.array items)
  | member {fields : List (String × Value)} {key : String} {w : Value} : (key, w) ∈ fields →
      Holds c w → Holds c (.object fields)

theorem allValid_iff (vs : List Value) : allValid vs = true ↔ ∀ v ∈ vs, v.isValid = true := by
  induction vs with
  | nil => simp [allValid]
  | cons v vs ih => simp [allValid, ih]

theorem fieldsValid_iff (fields : List (String × Value)) :
    fieldsValid fields = true ↔ ∀ e ∈ fields, e.2.isValid = true := by
  induction fields with
  | nil => simp [fieldsValid]
  | cons e fields ih => simp [fieldsValid, ih]

theorem isValid_of_holds {c : Color} {v : Value} (hc : Holds c v) (hv : v.isValid = true) :
    c.isValid = true := by
  induction hc with
  | color => exact hv
  | item hmem _ ih => exact ih ((allValid_iff _).1 hv _ hmem)
  | member hmem _ ih => exact ih ((fieldsValid_iff _).1 hv _ hmem)

mutual

theorem isValid_of_forall : ∀ v : Value, (∀ c, Holds c v → c.isValid = true) → v.isValid = true
  | .null, _ => rfl
  | .bool _, _ => rfl
  | .number _, _ => rfl
  | .string _, _ => rfl
  | .color c, h => h c .color
  | .array items, h => allValid_of_forall items fun _ hw c hc => h c (.item hw hc)
  | .object fields, h => fieldsValid_of_forall fields fun _ hw c hc => h c (.member hw hc)

theorem allValid_of_forall : ∀ vs : List Value,
    (∀ v ∈ vs, ∀ c, Holds c v → c.isValid = true) → allValid vs = true
  | [], _ => rfl
  | v :: vs, h => by
      obtain ⟨hv, hvs⟩ := List.forall_mem_cons.1 h
      exact Bool.and_eq_true_iff.2 ⟨isValid_of_forall v hv, allValid_of_forall vs hvs⟩

theorem fieldsValid_of_forall : ∀ fields : List (String × Value),
    (∀ e ∈ fields, ∀ c, Holds c e.2 → c.isValid = true) → fieldsValid fields = true
  | [], _ => rfl
  | (_, v) :: rest, h => by
      obtain ⟨hv, hrest⟩ := List.forall_mem_cons.1 h
      exact Bool.and_eq_true_iff.2 ⟨isValid_of_forall v hv, fieldsValid_of_forall rest hrest⟩

end

/-- A value is valid when every color inside it has its channels within bounds. -/
theorem isValid_iff (v : Value) :
    v.isValid = true ↔ ∀ c, Holds c v → ∀ x ∈ c.channels, IsChannel x := by
  simp only [← Color.isValid_iff]
  exact ⟨fun h c hc => isValid_of_holds hc h, isValid_of_forall v⟩

/-! ## Assertions -/

theorem asType_eq_ok {v w : Value} {t : Ty} :
    v.asType t = .ok w ↔ w = v ∧ v.isValid = true ∧ fits t v = true := by
  rw [asType]
  cases v.isValid with
  | false => exact iff_of_false nofun fun h => nomatch h.2.1
  | true =>
      cases fits t v with
      | false => exact iff_of_false nofun fun h => nomatch h.2.2
      | true => exact ⟨fun h => ⟨(Except.ok.inj h).symm, rfl, rfl⟩, fun h => h.1 ▸ rfl⟩

/-- An assertion passes a value on, unchanged, just when the colors inside it are within bounds, it
keeps what the type promises, and the items wherever a type of items is demanded are there and do
not differ in type. -/
theorem asType_eq_ok_iff (v w : Value) (t : Ty) :
    v.asType t = .ok w ↔ w = v ∧ (∀ c, Holds c v → ∀ x ∈ c.channels, IsChannel x) ∧
      v.Satisfies t ∧ v.Uniform t := by
  rw [asType_eq_ok, isValid_iff, fits_iff]

/-- The empty array is all that is promised of an array of numbers, and rows of one and of two
numbers are all that is promised of an array of arrays of numbers; both are refused. -/
theorem asType_refuses_rows :
    (Satisfies (.array []) (.array .number none) ∧ (array []).isValid = true ∧
      ∀ w, (array []).asType (.array .number none) ≠ .ok w) ∧
    Satisfies (.array [.array [.number 1], .array [.number 1, .number 2]])
      (.array (.array .number none) none) ∧
    (array [.array [.number 1], .array [.number 1, .number 2]]).isValid = true ∧
    ∀ w, (array [.array [.number 1], .array [.number 1, .number 2]]).asType
      (.array (.array .number none) none) ≠ .ok w := by
  refine ⟨⟨⟨[], rfl, nofun, nofun⟩, rfl, nofun⟩, ⟨_, rfl, nofun, ?_⟩, rfl, nofun⟩
  have hrow : ∀ xs : List Float, Satisfies (.array (xs.map number)) (.array .number none) :=
    fun xs => ⟨_, rfl, nofun, List.forall_mem_map.2 fun x _ => .inl ⟨x, rfl⟩⟩
  refine List.forall_mem_cons.2 ⟨.inl (hrow [1]), List.forall_mem_cons.2 ⟨.inl (hrow [1, 2]), ?_⟩⟩
  exact nofun

end Value
end MapStyle

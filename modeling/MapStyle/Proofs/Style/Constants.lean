/-
# `MapStyle.Proofs.Style.Constants` — what constants come to

A constant is written as an expression: color texts as calls of `rgba`, arrays and objects quoted.
Where that expression checks against the type of the property, it comes to the constant
(`Conversion.denote_constant`), with one exception.  The type of an array literal is that of
arrays of anything if its items are not all of one type, and such a type is not refused where
arrays of numbers, strings or booleans are wanted.  An assertion is put around the literal instead,
and the assertion fails whenever it is evaluated.
-/
import MapStyle.Proofs.Color.Css
import MapStyle.Proofs.Eval.Outcomes
import MapStyle.Proofs.Typing.Expected
import MapStyle.Proofs.Wire.Data
import MapStyle.Style.Conversion

namespace MapStyle

open Typing

/-! ## Types of items -/

theorem Value.typeOf_ne_value (v : Value) : v.typeOf ≠ .value := by
  cases v <;> nofun

/-- Types of values have a type in common if no two of them differ. -/
theorem Ty.common_eq_value_iff {α : Type} {f : α → Ty} (hf : ∀ a, f a ≠ .value) {as : List α}
    (hne : as ≠ []) :
    Ty.common (as.map f) = .value ↔ (as.any fun a => as.any fun b => f a != f b) = true := by
  obtain ⟨a, as, rfl⟩ := List.exists_cons_of_ne_nil hne
  rw [List.map_cons, Ty.common]
  constructor
  · intro h
    split at h
    · exact absurd h (hf a)
    · rename_i hall
      obtain ⟨_, hu, hdiffer⟩ := List.all_eq_false.1 (Bool.eq_false_iff.2 hall)
      obtain ⟨b, hb, rfl⟩ := List.mem_map.1 hu
      refine List.any_eq_true.2 ⟨b, List.mem_cons_of_mem _ hb, List.any_eq_true.2
        ⟨a, List.mem_cons_self, ?_⟩⟩
      rw [bne, Bool.not_eq_true']
      exact Bool.eq_false_iff.2 hdiffer
  · intro h
    rw [if_neg]
    intro hall
    have hsame : ∀ b ∈ a :: as, f b = f a := List.forall_mem_cons.2 ⟨rfl, fun b hb =>
      beq_iff_eq.1 (List.all_eq_true.1 hall _ (List.mem_map_of_mem hb))⟩
    obtain ⟨b, hb, h⟩ := List.any_eq_true.1 h
    obtain ⟨c, hc, h⟩ := List.any_eq_true.1 h
    rw [hsame b hb, hsame c hc, bne_self_eq_false] at h
    cases h

theorem Value.typesOf_ofItems (items : List Json) :
    typesOf (ofItems items) = items.map fun j => (ofJson j).typeOf := by
  induction items with
  | nil => rfl
  | cons j items ih => rw [ofItems, typesOf, ih]; rfl

theorem Value.length_ofItems (items : List Json) : (ofItems items).length = items.length := by
  induction items with
  | nil => rfl
  | cons j items ih => rw [ofItems, List.length_cons, ih]; rfl

/-! ## Constants -/

namespace Conversion

variable {spec : PropertySpec} {r : Interpolators} {scene : Scene} {e : Expr} {j : Json}

/-- Whether it is left to evaluation to find out that a constant is not of the type of a property:
the property takes arrays of numbers, strings or booleans, and the constant is an array whose items
are not all of one type. -/
def defersCheck (spec : PropertySpec) (j : Json) : Bool :=
  match spec.kind, j with
  | .array item _, .arr items => assertable.contains item &&
      items.any fun x => items.any fun y => (Value.ofJson x).typeOf != (Value.ofJson y).typeOf
  | _, _ => false

/-- The value of a constant: a color where the property takes colors and the constant is the text of
one, and otherwise the constant itself. -/
def constantValue (spec : PropertySpec) (j : Json) : Value :=
  match j, spec.kind with
  | .str s, .color => ((Css.color? s).map fun c => .color c.rewired).getD (.string s)
  | j, _ => .ofJson j

def constantOutcome (spec : PropertySpec) (j : Json) : Outcome Value :=
  if defersCheck spec j then .error (.typeMismatch spec.expectedTy (Value.ofJson j).typeOf)
  else .ok (constantValue spec j)

theorem constantOutcome_of_checked (h : defersCheck spec j = false) :
    constantOutcome spec j = .ok (constantValue spec j) := by
  rw [constantOutcome, h, if_neg Bool.false_ne_true]

/-! ### Colors -/

theorem literal_of_wire {x : Float} (hx : x.isFinite = true)
    (h : ChecksTo r .number (.ofFloat x) e) :
    ∃ p, e = .literal p .number (.number (unsigned x)) := by
  obtain ⟨n, hn, hnx⟩ := toFloat_ofFloat? hx
  have hcolor : Ty.number ≠ .color := nofun
  rw [Json.ofFloat, hn] at h
  obtain ⟨p, rfl⟩ := h.scalar (j := .num n) trivial hcolor
  exact ⟨p, by rw [Value.ofJson, hnx]; rfl⟩

/-- The call that a color text is written as comes to the color. -/
theorem denote_wire {c : Color} (hc : c.isValid = true)
    (h : ChecksTo r .color (.call "rgba" (c.wire.map .ofFloat)) e) :
    e.denote scene .empty = .ok (.color c.rewired) := by
  obtain ⟨p, signature, es, hsignature, heach, _, hconforms⟩ := ChecksTo.call .rgba h
  cases List.mem_singleton.1 hsignature
  have hfinite := Color.isFinite_wire hc
  simp only [Color.wire, List.forall_mem_cons] at hfinite
  obtain ⟨hr, hg, hb, ha, _⟩ := hfinite
  obtain _ | ⟨hred, _ | ⟨hgreen, _ | ⟨hblue, _ | ⟨halpha, _ | _⟩⟩⟩⟩ := heach
  obtain ⟨p₁, rfl⟩ := literal_of_wire hr ⟨_, hred⟩
  obtain ⟨p₂, rfl⟩ := literal_of_wire hg ⟨_, hgreen⟩
  obtain ⟨p₃, rfl⟩ := literal_of_wire hb ⟨_, hblue⟩
  obtain ⟨p₄, rfl⟩ := literal_of_wire ha ⟨_, halpha⟩
  rw [hconforms.eq_of_admits (admits_self .color)]
  have hrule : ∀ x y z w : Float, (Builtin.rgba.rule scene 4).answer
      [.ok (.number x), .ok (.number y), .ok (.number z), .ok (.number w)] =
        Value.color <$> Color.ofWire x y z (some w) := by
    intro x y z w
    show Rule.answer _ (Rule.bind (Rule.done (Color.ofWire x y z (some w))) _) = _
    cases Color.ofWire x y z (some w) <;> rfl
  exact (hrule _ _ _ _).trans (by rw [Color.ofWire_wire hc]; rfl)

/-- Where a color is expected, only null is right of the literals that are neither texts nor
colors. -/
theorem eq_null_of_conforms_color {p : Path} (hstr : ∀ s, j ≠ .str s)
    (h : Conforms (some .color)
      (.literal p (literalTy (some .color) (Value.ofJson j)) (Value.ofJson j)) e) :
    j = .null ∧ e = .literal p .null .null := by
  rw [literalTy_of_ne (t := .color) nofun] at h
  cases j with
  | null => exact ⟨rfl, h.eq_of_admits (admits_null _)⟩
  | str s => exact absurd rfl (hstr s)
  | _ =>
      cases h with
      | kept hadmits =>
          rcases admits_some.1 hadmits with hnull | haccepts
          · cases hnull
          · cases haccepts
      | colored _ _ hty =>
          rcases hty with hvalue | hstring
          · cases hvalue
          · cases hstring
      | asserted hwanted _ _ hcolor => exact absurd (Option.some.inj hwanted).symm hcolor

theorem denote_scalarColor (hj : IsScalar j) (hstr : ∀ s, j ≠ .str s) (h : ChecksTo r .color j e) :
    e.denote scene .empty = .ok (.ofJson j) := by
  obtain ⟨path, h⟩ := h
  obtain ⟨d, hd, hconforms⟩ := (elaborates_scalar hj).1 h
  rcases clean_scalar.1 hd with ⟨s, _, rfl, _⟩ | ⟨_, hd⟩
  · exact absurd rfl (hstr s)
  · obtain ⟨_, rfl⟩ := clean_literalOf.1 hd
    obtain ⟨rfl, rfl⟩ := eq_null_of_conforms_color hstr hconforms
    rfl

theorem exists_color_of_checked {s : String} (h : ChecksTo r .color (.str s) e) :
    ∃ c, Css.color? s = some c := by
  obtain ⟨path, h⟩ := h
  obtain ⟨d, hd, _⟩ := (elaborates_scalar (j := .str s) trivial).1 h
  rcases clean_scalar.1 hd with ⟨_, c, ⟨⟩, _, hc, _⟩ | ⟨hnot, _⟩
  · exact ⟨c, hc⟩
  · exact absurd rfl (hnot s rfl)

theorem not_checksTo_quotedColor (hj : ¬ IsScalar j) :
    ¬ ChecksTo r .color (.call "literal" [j]) e := by
  rintro ⟨path, h⟩
  obtain ⟨d, hd, hconforms⟩ := (elaborates_named rfl).1 h
  obtain ⟨_, heq, hd⟩ := clean_literal.1 hd
  cases heq
  obtain ⟨_, rfl⟩ := clean_literalOf.1 hd
  obtain ⟨rfl, _⟩ := eq_null_of_conforms_color (fun s hs => hj (by rw [hs]; trivial)) hconforms
  exact hj trivial

/-- Where a property takes colors, a constant is the text of a color or null. -/
theorem denote_colorConstant (hkind : spec.kind = .color)
    (h : ChecksTo r .color (constant spec j) e) :
    e.denote scene .empty = .ok (constantValue spec j) := by
  obtain ⟨kind, _⟩ := spec
  cases hkind
  cases j with
  | str s =>
      simp only [constant] at h
      simp only [constantValue]
      cases hc : Css.color? s with
      | some c =>
          rw [hc] at h
          exact denote_wire (Css.isValid_of_color? hc) h
      | none =>
          rw [hc] at h
          obtain ⟨c, hsome⟩ := exists_color_of_checked h
          cases hc.symm.trans hsome
  | arr items => exact absurd h (not_checksTo_quotedColor id)
  | obj fields => exact absurd h (not_checksTo_quotedColor id)
  | null => exact denote_scalarColor trivial nofun h
  | bool b => exact denote_scalarColor trivial nofun h
  | num n => exact denote_scalarColor trivial nofun h

/-! ### Arrays -/

theorem itemTy_ne_value_iff {item : String} :
    PropertyKind.itemTy item ≠ .value ↔ assertable.contains item = true := by
  unfold PropertyKind.itemTy
  split
  · exact iff_of_true nofun rfl
  · exact iff_of_true nofun rfl
  · exact iff_of_true nofun rfl
  · rename_i h₁ h₂ h₃
    refine iff_of_false (fun h => h rfl) ?_
    simp only [assertable, List.contains_eq_mem, List.mem_cons, List.not_mem_nil, or_false,
      decide_eq_true_eq, not_or]
    exact ⟨h₁, h₂, h₃⟩

/-- Item types of properties are of scalars or of anything, so they accept what accepts them, unless
that is arrays of anything. -/
theorem accepts_itemTy {item : String} {t : Ty}
    (h : t.accepts (PropertyKind.itemTy item) = true) (ht : t ≠ .value) :
    (PropertyKind.itemTy item).accepts t = true := by
  have hcases : PropertyKind.itemTy item = .number ∨ PropertyKind.itemTy item = .string ∨
      PropertyKind.itemTy item = .boolean ∨ PropertyKind.itemTy item = .value := by
    unfold PropertyKind.itemTy
    split <;> simp
  rcases hcases with heq | heq | heq | heq
  all_goals
    rw [heq] at h ⊢
    cases t <;> first | rfl | exact absurd rfl ht | cases h

theorem typeOf_arr (items : List Json) : (Value.ofJson (.arr items)).typeOf =
    .array (Ty.common (items.map fun j => (Value.ofJson j).typeOf)) (some items.length) := by
  rw [Value.ofJson, Value.typeOf, Value.typesOf_ofItems, Value.length_ofItems]

/-- An array that has items is of its own type, whatever is expected. -/
theorem literalTy_arr {items : List Json} (hne : items ≠ []) (expected : Option Ty) :
    literalTy expected (Value.ofJson (.arr items)) = (Value.ofJson (.arr items)).typeOf := by
  have htypeOf := typeOf_arr items
  have hlength : items.length ≠ 0 := fun h => hne (List.eq_nil_of_length_eq_zero h)
  unfold literalTy
  split
  · rename_i heq
    exact absurd (Option.some.inj (Ty.array.inj (htypeOf.symm.trans heq)).2) hlength
  · rename_i heq
    exact absurd (Option.some.inj (Ty.array.inj (htypeOf.symm.trans heq)).2) hlength
  · rfl

/-- The empty array takes an expected type on, unless that fixes another length. -/
theorem literalTy_nil (item : Ty) {len : Option Nat} (h : Ty.lensAgree len (some 0) = true) :
    literalTy (some (.array item len)) (Value.ofJson (.arr [])) = .array item len := by
  cases len with
  | none => rfl
  | some n =>
      cases beq_iff_eq.1 h
      rfl

/-- The items of an array whose check is deferred have only the type of all values in common. -/
theorem defersCheck_arr {item : String} {len : Option Nat} (hkind : spec.kind = .array item len)
    {items : List Json} : defersCheck spec (.arr items) = true ↔
      items ≠ [] ∧ PropertyKind.itemTy item ≠ .value ∧
        Ty.common (items.map fun j => (Value.ofJson j).typeOf) = .value := by
  simp only [defersCheck, hkind, Bool.and_eq_true]
  rw [← itemTy_ne_value_iff]
  constructor
  · rintro ⟨hitem, hany⟩
    have hne : items ≠ [] := by
      rintro rfl
      cases hany
    exact ⟨hne, hitem, (Ty.common_eq_value_iff (fun j => Value.typeOf_ne_value _) hne).2 hany⟩
  · rintro ⟨hne, hitem, hcommon⟩
    exact ⟨hitem, (Ty.common_eq_value_iff (fun j => Value.typeOf_ne_value _) hne).1 hcommon⟩

/-- An array literal that is of the expected type has been checked. -/
theorem defersCheck_of_admits {item : String} {len : Option Nat}
    (hkind : spec.kind = .array item len) {items : List Json}
    (h : Admits (some spec.expectedTy)
      (literalTy (some spec.expectedTy) (Value.ofJson (.arr items)))) :
    defersCheck spec (.arr items) = false := by
  rw [Bool.eq_false_iff, ne_eq, defersCheck_arr hkind]
  rintro ⟨hne, hitem, hcommon⟩
  rw [literalTy_arr hne, typeOf_arr, hcommon, PropertySpec.expectedTy_of_array hkind] at h
  rcases admits_some.1 h with hnull | haccepts
  · cases hnull
  · obtain ⟨hitems, _⟩ := Bool.and_eq_true_iff.1 haccepts
    cases hi : PropertyKind.itemTy item with
    | value => exact hitem hi
    | _ =>
        rw [hi] at hitems
        cases hitems

/-- An array literal whose type is more general than the expected one is still to be checked. -/
theorem defersCheck_of_not_admits {item : String} {len : Option Nat}
    (hkind : spec.kind = .array item len) {items : List Json}
    (hnot : ¬ Admits (some spec.expectedTy)
      (literalTy (some spec.expectedTy) (Value.ofJson (.arr items))))
    (haccepts : (literalTy (some spec.expectedTy) (Value.ofJson (.arr items))).accepts
      spec.expectedTy = true) : defersCheck spec (.arr items) = true := by
  have hliteral := literalTy_of_not_admits hnot
  have hnil := hnot
  rw [hliteral, typeOf_arr, PropertySpec.expectedTy_of_array hkind] at hnot haccepts
  obtain ⟨hitems, hlens⟩ := Bool.and_eq_true_iff.1 haccepts
  have hagree : Ty.lensAgree len (some items.length) = true := by
    cases len with
    | none => rfl
    | some n => exact beq_iff_eq.2 (beq_iff_eq.1 hlens).symm
  have hrefused : ∀ t, (PropertyKind.itemTy item).accepts t = true →
      t ≠ Ty.common (items.map fun j => (Value.ofJson j).typeOf) := by
    rintro _ hitem rfl
    exact hnot (admits_some.2 (.inr (Bool.and_eq_true_iff.2 ⟨hitem, hagree⟩)))
  rw [defersCheck_arr hkind]
  refine ⟨?_, ?_, ?_⟩
  · rintro rfl
    rw [PropertySpec.expectedTy_of_array hkind, literalTy_nil _ hagree] at hnil
    exact hnil (admits_self _)
  · intro hitem
    rw [hitem] at hrefused
    exact hrefused _ (accepts_value _) rfl
  · by_contra hcommon
    exact hrefused _ (accepts_itemTy hitems hcommon) rfl

/-- A quoted array is a literal, or an assertion that fails. -/
theorem denote_arrayConstant {item : String} {len : Option Nat}
    (hkind : spec.kind = .array item len) {items : List Json}
    (h : ChecksTo r spec.expectedTy (.call "literal" [.arr items]) e) :
    e.denote scene .empty = constantOutcome spec (.arr items) := by
  have hcolor : spec.expectedTy ≠ .color := by
    rw [PropertySpec.expectedTy_of_array hkind]
    nofun
  have hadmits := h.formed.admits
  obtain ⟨p, d, rfl, rfl | ⟨rfl, hnot, haccepts⟩⟩ := h.literal hcolor
  · rw [constantOutcome_of_checked (defersCheck_of_admits hkind hadmits)]
    rfl
  · have hfits : Value.fits spec.expectedTy (Value.ofJson (.arr items)) = false := by
      rw [Expr.ty, literalTy_of_not_admits hnot] at hnot
      exact Bool.eq_false_iff.2 fun h => hnot (admits_some.2 (.inr h))
    rw [constantOutcome, if_pos (defersCheck_of_not_admits hkind hnot haccepts),
      Expr.denote_assertion]
    show (Value.ofJson (.arr items)).asType spec.expectedTy = _
    rw [Value.asType, Value.isValid_ofJson, hfits]
    rfl

/-! ### All constants -/

/-- Data of a type that has nothing to do with the expected one are no constant. -/
theorem not_checksTo_quoted {t : Ty} (ht : t ≠ .color) (hnull : (Value.ofJson j).typeOf ≠ .null)
    (hliteral : literalTy (some t) (Value.ofJson j) = (Value.ofJson j).typeOf)
    (hkept : t.accepts (Value.ofJson j).typeOf = false)
    (hasserted : (Value.ofJson j).typeOf.accepts t = false) :
    ¬ ChecksTo r t (.call "literal" [j]) e := by
  intro h
  have hadmits := h.formed.admits
  obtain ⟨p, d, rfl, rfl | ⟨_, _, haccepts⟩⟩ := h.literal ht
  · rw [Expr.ty, hliteral] at hadmits
    rcases admits_some.1 hadmits with h | haccepts
    · exact hnull h
    · rw [hkept] at haccepts
      cases haccepts
  · rw [Expr.ty, hliteral, hasserted] at haccepts
    cases haccepts

/-- The expression of a constant comes to the constant, unless its check was deferred. -/
theorem denote_constant (h : ChecksTo r spec.expectedTy (constant spec j) e) :
    e.denote scene .empty = constantOutcome spec j := by
  have hscalar : spec.expectedTy ≠ .color → IsScalar j → ChecksTo r spec.expectedTy j e →
      e.denote scene .empty = .ok (.ofJson j) := by
    intro hcolor hj h
    obtain ⟨p, rfl⟩ := h.scalar hj hcolor
    rfl
  obtain ⟨kind, default⟩ := spec
  cases kind with
  | color => exact denote_colorConstant rfl h
  | array item len =>
      cases j with
      | arr items => exact denote_arrayConstant rfl h
      | obj fields => exact absurd h (not_checksTo_quoted nofun nofun rfl rfl rfl)
      | _ => exact hscalar nofun trivial h
  | _ =>
      cases j with
      | arr items =>
          refine absurd h (not_checksTo_quoted nofun nofun ?_ rfl rfl)
          exact literalTy_of_ne (fun _ _ h => by cases h) _
      | obj fields => exact absurd h (not_checksTo_quoted nofun nofun rfl rfl rfl)
      | _ => exact hscalar nofun trivial h

theorem denote_defaultOf {default : Option Json}
    (h : ChecksTo r spec.expectedTy (defaultOf spec default) e) :
    e.denote scene .empty = constantOutcome spec (default.getD .null) := by
  cases default with
  | none => exact denote_constant (j := .null) h
  | some j => exact denote_constant h

end Conversion
end MapStyle

/-
# `MapStyle.Proofs.Style.Identity` — properties that are passed through

The shortest stop function names a property of the feature and passes it through.  It makes a style
function of whatever kind the style property is, and the value of that is the property if it is
what the style property takes, and nothing otherwise (`StyleFunction.evaluate_passThrough`).

What is taken is decided by the assertion that conversion writes, not by the type that is expected.
Numbers, strings and booleans are asserted as items, and an array of such items has to have some,
as many as are declared.  Items of any other kind cannot be asserted, nor can their number then: all
arrays are passed on (`StyleFunction.evaluate_passThrough_arrays`).  Colors are read from all that a
color can be read from.  The one kind that is refused before anything is evaluated is that of arrays
of named items of which there are to be none, since no such length can be asserted.
-/
import MapStyle.Proofs.Style.Data
import MapStyle.Proofs.Style.Fallback
import MapStyle.Proofs.Style.Lengths
import MapStyle.Proofs.Value.Fits
import MapStyle.Proofs.Wire.Parts

namespace MapStyle

open Reporting Typing

/-! ## What is passed on -/

namespace PropertyKind

/-- A value passes for what a property of a kind takes, as another one if it is read as a color. -/
def Passes (v w : Value) : PropertyKind → Prop
  | number => w = v ∧ ∃ x, v = .number x
  | string => w = v ∧ ∃ s, v = .string s
  | enum _ => w = v ∧ ∃ s, v = .string s
  | boolean => w = v ∧ ∃ b, v = .bool b
  | color => ∃ c, Color.ofValue v = .ok c ∧ w = .color c
  | array item len => w = v ∧ v.isValid = true ∧ ∃ items, v = .array items ∧
      (Conversion.assertable.contains item = true → items ≠ [] ∧
        (∀ n, len = some n → items.length = n) ∧ ∀ u ∈ items, u.Satisfies (itemTy item))

/-- The length of arrays can be asserted where the type of the items can. -/
def CanAssert : PropertyKind → Prop
  | array item len => Conversion.assertable.contains item = true → len ≠ some 0
  | _ => True

end PropertyKind

theorem Properties.get_eq_ok {properties : Properties} {key : String} {v : Value} :
    properties.get key = .ok v ↔ Dict.get? properties key = some v := by
  rw [Properties.get]
  cases Dict.get? properties key with
  | none => simp
  | some w => simp [pure, Except.pure]

theorem Outcome.orValue_null {r : Outcome Value} (h : ∀ err, r = .error err → err.isFault = false) :
    r.orValue .null = .ok (r.toOption.getD .null) := by
  cases r with
  | ok v => cases v <;> rfl
  | error err =>
      rw [orValue, h err rfl]
      rfl

namespace Conversion

/-- The outcome of a property that is asserted to be what a style property takes. -/
def passed (spec : PropertySpec) (v : Value) : Outcome Value :=
  match spec.kind with
  | .color => .color <$> Color.ofValue v
  | .array item _ =>
    v.asType (if assertable.contains item then spec.expectedTy else .anyArray)
  | _ => v.asType spec.expectedTy

variable {spec : PropertySpec}

theorem passed_array (item : String) (len : Option Nat) (default : Option Json) :
    passed ⟨.array item len, default⟩ = fun v => v.asType
      (if assertable.contains item then .array (PropertyKind.itemTy item) len else .anyArray) := rfl

/-- Items of a kind that can be asserted are of its type and of no other. -/
theorem typeOf_of_satisfies {item : String} (hitem : assertable.contains item = true) {v : Value}
    (h : v.Satisfies (PropertyKind.itemTy item)) :
    v.typeOf = PropertyKind.itemTy item ∧ v.Uniform (PropertyKind.itemTy item) := by
  rcases List.mem_cons.1 (List.contains_iff_mem.1 hitem) with rfl | hitem
  · obtain ⟨x, rfl⟩ := h
    exact ⟨rfl, trivial⟩
  rcases List.mem_pair.1 hitem with rfl | rfl
  · obtain ⟨s, rfl⟩ := h
    exact ⟨rfl, trivial⟩
  · obtain ⟨b, rfl⟩ := h
    exact ⟨rfl, trivial⟩

theorem itemTy_ne_value {item : String} (hitem : assertable.contains item = true) :
    PropertyKind.itemTy item ≠ .value := by
  rcases List.mem_cons.1 (List.contains_iff_mem.1 hitem) with rfl | hitem
  · nofun
  rcases List.mem_pair.1 hitem with rfl | rfl <;> nofun

theorem fits_anyArray {v : Value} : Value.fits .anyArray v = true ↔ ∃ items, v = .array items := by
  cases v with
  | array items => exact iff_of_true rfl ⟨items, rfl⟩
  | _ => exact iff_of_false nofun fun ⟨_, h⟩ => nomatch h

theorem passed_eq_ok {v w : Value} : passed spec v = .ok w ↔ spec.kind.Passes v w := by
  obtain ⟨kind, default⟩ := spec
  cases kind with
  | color =>
      refine Except.bind_eq_ok.trans (exists_congr fun c => and_congr_right fun _ => ?_)
      exact ⟨fun h => (Except.ok.inj h).symm, fun h => h ▸ rfl⟩
  | array item len =>
      refine Value.asType_eq_ok.trans (and_congr_right fun _ => and_congr_right fun _ => ?_)
      by_cases hitem : assertable.contains item = true
      · rw [if_pos hitem]
        refine (Value.fits_array_iff (itemTy_ne_value hitem) (fun _ => typeOf_of_satisfies hitem)
          len v).trans (exists_congr fun items => and_congr_right fun _ => ?_)
        exact ⟨fun h _ => h, fun h => h hitem⟩
      · rw [if_neg hitem]
        refine fits_anyArray.trans (exists_congr fun items => ?_)
        exact ⟨fun h => ⟨h, fun h => absurd h hitem⟩, fun h => h.1⟩
  | _ =>
      refine Value.asType_eq_ok.trans (and_congr_right fun _ => ?_)
      refine ⟨fun h => ((Value.fits_iff _ _).1 h.2).1, ?_⟩
      rintro ⟨x, rfl⟩
      exact ⟨rfl, rfl⟩

theorem isNull_of_passes {kind : PropertyKind} {v w : Value} (h : kind.Passes v w) :
    w.isNull = false := by
  cases kind with
  | color =>
      obtain ⟨c, _, rfl⟩ := h
      rfl
  | array item len =>
      obtain ⟨rfl, _, items, rfl, _⟩ := h
      rfl
  | _ =>
      obtain ⟨rfl, x, rfl⟩ := h
      rfl

/-! ## Documents -/

variable {ctx : Context}

theorem elaborates_lookUp (hctx : ctx.expected = some .value) (property : String) :
    Elaborates ctx (lookUp property) (propertyAt ctx.path (ctx.path ++ [1]) property) := by
  obtain ⟨path, _, scope, r⟩ := ctx
  cases hctx
  rfl

theorem elaborates_asserted {name : String} {t : Ty} (hform : form? name = some (assertion t))
    (hctx : ctx.expected = some t) (property : String) :
    ∃ p p' q, Elaborates ctx (.call name [lookUp property])
      (.assertion p t [propertyAt p' q property]) := by
  refine ⟨_, _, _, (elaborates_named hform).2 ⟨_, clean_assertion.2 ⟨List.cons_ne_nil _ _, _,
    .cons (elaborates_lookUp rfl property) (.nil _), rfl⟩, .kept ?_⟩⟩
  rw [hctx]
  exact admits_self t

theorem elaborates_arrayAsserted {js : List Json} {item : Ty} {len : Option Nat}
    {property : String} (hparts : arrayParts? js = some (item, len, lookUp property))
    (hadmits : Admits ctx.expected (.array item len)) :
    ∃ p p' q, Elaborates ctx (.call "array" js)
      (.assertion p (.array item len) [propertyAt p' q property]) :=
  ⟨_, _, _, (elaborates_named rfl).2 ⟨_, clean_arrayAssertion.2 ⟨item, len, _, hparts, _,
    elaborates_lookUp rfl property, rfl⟩, .kept hadmits⟩⟩

theorem elaborates_toColor (hctx : ctx.expected = some .color) (property : String) :
    ∃ p p' q, Elaborates ctx (.call "to-color" [lookUp property])
      (.call p .color .toColor [propertyAt p' q property]) := by
  obtain ⟨path, _, scope, r⟩ := ctx
  cases hctx
  exact ⟨_, _, _, rfl⟩

theorem denote_toColor {scene : Scene} {env : Env} {p : Path} {t : Ty} {e : Expr} :
    Expr.denote scene (.call p t .toColor [e]) env =
      e.denote scene env >>= fun v => .color <$> Color.ofValue v := by
  show ((Rule.operand 0) >>= _).answer [e.denote scene env] = _
  cases e.denote scene env <;> rfl

theorem arrayParts?_named {item : String} {len : Option Nat}
    (hitem : assertable.contains item = true) (hlen : len ≠ some 0) (input : Json) :
    arrayParts? (.str item :: ((len.map Json.ofNat).toList ++ [input])) =
      some (PropertyKind.itemTy item, len, input) := by
  cases len with
  | none =>
      show (itemTy? (.str item)).map _ = _
      rw [itemTy?_of_assertable hitem]
      rfl
  | some n =>
      have hn : 0 < n := Nat.pos_of_ne_zero fun h => hlen (congrArg some h)
      show (itemTy? (.str item)).bind _ = _
      rw [itemTy?_of_assertable hitem, length?_ofNat, if_pos hn]
      rfl

theorem admits_anyArray {item : String} (hitem : assertable.contains item ≠ true)
    (len : Option Nat) : Admits (some (.array (PropertyKind.itemTy item) len)) .anyArray := by
  have hvalue : PropertyKind.itemTy item = .value := by
    unfold PropertyKind.itemTy
    split
    · exact absurd rfl hitem
    · exact absurd rfl hitem
    · exact absurd rfl hitem
    · rfl
  rw [hvalue]
  cases len <;> exact admits_some.2 (.inr rfl)

/-- A property that is asserted to be what a style property takes checks to a tree that passes on
what the property is. -/
theorem elaborates_typedLookUp (hspec : spec.kind.CanAssert)
    (hctx : ctx.expected = some spec.expectedTy) (property : String) :
    ∃ e, Elaborates ctx (typedLookUp spec property) e ∧ ∀ scene : Scene,
      e.denote scene .empty = scene.properties.get property >>= passed spec := by
  obtain ⟨kind, default⟩ := spec
  have hscalar : ∀ name, form? name = some (assertion (PropertySpec.expectedTy ⟨kind, default⟩)) →
      ∃ e, Elaborates ctx (.call name [lookUp property]) e ∧ ∀ scene : Scene,
        e.denote scene .empty = scene.properties.get property >>= fun v =>
          v.asType (PropertySpec.expectedTy ⟨kind, default⟩) := by
    intro name hform
    obtain ⟨p, p', q, h⟩ := elaborates_asserted hform hctx property
    exact ⟨_, h, fun _ => Expr.denote_assertion⟩
  cases kind with
  | number => exact hscalar "number" rfl
  | string => exact hscalar "string" rfl
  | enum values => exact hscalar "string" rfl
  | boolean => exact hscalar "boolean" rfl
  | color =>
      obtain ⟨p, p', q, h⟩ := elaborates_toColor hctx property
      exact ⟨_, h, fun _ => denote_toColor⟩
  | array item len =>
      simp only [typedLookUp, passed_array]
      by_cases hitem : assertable.contains item = true
      · rw [if_pos hitem, if_pos hitem]
        have hadmits : Admits ctx.expected (.array (PropertyKind.itemTy item) len) := by
          rw [hctx]
          exact admits_self _
        obtain ⟨p, p', q, h⟩ :=
          elaborates_arrayAsserted (arrayParts?_named hitem (hspec hitem) _) hadmits
        exact ⟨_, h, fun _ => Expr.denote_assertion⟩
      · rw [if_neg hitem, if_neg hitem]
        have hadmits : Admits ctx.expected .anyArray := by
          rw [hctx]
          exact admits_anyArray hitem len
        have hparts : arrayParts? [lookUp property] = some (.value, none, lookUp property) := rfl
        obtain ⟨p, p', q, h⟩ := elaborates_arrayAsserted hparts hadmits
        exact ⟨_, h, fun _ => Expr.denote_assertion⟩

theorem elaborates_null (ctx : Context) : Elaborates ctx .null (.literal ctx.path .null .null) := by
  have hty : literalTy ctx.expected (Value.ofJson .null) = .null := by
    rw [Value.ofJson]
    simp only [literalTy, Value.typeOf]
  have h := elaborates_data (j := .null) trivial (hty ▸ admits_null _)
  rwa [hty, Value.ofJson] at h

/-- With null in its place where it is not there or does not pass. -/
theorem compile_typedLookUp (hspec : spec.kind.CanAssert) (property : String) :
    ∃ c, compile (.call "coalesce" [typedLookUp spec property, .null]) (some spec.expectedTy)
        .standard = .ok c ∧ c.isZoomConstant = true ∧ ∀ zoom properties,
      c.root.denote ⟨zoom, properties, .standard⟩ .empty =
        .ok ((properties.get property >>= passed spec).toOption.getD .null) := by
  let ctx : Context := .root (some spec.expectedTy) .standard
  have hexpected : (ctx.child 1 ctx.expected).expected = some spec.expectedTy := rfl
  obtain ⟨e, he, hdenote⟩ := elaborates_typedLookUp hspec hexpected property
  have hcoalesce : Elaborates ctx (.call "coalesce" [typedLookUp spec property, .null])
      (.coalesce ctx.path spec.expectedTy [e, .literal (ctx.path ++ [2]) .null .null]) :=
    (elaborates_named rfl).2 ⟨_, clean_coalesce.2 ⟨_, _, .cons (clean_checkOutput.2 ⟨he, rfl⟩)
      (.cons (clean_checkOutput.2 ⟨elaborates_null _, rfl⟩) (.nil _)), rfl⟩, .kept (admits_self _)⟩
  refine ⟨_, compile_of_elaborates hcoalesce, ?_, fun zoom properties => ?_⟩
  · have hquiet : (Json.call "coalesce" [typedLookUp spec property, .null]).Quiet (some property) :=
      Json.quiet_coalesce (List.forall_mem_cons.2 ⟨quiet_typedLookUp spec property,
        List.forall_mem_singleton.2 (Json.quiet_scalar trivial)⟩)
    exact (hquiet _ _ _ ⟨_, hcoalesce⟩).isZoomConstant
  · rw [← hdenote ⟨zoom, properties, .standard⟩]
    have hmeets : Outcome.Meets EvalError.OfData _
        (e.denote ⟨zoom, properties, .standard⟩ .empty) := Expr.meets_denote_standard he.formed
    refine (Expr.denote_coalesce_pair rfl).trans (Outcome.orValue_null fun err herr => ?_)
    rw [herr] at hmeets
    exact EvalError.OfData.isFault hmeets

end Conversion

/-! ## Style functions -/

namespace StyleFunction

def passThrough (property : String) : Json :=
  .ofMembers [("type", .str "identity"), ("property", .str property)]

theorem passThrough_eq (property : String) :
    passThrough property = .obj [("property", .str property), ("type", .str "identity")] := by
  have hlt : "property" < "type" := by decide
  exact congrArg Json.obj (if_pos hlt)

theorem expression_passThrough (property : String) (kind : PropertyKind) :
    expression (passThrough property) ⟨kind, none⟩ =
      .ok (.call "coalesce" [Conversion.typedLookUp ⟨kind, none⟩ property, .null]) := by
  rw [passThrough_eq]
  rfl

/-- What is passed through makes no style function where the length of arrays cannot be asserted. -/
theorem canAssert_of_create {kind : PropertyKind} {property : String} {f : StyleFunction}
    (h : create (passThrough property) ⟨kind, none⟩ .standard = .ok f) : kind.CanAssert := by
  obtain ⟨j, hj, hcompile, _⟩ := create_eq_ok.1 h
  cases (expression_passThrough property kind).symm.trans hj
  obtain ⟨_, es, _, hes⟩ := (checksTo_of_compile hcompile).coalesce
  obtain _ | ⟨hinner, _⟩ := hes
  cases kind with
  | array item len =>
      rintro hitem rfl
      simp only [Conversion.typedLookUp] at hinner
      rw [if_pos hitem] at hinner
      obtain ⟨_, _, _, _, _, hparts, _⟩ := hinner.arrayAssertion
      replace hparts : (itemTy? (.str item)).bind _ = _ := hparts
      rw [Conversion.itemTy?_of_assertable hitem, length?_ofNat, if_neg (lt_irrefl 0)] at hparts
      cases hparts
  | _ => trivial

theorem present_getD_null (r : Outcome Value) (w : Value) :
    present (r.toOption.getD .null) = some w ↔ r = .ok w ∧ w.isNull = false := by
  cases r with
  | error err => exact iff_of_false nofun fun h => nomatch h.1
  | ok v =>
      show (if v.isNull then none else some v) = some w ↔ _
      cases hnull : v.isNull with
      | true =>
          refine iff_of_false nofun ?_
          rintro ⟨⟨⟩, hne⟩
          cases hnull.symm.trans hne
      | false =>
          refine ⟨fun h => ?_, fun h => congrArg some (Except.ok.inj h.1)⟩
          cases h
          exact ⟨rfl, hnull⟩

/-- A property that is passed through makes a style function, whatever is taken, and never fails.
The value is what the property passes as, and there is none where it does not pass. -/
theorem evaluate_passThrough {kind : PropertyKind} (hkind : kind.CanAssert) (property : String) :
    ∃ f, create (passThrough property) ⟨kind, none⟩ .standard = .ok f ∧
      ∀ easings, f.compiled.Leaves easings → ∀ zoom properties,
        ∃ found, (f.evaluate easings zoom properties).1 = .ok found ∧
          ∀ w, found = some w ↔ ∃ v, Dict.get? properties property = some v ∧ kind.Passes v w := by
  have hspec : (⟨kind, none⟩ : PropertySpec).kind.CanAssert := hkind
  obtain ⟨c, hcompile, hzoom, hdenote⟩ := Conversion.compile_typedLookUp hspec property
  refine ⟨⟨c, none⟩, create_eq_ok.2 ⟨_, expression_passThrough property kind, hcompile,
    .inl ⟨hzoom, rfl⟩⟩, fun easings hleaves zoom properties => ?_⟩
  have hevaluate := evaluate_eq (f := ⟨c, none⟩) hcompile hleaves zoom properties
  rw [hdenote] at hevaluate
  refine ⟨_, hevaluate, fun w => (present_getD_null _ w).trans ?_⟩
  constructor
  · rintro ⟨hw, -⟩
    obtain ⟨v, hv, hpassed⟩ := Except.bind_eq_ok.1 hw
    exact ⟨v, Properties.get_eq_ok.1 hv, Conversion.passed_eq_ok.1 hpassed⟩
  · rintro ⟨v, hv, hpasses⟩
    refine ⟨Except.bind_eq_ok.2 ⟨v, Properties.get_eq_ok.2 hv, ?_⟩,
      Conversion.isNull_of_passes hpasses⟩
    exact Conversion.passed_eq_ok.2 hpasses

/-- Two numbers are passed through where two numbers are taken. -/
theorem evaluate_passThrough_pair :
    ∃ f, create (passThrough "x") ⟨.array "number" (some 2), none⟩ .standard = .ok f ∧
      (f.evaluate .empty 0 [("x", .array [.number 1, .number 2])]).1 =
        .ok (some (.array [.number 1, .number 2])) := by
  have hkind : PropertyKind.CanAssert (.array "number" (some 2)) := fun _ => nofun
  obtain ⟨f, h, hevaluate⟩ := evaluate_passThrough hkind "x"
  obtain ⟨found, hfound, hiff⟩ :=
    hevaluate .empty .start 0 [("x", .array [.number 1, .number 2])]
  have hpasses : PropertyKind.Passes (.array [.number 1, .number 2])
      (.array [.number 1, .number 2]) (.array "number" (some 2)) := by
    refine ⟨rfl, rfl, _, rfl, fun _ => ⟨List.cons_ne_nil _ _, ?_, ?_⟩⟩
    · rintro _ ⟨⟩
      rfl
    · exact List.forall_mem_cons.2 ⟨⟨1, rfl⟩, List.forall_mem_singleton.2 ⟨2, rfl⟩⟩
  exact ⟨f, h, hfound.trans (congrArg _ ((hiff _).2 ⟨_, rfl, hpasses⟩))⟩

/-- No numbers at all are no array of numbers, three items pass where two are declared but their
kind cannot be asserted, and arrays of no numbers are refused as a whole. -/
theorem evaluate_passThrough_arrays :
    (∃ f, create (passThrough "x") ⟨.array "number" none, none⟩ .standard = .ok f ∧
      (f.evaluate .empty 0 [("x", .array [])]).1 = .ok none) ∧
    (∃ f, create (passThrough "x") ⟨.array "color" (some 2), none⟩ .standard = .ok f ∧
      (f.evaluate .empty 0 [("x", .array [.number 1, .number 2, .number 3])]).1 =
        .ok (some (.array [.number 1, .number 2, .number 3]))) ∧
    ∀ f, create (passThrough "x") ⟨.array "number" (some 0), none⟩ .standard ≠ .ok f :=
  ⟨⟨_, rfl, rfl⟩, ⟨_, rfl, rfl⟩, fun _ h => canAssert_of_create h rfl rfl⟩

end StyleFunction
end MapStyle

/-
# `MapStyle.Proofs.Style.UnsetExpression` — expressions that are null or false

An `expression` that is null or false does not make a definition a function; in that it is as good
as none (`StyleFunction.isFunction_without`).  But where stops make it one, the member is taken for
its expression merely because it is there.  So objects that are no functions are refused with and
without it alike, while a stop function beside it is lost: what is made instead is false, or the
default of the property, for every zoom level and every feature (`StyleFunction.create_of_unset`).
-/
import MapStyle.Proofs.Style.Data
import MapStyle.Proofs.Style.Fallback

namespace MapStyle

open Typing

/-! ## Documents without a member -/

namespace Json

def without (key : String) (j : Json) : Json :=
  match j with
  | .obj members => .obj (Dict.erase key members)
  | j => j

theorem get?_without_self (key : String) (j : Json) : (j.without key).get? key = none := by
  cases j with
  | obj members => exact Dict.get?_erase_self key members
  | _ => rfl

theorem get?_without_of_ne {key other : String} (h : other ≠ key) (j : Json) :
    (j.without key).get? other = j.get? other := by
  cases j with
  | obj members => exact Dict.get?_erase_of_ne h members
  | _ => rfl

end Json

/-- No stop function reads an `expression`. -/
theorem StopFunction.ofJson?_without (j : Json) :
    ofJson? (j.without "expression") = ofJson? j := by
  cases j with
  | obj members =>
      have hfield : ∀ name ∈ fieldNames,
          Dict.get? (Dict.erase "expression" members) name = Dict.get? members name := by
        intro name hname
        refine Dict.get?_erase_of_ne ?_ members
        rintro rfl
        revert hname
        decide
      show ofFields? _ = ofFields? _
      simp only [ofFields?, fieldNames, List.forall_mem_cons] at hfield ⊢
      obtain ⟨htype, hproperty, hbase, hstops, hdefault, _⟩ := hfield
      rw [htype, hproperty, hbase, hstops, hdefault]
  | _ => rfl

namespace StyleFunction

variable {definition e : Json} {spec : PropertySpec} {r : Interpolators} {f : StyleFunction}

theorem isFunction_without (h : isSet (definition.get? "expression") = false) :
    isFunction (definition.without "expression") = isFunction definition := by
  have hstops : "stops" ≠ "expression" := by decide
  have htype : "type" ≠ "expression" := by decide
  rw [isFunction, isFunction, h, Json.get?_without_self, Json.get?_without_of_ne hstops,
    Json.get?_without_of_ne htype]
  rfl

/-! ## Objects that are no functions -/

/-- No property takes objects. -/
theorem compile_quotedObject (members : Dict Json) (spec : PropertySpec) (r : Interpolators) :
    compile (.call "literal" [.obj members]) (some spec.expectedTy) r =
      .error [⟨[], .typeMismatch spec.expectedTy .object⟩] := by
  have hcheck : check (.call "literal" [.obj members]) (.root (some spec.expectedTy) r) =
      conform (.literal [] .object (Value.ofJson (.obj members)))
        (.root (some spec.expectedTy) r) := by
    show settled (literalOf _) _ = _
    rw [settled, literalOf, if_pos (Value.isValid_ofJson _)]
    rfl
  rw [compile, hcheck]
  obtain ⟨kind, default⟩ := spec
  cases kind <;> rfl

theorem create_of_object {members : Dict Json} (h : isFunction (.obj members) = false)
    (spec : PropertySpec) (r : Interpolators) :
    create (.obj members) spec r =
      .error (.parse [⟨[], .typeMismatch spec.expectedTy .object⟩]) := by
  rw [create, expression, h]
  show ((compile (.call "literal" [.obj members]) _ r).mapError StyleError.parse >>= _) = _
  rw [compile_quotedObject]
  rfl

/-! ## Functions -/

theorem isSet_eq_false_iff : isSet (some e) = false ↔ e = .null ∨ e = .bool false := by
  constructor
  · intro h
    cases e with
    | null => exact .inl rfl
    | bool b =>
        cases b with
        | false => exact .inr rfl
        | true => cases h
    | _ => cases h
  · rintro (rfl | rfl) <;> rfl

/-- Null and false are constants of every property whose type they check against. -/
theorem denote_unset (hunset : isSet (some e) = false) {scene : Scene} {d : Expr}
    (h : ChecksTo r spec.expectedTy e d) : d.denote scene .empty = .ok (Value.ofJson e) := by
  have hconstant : Conversion.constant spec e = e := by
    rcases isSet_eq_false_iff.1 hunset with rfl | rfl <;> rfl
  have hchecked : Conversion.defersCheck spec e = false := by
    unfold Conversion.defersCheck
    split
    · cases hunset
    · rfl
  rw [← hconstant] at h
  rw [Conversion.denote_constant h, Conversion.constantOutcome_of_checked hchecked]
  rcases isSet_eq_false_iff.1 hunset with rfl | rfl <;> rfl

theorem expression_of_unset (he : definition.get? "expression" = some e)
    (hfunction : isFunction definition = true) :
    expression definition spec =
      .ok (.call "coalesce" [e, Conversion.defaultOf spec spec.default]) := by
  rw [expression, hfunction, he]
  rfl

/-- What is not set and the default of the property read neither the zoom level nor the feature. -/
theorem quiet_unset (hunset : isSet (some e) = false) :
    (Json.call "coalesce" [e, Conversion.defaultOf spec spec.default]).Quiet none := by
  have hscalar : IsScalar e := by
    rcases isSet_eq_false_iff.1 hunset with rfl | rfl <;> trivial
  exact Json.quiet_coalesce (List.forall_mem_cons.2 ⟨Json.quiet_scalar hscalar,
    List.forall_mem_singleton.2 (Conversion.quiet_defaultOf spec _)⟩)

theorem create_of_function (he : definition.get? "expression" = some e)
    (hunset : isSet (some e) = false) (hfunction : isFunction definition = true) :
    create definition spec r =
      ((compile (.call "coalesce" [e, Conversion.defaultOf spec spec.default])
        (some spec.expectedTy) r).mapError StyleError.parse).map fun c => ⟨c, none⟩ := by
  rw [create, expression_of_unset he hfunction]
  show ((compile _ _ r).mapError StyleError.parse >>= _) = _
  cases hc : compile (.call "coalesce" [e, Conversion.defaultOf spec spec.default])
      (some spec.expectedTy) r with
  | error ds => rfl
  | ok c =>
      have hquiet := quiet_unset hunset _ _ _ (checksTo_of_compile hc)
      have hzoom : c.isZoomConstant = true := hquiet.isZoomConstant
      show (if c.isZoomConstant then _ else _) = _
      rw [if_pos hzoom]
      rfl

theorem evaluate_of_function (he : definition.get? "expression" = some e)
    (hunset : isSet (some e) = false) (hfunction : isFunction definition = true)
    (h : create definition spec r = .ok f) {easings : EasingCache}
    (hleaves : f.compiled.Leaves easings) (zoom : Float) (properties : Properties) :
    (f.evaluate easings zoom properties).1 =
      (Outcome.orOutcome (.ok (Value.ofJson e))
        (Conversion.constantOutcome spec (spec.default.getD .null))).map present := by
  obtain ⟨j, hj, hcompile, _⟩ := create_eq_ok.1 h
  cases hj.symm.trans (expression_of_unset he hfunction)
  obtain ⟨p, es, hroot, hes⟩ := (checksTo_of_compile hcompile).coalesce
  obtain _ | ⟨hinner, _ | ⟨hdefault, _ | _⟩⟩ := hes
  rw [evaluate_eq hcompile hleaves, hroot, Expr.denote_coalesce_two, denote_unset hunset hinner,
    Conversion.denote_defaultOf hdefault]
  rfl

/-- An `expression` that is null or false.  An object that is no function is refused in the same
words with and without it.  A definition that is a stop function without it is none with it: its
stops are never read, and what is made of it is false, or the default of the property if the member
is null. -/
theorem create_of_unset (he : definition.get? "expression" = some e)
    (hunset : isSet (some e) = false) (spec : PropertySpec) (r : Interpolators) :
    (isFunction definition = false →
      create definition spec r = .error (.parse [⟨[], .typeMismatch spec.expectedTy .object⟩]) ∧
      create (definition.without "expression") spec r = create definition spec r) ∧
    (isFunction definition = true →
      (∀ s, StopFunction.ofJson? definition = some s →
        IsStops (definition.without "expression") s) ∧
      create definition spec r =
        ((compile (.call "coalesce" [e, Conversion.defaultOf spec spec.default])
          (some spec.expectedTy) r).mapError StyleError.parse).map (fun c => ⟨c, none⟩) ∧
      ∀ f, create definition spec r = .ok f →
        f.compiled.isFeatureConstant = true ∧ f.compiled.isZoomConstant = true ∧
        ∀ easings, f.compiled.Leaves easings → ∀ zoom properties,
          (e = .bool false → (f.evaluate easings zoom properties).1 = .ok (some (.bool false))) ∧
          (e = .null → (f.evaluate easings zoom properties).1 =
            (Conversion.constantOutcome spec (spec.default.getD .null)).map present)) := by
  have hwithout : isFunction (definition.without "expression") = isFunction definition :=
    isFunction_without (by rw [he]; exact hunset)
  obtain ⟨members, rfl⟩ : ∃ members, definition = .obj members := by
    cases definition with
    | obj members => exact ⟨members, rfl⟩
    | _ => cases he
  refine ⟨fun hnot => ?_, fun hfunction => ⟨fun s hs => ?_, ?_, fun f h => ?_⟩⟩
  · have hrefused := create_of_object hnot spec r
    rw [hrefused]
    exact ⟨rfl, create_of_object (hwithout.trans hnot) spec r⟩
  · exact ⟨hwithout.trans hfunction, Json.get?_without_self _ _,
      (StopFunction.ofJson?_without _).trans hs⟩
  · exact create_of_function he hunset hfunction
  · obtain ⟨j, hj, hcompile, _⟩ := create_eq_ok.1 h
    -- the member is there, so the stops are passed over
    cases hj.symm.trans (expression_of_unset he hfunction)
    have hquiet := quiet_unset hunset _ _ _ (checksTo_of_compile hcompile)
    refine ⟨hquiet.isFeatureConstant, hquiet.isZoomConstant,
      fun easings hleaves zoom properties => ?_⟩
    have hvalue := evaluate_of_function he hunset hfunction h hleaves zoom properties
    constructor
    · rintro rfl
      exact hvalue
    · rintro rfl
      exact hvalue

/-- Whether something is drawn, by its kind, beside an expression that is false. -/
def falseBesideStops : Json := .ofMembers [("expression", .bool false),
  ("type", .str "categorical"), ("property", .str "kind"),
  ("stops", .arr [.arr [.str "park", .bool true]])]

theorem create_falseBesideStops :
    ∃ f, falseBesideStops.get? "expression" = some (.bool false) ∧
      create falseBesideStops ⟨.boolean, some (.bool true)⟩ .standard = .ok f ∧
      ∀ zoom properties, (f.evaluate .empty zoom properties).1 = .ok (some (.bool false)) := by
  have he : falseBesideStops.get? "expression" = some (.bool false) := rfl
  obtain ⟨f, h⟩ : ∃ f, create falseBesideStops ⟨.boolean, some (.bool true)⟩ .standard = .ok f :=
    ⟨_, rfl⟩
  obtain ⟨_, _, hconstant⟩ := (create_of_unset he rfl _ .standard).2 rfl
  obtain ⟨_, _, hvalue⟩ := hconstant f h
  exact ⟨f, he, h, fun zoom properties => (hvalue .empty .start zoom properties).1 rfl⟩

/-- A curve over the zoom level beside an expression that is null. -/
def nullBesideStops : Json := .ofMembers [("expression", .null), ("type", .str "interval"),
  ("stops", .arr [.arr [.ofNat 0, .ofNat 1], .arr [.ofNat 10, .ofNat 5]])]

/-- An expression that is null matters: here it takes the stops away, and the values with them. -/
theorem create_nullBesideStops :
    ∃ f g, nullBesideStops.get? "expression" = some .null ∧
      create nullBesideStops ⟨.number, none⟩ .standard = .ok f ∧
      create (nullBesideStops.without "expression") ⟨.number, none⟩ .standard = .ok g ∧
      f.compiled.isZoomConstant = true ∧ g.compiled.isZoomConstant = false ∧
      f.sampling.map (·.stops) = none ∧ g.sampling.map (·.stops) = some [0, 10] ∧
      (∀ zoom properties, (f.evaluate .empty zoom properties).1 = .ok none) ∧
      (g.evaluate .empty 0 []).1 = .ok (some (.number 1)) :=
  ⟨_, _, rfl, rfl, rfl, rfl, rfl, rfl, rfl, fun _ _ => rfl, rfl⟩

end StyleFunction
end MapStyle

/-
# `MapStyle.Proofs.Style.Fallback` — when a style function fails

A style function that is not a constant is an expression beside a constant, its default, which takes
the place of the expression wherever that fails or is null (`StyleFunction.parts`).  Such a function
fails only if the default does, and a definition that is a constant fails only if the constant does.
Constants that fail are those whose check was deferred (`Conversion.defersCheck`); all others come
to their values, whatever the zoom level and the feature are
(`StyleFunction.evaluate_or_fallback`).

That the expression may be given up for the default rests on its errors being about the data: an
operand that is not there would be a fault of the tree, and no `coalesce` swallows one.
-/
import MapStyle.Proofs.Style.Constants
import MapStyle.Proofs.Style.Create

namespace MapStyle

open Typing

namespace StyleFunction

variable {definition : Json} {spec : PropertySpec} {f : StyleFunction} {j : Json}

/-! ## Parts -/

/-- The expression of a function without its default, and the default; null if there is none. -/
def parts (definition : Json) (spec : PropertySpec) : Except StyleError (Json × Json) :=
  match definition.get? "expression" with
  | some e => pure (e, spec.default.getD .null)
  | none =>
    match StopFunction.ofJson? definition with
    | none => throw .malformed
    | some s => do
      let default := s.default.or spec.default
      let inner ← (Conversion.body s (Conversion.kindOf s spec) spec
        (Conversion.defaultOf spec default)).mapError .config
      pure (inner, default.getD .null)

/-- The constant that is left when there is no expression, or when it is given up. -/
def lastResort (definition : Json) (spec : PropertySpec) : Json :=
  if isFunction definition then ((parts definition spec).toOption.map (·.2)).getD .null
  else definition

theorem constant_getD (spec : PropertySpec) (default : Option Json) :
    Conversion.constant spec (default.getD .null) = Conversion.defaultOf spec default := by
  cases default <;> rfl

theorem expression_of_isFunction (hfunction : isFunction definition = true)
    (hj : expression definition spec = .ok j) :
    ∃ inner default, parts definition spec = .ok (inner, default) ∧
      j = .call "coalesce" [inner, Conversion.constant spec default] := by
  rw [expression, hfunction] at hj
  rw [parts]
  cases hexpression : definition.get? "expression" with
  | some e =>
      rw [hexpression] at hj
      cases hj
      exact ⟨e, _, rfl, by rw [constant_getD]⟩
  | none =>
      rw [hexpression] at hj
      cases hstops : StopFunction.ofJson? definition with
      | none =>
          rw [hstops] at hj
          cases hj
      | some s =>
          rw [hstops] at hj
          obtain ⟨inner, hinner, hj⟩ := Except.bind_eq_ok.1 (Except.mapError_eq_ok.1 hj)
          cases hj
          refine ⟨inner, (s.default.or spec.default).getD .null, ?_, by rw [constant_getD]⟩
          exact Except.bind_eq_ok.2 ⟨inner, Except.mapError_eq_ok.2 hinner, rfl⟩

theorem lastResort_of_parts (hfunction : isFunction definition = true) {inner default : Json}
    (h : parts definition spec = .ok (inner, default)) : lastResort definition spec = default := by
  rw [lastResort, if_pos hfunction, h]
  rfl

/-! ## Evaluation -/

/-- A value, with nothing in place of null. -/
def present (v : Value) : Option Value := if v.isNull then none else some v

variable {easings : EasingCache}

theorem evaluate_constant (h : create definition spec .standard = .ok f)
    (hleaves : f.compiled.Leaves easings) (hconstant : isFunction definition = false)
    (zoom : Float) (properties : Properties) :
    (f.evaluate easings zoom properties).1 =
      (Conversion.constantOutcome spec definition).map present := by
  obtain ⟨j, hj, hcompile, _⟩ := create_eq_ok.1 h
  rw [expression, hconstant] at hj
  cases hj
  have hchecks : ChecksTo .standard spec.expectedTy (Conversion.constant spec definition)
      f.compiled.root := checksTo_of_compile hcompile
  rw [evaluate_eq hcompile hleaves, Conversion.denote_constant hchecks]
  rfl

/-- A definition that is a function has a tree for its expression, whose errors are about the data,
and comes to the outcome of that or of the default. -/
theorem evaluate_function (h : create definition spec .standard = .ok f)
    (hleaves : f.compiled.Leaves easings) (hfunction : isFunction definition = true)
    (zoom : Float) (properties : Properties) :
    ∃ inner default p e d, parts definition spec = .ok (inner, default) ∧
      f.compiled.root = .coalesce p spec.expectedTy [e, d] ∧
      ChecksTo .standard spec.expectedTy inner e ∧
      (∀ err, (e.eval ⟨zoom, properties, .standard⟩ ⟨[], easings⟩).1 = .error err →
        err.isFault = false) ∧
      (f.evaluate easings zoom properties).1 =
        ((e.eval ⟨zoom, properties, .standard⟩ ⟨[], easings⟩).1.orOutcome
          (Conversion.constantOutcome spec default)).map present := by
  obtain ⟨j, hj, hcompile, _⟩ := create_eq_ok.1 h
  obtain ⟨inner, default, hparts, rfl⟩ := expression_of_isFunction hfunction hj
  obtain ⟨p, es, hroot, hes⟩ := (checksTo_of_compile hcompile).coalesce
  obtain ⟨e, d, rfl, hinner, hdefault⟩ : ∃ e d, es = [e, d] ∧
      ChecksTo .standard spec.expectedTy inner e ∧
      ChecksTo .standard spec.expectedTy (Conversion.constant spec default) d := by
    rcases hes with _ | ⟨hinner, _ | ⟨hdefault, _ | _⟩⟩
    exact ⟨_, _, rfl, hinner, hdefault⟩
  have heval : (e.eval ⟨zoom, properties, .standard⟩ ⟨[], easings⟩).1 =
      e.denote ⟨zoom, properties, .standard⟩ .empty :=
    (Expr.answers_eval e hinner.formed .empty ⟨[], easings⟩ rfl (hleaves.sound hcompile)).1
  refine ⟨inner, default, p, e, d, hparts, hroot, hinner, ?_, ?_⟩
  · intro err herr
    rw [heval] at herr
    have hmeets : Outcome.Meets EvalError.OfData _
        (e.denote ⟨zoom, properties, .standard⟩ .empty) :=
      Expr.meets_denote_standard hinner.formed
    rw [herr] at hmeets
    exact EvalError.OfData.isFault hmeets
  · rw [heval, evaluate_eq hcompile hleaves, hroot, Expr.denote_coalesce_two,
      Conversion.denote_constant hdefault]
    rfl

/-- A style function does not fail unless its last resort does. -/
theorem exists_evaluate (h : create definition spec .standard = .ok f)
    (hleaves : f.compiled.Leaves easings) (zoom : Float) (properties : Properties)
    (hchecked : Conversion.defersCheck spec (lastResort definition spec) = false) :
    ∃ v, (f.evaluate easings zoom properties).1 = .ok v := by
  cases hfunction : isFunction definition with
  | false =>
      rw [lastResort, hfunction, if_neg Bool.false_ne_true] at hchecked
      rw [evaluate_constant h hleaves hfunction, Conversion.constantOutcome_of_checked hchecked]
      exact ⟨_, rfl⟩
  | true =>
      obtain ⟨_, _, _, _, _, hparts, _, _, hfault, heq⟩ :=
        evaluate_function h hleaves hfunction zoom properties
      rw [lastResort_of_parts hfunction hparts] at hchecked
      obtain ⟨v, hv⟩ := Outcome.exists_orOutcome hfault (Conversion.constantValue spec _)
      rw [heq, Conversion.constantOutcome_of_checked hchecked, hv]
      exact ⟨_, rfl⟩

/-- What a style function comes to.  It does not fail unless its last resort is a constant whose
check was deferred.  A constant comes to itself; an expression comes to its value, or to the default
wherever it fails or is null. -/
theorem evaluate_or_fallback (h : create definition spec .standard = .ok f)
    (hleaves : f.compiled.Leaves easings) (zoom : Float) (properties : Properties) :
    (Conversion.defersCheck spec (lastResort definition spec) = false →
        ∃ v, (f.evaluate easings zoom properties).1 = .ok v) ∧
      (isFunction definition = false → (f.evaluate easings zoom properties).1 =
        (Conversion.constantOutcome spec definition).map present) ∧
      (isFunction definition = true → ∃ inner default p e d,
        parts definition spec = .ok (inner, default) ∧
        f.compiled.root = .coalesce p spec.expectedTy [e, d] ∧
        ChecksTo .standard spec.expectedTy inner e ∧
        (∀ v, (e.eval ⟨zoom, properties, .standard⟩ ⟨[], easings⟩).1 = .ok v → v ≠ .null →
          (f.evaluate easings zoom properties).1 = .ok (some v)) ∧
        ((e.eval ⟨zoom, properties, .standard⟩ ⟨[], easings⟩).1 = .ok .null ∨
          (∃ err, (e.eval ⟨zoom, properties, .standard⟩ ⟨[], easings⟩).1 = .error err) →
          (f.evaluate easings zoom properties).1 =
            (Conversion.constantOutcome spec default).map present)) := by
  refine ⟨exists_evaluate h hleaves zoom properties,
    fun hconstant => evaluate_constant h hleaves hconstant zoom properties, fun hfunction => ?_⟩
  obtain ⟨inner, default, p, e, d, hparts, hroot, hinner, hfault, heq⟩ :=
    evaluate_function h hleaves hfunction zoom properties
  refine ⟨inner, default, p, e, d, hparts, hroot, hinner, fun v hv hne => ?_, fun hnone => ?_⟩
  · have hnull : v.isNull = false := by cases v <;> first | rfl | exact absurd rfl hne
    have hpresent : present v = some v := by rw [present, hnull, if_neg Bool.false_ne_true]
    rw [heq, hv, Outcome.orOutcome_of_value hnull, ← hpresent]
    rfl
  · rw [heq]
    rcases hnone with hnone | ⟨err, hnone⟩
    · rw [hnone]
      rfl
    · rw [hnone, Outcome.orOutcome_of_error (hfault err hnone)]

/-- A width out of a property, and 5 where there is none. -/
def widthOrFive : Json := .ofMembers [("expression", .call "number" [.call "get" [.str "width"]])]

theorem evaluate_widthOrFive :
    ∃ f, create widthOrFive ⟨.number, some (.ofNat 5)⟩ .standard = .ok f ∧
      ∀ zoom, (f.evaluate .empty zoom []).1 = .ok (some (.number 5)) := by
  obtain ⟨f, h, hmissing⟩ : ∃ f, create widthOrFive ⟨.number, some (.ofNat 5)⟩ .standard = .ok f ∧
      ∀ p t e d, f.compiled.root = .coalesce p t [e, d] → ∀ zoom,
        (e.eval ⟨zoom, [], .standard⟩ ⟨[], .empty⟩).1 = .error (.missingProperty "width") := by
    refine ⟨_, rfl, fun p t e d hroot zoom => ?_⟩
    cases hroot
    rfl
  refine ⟨f, h, fun zoom => ?_⟩
  obtain ⟨inner, default, p, e, d, hparts, hroot, _, _, hfallback⟩ :=
    (evaluate_or_fallback h .start zoom []).2.2 rfl
  cases hparts
  exact hfallback (.inr ⟨_, hmissing _ _ _ _ hroot zoom⟩)

/-- Numbers are wanted and something else is among them. -/
def mixedArray : Json := .arr [.str "a", .ofNat 1]

/-- An array whose items are not all of one type is accepted where numbers are wanted, and fails. -/
theorem evaluate_mixedArray :
    ∃ f, create mixedArray ⟨.array "number" none, none⟩ .standard = .ok f ∧
      (f.evaluate .empty 0 []).1 =
        .error (.typeMismatch (.array .number none) (.array .value (some 2))) :=
  ⟨_, rfl, rfl⟩

end StyleFunction
end MapStyle

/-
# `MapStyle.Proofs.Style.Create` — when a definition makes a style function

A definition makes a style function when its expression checks against the type of the property and,
if it depends on the zoom level, has a zoom curve with a position along it (`create_eq_ok`).  What
is proved about style functions is proved from this equivalence and from the reference evaluation
of their expressions (`StyleFunction.evaluate_eq`).
-/
import MapStyle.Style.Function
import MapStyle.Proofs.Eval.Outcomes

namespace MapStyle

/-! ## Results of steps -/

section Results

variable {ε ε' α β : Type} {p : Except ε α}

theorem Except.bind_eq_ok {f : α → Except ε β} {b : β} :
    (p >>= f) = .ok b ↔ ∃ a, p = .ok a ∧ f a = .ok b := by
  cases p with
  | error e => exact iff_of_false (fun h => nomatch h) (fun ⟨_, h, _⟩ => nomatch h)
  | ok a =>
      constructor
      · exact fun h => ⟨a, rfl, h⟩
      · rintro ⟨_, ⟨⟩, h⟩
        exact h

theorem Except.mapError_eq_ok {f : ε → ε'} {a : α} : p.mapError f = .ok a ↔ p = .ok a := by
  cases p with
  | error e => exact iff_of_false (fun h => nomatch h) (fun h => nomatch h)
  | ok b => exact ⟨fun h => by cases h; rfl, fun h => by cases h; rfl⟩

theorem Except.bind_eq_error {f : α → Except ε β} {err : ε} :
    (p >>= f) = .error err ↔ p = .error err ∨ ∃ a, p = .ok a ∧ f a = .error err := by
  cases p with
  | error e =>
      constructor
      · exact fun h => .inl (congrArg _ (Except.error.inj h))
      · rintro (⟨⟨⟩⟩ | ⟨_, ⟨⟩, _⟩)
        rfl
  | ok a =>
      constructor
      · exact fun h => .inr ⟨a, rfl, h⟩
      · rintro (⟨⟨⟩⟩ | ⟨_, ⟨⟩, h⟩)
        exact h

theorem Except.mapError_eq_error {f : ε → ε'} {err : ε'} :
    p.mapError f = .error err ↔ ∃ e, p = .error e ∧ f e = err := by
  cases p with
  | error e =>
      constructor
      · exact fun h => ⟨e, rfl, Except.error.inj h⟩
      · rintro ⟨_, ⟨⟩, rfl⟩
        rfl
  | ok b => exact iff_of_false (fun h => nomatch h) (fun ⟨_, h, _⟩ => nomatch h)

end Results

namespace StyleFunction

variable {definition : Json} {spec : PropertySpec} {interpolators : Interpolators}
  {f : StyleFunction}

/-! ## Creation -/

theorem sample_eq_ok {c : Compiled} {s : ZoomSampling} :
    sample c = .ok s ↔ ∃ curve, ZoomCurve.find c.root = .ok (some curve) ∧
      s.stops = curve.labels ∧
      compile curve.positionJson (some .number) c.interpolators = .ok s.position := by
  rw [sample, Except.bind_eq_ok]
  simp only [Except.mapError_eq_ok]
  constructor
  · rintro ⟨_ | curve, hfind, hs⟩
    · cases hs
    · obtain ⟨position, hposition, hs⟩ := Except.bind_eq_ok.1 hs
      cases hs
      exact ⟨curve, hfind, rfl, Except.mapError_eq_ok.1 hposition⟩
  · rintro ⟨curve, hfind, hstops, hposition⟩
    refine ⟨some curve, hfind, Except.bind_eq_ok.2 ⟨s.position, ?_, ?_⟩⟩
    · exact Except.mapError_eq_ok.2 hposition
    · rw [← hstops]
      rfl

/-- A definition makes a style function when its expression checks and what depends on the zoom
level has a position along its zoom curve. -/
theorem create_eq_ok : create definition spec interpolators = .ok f ↔
    ∃ j, expression definition spec = .ok j ∧
      compile j (some spec.expectedTy) interpolators = .ok f.compiled ∧
      ((f.compiled.isZoomConstant = true ∧ f.sampling = none) ∨
        (f.compiled.isZoomConstant = false ∧
          ∃ s, sample f.compiled = .ok s ∧ f.sampling = some s)) := by
  rw [create]
  simp only [Except.bind_eq_ok, Except.mapError_eq_ok]
  constructor
  · rintro ⟨j, hj, c, hc, hf⟩
    cases hconstant : c.isZoomConstant with
    | true =>
        rw [hconstant, if_pos rfl] at hf
        cases hf
        exact ⟨j, hj, hc, .inl ⟨hconstant, rfl⟩⟩
    | false =>
        rw [hconstant, if_neg Bool.false_ne_true] at hf
        obtain ⟨s, hs, hf⟩ := Except.bind_eq_ok.1 hf
        cases hf
        exact ⟨j, hj, hc, .inr ⟨hconstant, s, hs, rfl⟩⟩
  · rintro ⟨j, hj, hc, ⟨hconstant, hsampling⟩ | ⟨hconstant, s, hs, hsampling⟩⟩
    · refine ⟨j, hj, f.compiled, hc, ?_⟩
      rw [hconstant, if_pos rfl, ← hsampling]
      rfl
    · refine ⟨j, hj, f.compiled, hc, ?_⟩
      rw [hconstant, if_neg Bool.false_ne_true, Except.bind_eq_ok]
      exact ⟨s, hs, by rw [← hsampling]; rfl⟩

/-- What is wrong with a definition beside its expression is what is wrong with its shape, or with
the curves over the zoom level along the tree. -/
theorem config_of_create {err : ConfigError}
    (h : create definition spec interpolators = .error (.config err)) :
    expression definition spec = .error (.config err) ∨
      ∃ j c, expression definition spec = .ok j ∧
        compile j (some spec.expectedTy) interpolators = .ok c ∧ c.isZoomConstant = false ∧
        (ZoomCurve.find c.root = .error err ∨
          ZoomCurve.find c.root = .ok none ∧ err = .zoomOutsideCurve) := by
  rcases Except.bind_eq_error.1 h with h | ⟨j, hj, h⟩
  · exact .inl h
  rcases Except.bind_eq_error.1 h with h | ⟨c, hc, h⟩
  · obtain ⟨_, _, h⟩ := Except.mapError_eq_error.1 h
    cases h
  refine .inr ⟨j, c, hj, Except.mapError_eq_ok.1 hc, ?_⟩
  cases hconstant : c.isZoomConstant with
  | true =>
      rw [hconstant] at h
      cases h
  | false =>
      rw [hconstant, if_neg Bool.false_ne_true] at h
      refine ⟨rfl, ?_⟩
      rcases Except.bind_eq_error.1 h with h | ⟨_, _, h⟩
      · rcases Except.bind_eq_error.1 h with h | ⟨_ | curve, hfind, h⟩
        · obtain ⟨_, hfind, h⟩ := Except.mapError_eq_error.1 h
          cases h
          exact .inl hfind
        · cases h
          exact .inr ⟨Except.mapError_eq_ok.1 hfind, rfl⟩
        · rcases Except.bind_eq_error.1 h with h | ⟨_, _, h⟩
          · obtain ⟨_, _, h⟩ := Except.mapError_eq_error.1 h
            cases h
          · cases h
      · cases h

/-! ## Evaluation -/

/-- The value of a style function, after any evaluations before, is that of its expression, with
nothing in place of null. -/
theorem evaluate_eq {j : Json} {expected : Option Ty}
    (h : compile j expected interpolators = .ok f.compiled) {easings : EasingCache}
    (hleaves : f.compiled.Leaves easings) (zoom : Float) (properties : Properties) :
    (f.evaluate easings zoom properties).1 =
      (f.compiled.root.denote ⟨zoom, properties, interpolators⟩ .empty).map fun v =>
        if v.isNull then none else some v := by
  have hanswer := (answers_root h zoom properties ⟨[], easings⟩ rfl (hleaves.sound h)).1
  rw [← hanswer]
  rfl

end StyleFunction
end MapStyle

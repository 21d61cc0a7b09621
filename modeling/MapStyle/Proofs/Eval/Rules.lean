/-
# `MapStyle.Proofs.Eval.Rules` — what rules come to

A rule asks for operands and ends with an outcome.  `Rule.Meets n E Q P` says that it asks only for
the first `n` operands, and what it can end with when all that is known of operand `i` is that it
comes to an error in `E` or to a value in `Q i`: an error in `E`, or a result in `P`.  The statement
is proved of a rule along its `do` block, one lemma for each thing a block can do, and carries over
to whatever answers the questions of the rule.

The rules of nodes other than calls are at the end.
-/
import MapStyle.Proofs.Curve.Places
import MapStyle.Proofs.Eval.Scope
import MapStyle.Proofs.Typing.Branches

namespace MapStyle

namespace Outcome

variable {α β : Type} {E : EvalError → Prop} {P : α → Prop}

/-- An outcome is an error in `E` or a result in `P`. -/
def Meets (E : EvalError → Prop) (P : α → Prop) : Outcome α → Prop
  | .ok a => P a
  | .error e => E e

theorem Meets.mono {P' : α → Prop} {r : Outcome α} (h : Meets E P r) (hP : ∀ a, P a → P' a) :
    Meets E P' r := by
  cases r with
  | ok a => exact hP a h
  | error e => exact h

theorem Meets.bind {P' : β → Prop} {r : Outcome α} {f : α → Outcome β} (h : Meets E P r)
    (hf : ∀ a, P a → Meets E P' (f a)) : Meets E P' (r >>= f) := by
  cases r with
  | ok a => exact hf a h
  | error e => exact h

theorem Meets.map {P' : β → Prop} {r : Outcome α} {f : α → β} (h : Meets E P r)
    (hf : ∀ a, P a → P' (f a)) : Meets E P' (f <$> r) := by
  cases r with
  | ok a => exact hf a h
  | error e => exact h

end Outcome

namespace Rule

variable {α β : Type} {n : Nat} {E : EvalError → Prop} {Q : Nat → Value → Prop} {P : α → Prop}
  {P' : β → Prop}

/-- A rule asks for the first `n` operands only, and comes to an error in `E` or to a result in `P`,
provided that operand `i` comes to an error in `E` or to a value in `Q i`. -/
def Meets (n : Nat) (E : EvalError → Prop) (Q : Nat → Value → Prop) (P : α → Prop) : Rule α → Prop
  | done r => Outcome.Meets E P r
  | ask i next => i < n ∧ ∀ r, Outcome.Meets E (Q i) r → Meets n E Q P (next r)
  | ease _ next => ∀ easing, Meets n E Q P (next easing)

/-! ## Along a `do` block -/

theorem meets_pure {a : α} (h : P a) : (pure a : Rule α).Meets n E Q P := h

theorem meets_fail {e : EvalError} (h : E e) : (fail e : Rule α).Meets n E Q P := h

theorem meets_lift {r : Outcome α} (h : Outcome.Meets E P r) :
    (monadLift r : Rule α).Meets n E Q P := h

theorem Meets.bind {rule : Rule α} {f : α → Rule β} (h : rule.Meets n E Q P)
    (hf : ∀ a, P a → (f a).Meets n E Q P') : (rule >>= f).Meets n E Q P' := by
  induction rule with
  | done r =>
      cases r with
      | ok a => exact hf a h
      | error e => exact h
  | ask i next ih => exact ⟨h.1, fun r hr => ih r (h.2 r hr)⟩
  | ease p next ih => exact fun easing => ih easing (h easing)

theorem meets_operand {i : Nat} (hi : i < n) : (operand i).Meets n E Q (Q i) := ⟨hi, fun _ h => h⟩

theorem meets_attempt {i : Nat} (hi : i < n) :
    (attempt i).Meets n E Q (Outcome.Meets E (Q i)) := ⟨hi, fun _ h => h⟩

theorem meets_easing (p : ControlPoints) : (easing p).Meets n E Q fun _ => True := fun _ => trivial

theorem Meets.mono {P' : α → Prop} {rule : Rule α} (h : rule.Meets n E Q P)
    (hP : ∀ a, P a → P' a) : rule.Meets n E Q P' := by
  induction rule with
  | done r => exact Outcome.Meets.mono h hP
  | ask i next ih => exact ⟨h.1, fun r hr => ih r (h.2 r hr)⟩
  | ease p next ih => exact fun easing => ih easing (h easing)

/-! ## Answered questions -/

/-- What a rule comes to when it is followed in a scope. -/
theorem Meets.run {rule : Rule α} {operands : List (Evaluation Value)}
    (h : rule.Meets operands.length E Q P) {scope : List (String × Value)}
    (hkeeps : ∀ p ∈ operands, p.Keeps)
    (hoperands : ∀ i p, operands[i]? = some p → ∀ st : EvalState, st.scope = scope →
      Outcome.Meets E (Q i) (p st).1)
    (st : EvalState) (hst : st.scope = scope) : Outcome.Meets E P (rule.run operands st).1 := by
  induction rule generalizing st with
  | done r => exact h
  | ask i next ih =>
      have hp := List.getElem?_eq_getElem h.1
      have hkept := hkeeps _ (List.mem_of_getElem? hp) st
      rw [Rule.run, hp]
      exact ih _ (h.2 _ (hoperands i _ hp st hst)) _ (hkept.trans hst)
  | ease p next ih => exact ih _ (h _) _ hst

/-- What a rule comes to when the outcomes of its operands are given. -/
theorem Meets.answer {rule : Rule α} {operands : List (Outcome Value)}
    (h : rule.Meets operands.length E Q P)
    (hoperands : ∀ i r, operands[i]? = some r → Outcome.Meets E (Q i) r) :
    Outcome.Meets E P (rule.answer operands) := by
  induction rule with
  | done r => exact h
  | ask i next ih =>
      have hr := List.getElem?_eq_getElem h.1
      rw [Rule.answer, hr]
      exact ih _ (h.2 _ (hoperands i _ hr))
  | ease p next ih => exact ih _ (h _)

end Rule

/-! ## Rules of nodes -/

/-- An error that the data can cause: neither is a name missing from the scope, nor an operand, stop
or label from the tree. -/
def EvalError.OfData : EvalError → Prop
  | unknownVariable _ => False
  | missingOperand _ => False
  | _ => True

/-- An error about the data that a node of a checked tree raises itself.  It is none that a blend
reports, and no value is asked for a text that it does not have, no type for a blend that it does not
have. -/
def EvalError.OfNode : EvalError → Prop
  | unknownVariable _ => False
  | missingOperand _ => False
  | notPrimitive _ => False
  | noInterpolator _ => False
  | notBlendable _ _ _ => False
  | lengthsDiffer _ _ => False
  | reported _ => False
  | _ => True

theorem EvalError.OfNode.ofData {e : EvalError} (h : e.OfNode) : e.OfData := by
  cases e with
  | unknownVariable => exact h
  | missingOperand => exact h
  | _ => trivial

theorem Value.meets_asType {E : EvalError → Prop} (hE : ∀ e : EvalError, e.OfNode → E e)
    (v : Value) (t : Ty) : Outcome.Meets E (fun w => w = v ∧ fits t v = true) (v.asType t) := by
  rw [asType]
  split
  · exact hE _ trivial
  · split
    · rename_i h
      exact ⟨rfl, h⟩
    · exact hE _ trivial

/-- Values of the types of labels are primitive. -/
theorem Value.meets_toText {E : EvalError → Prop} {t : Ty} (h : t = .number ∨ t = .string)
    {v : Value} (hv : v.Inhabits t) : Outcome.Meets E (fun _ => True) v.toText := by
  obtain ⟨text, htext⟩ := Typing.toText_of_inhabits h hv
  rw [htext]
  trivial

namespace Expr

open Rule

variable {n : Nat} {E : EvalError → Prop} {Q : Nat → Value → Prop} {P : Value → Prop}

theorem meets_coalesceRule (hnull : P .null) (hQ : ∀ i v, Q i v → P v) {count i : Nat}
    (hn : i + count ≤ n) : (coalesceRule count i).Meets n E Q P := by
  induction count generalizing i with
  | zero => exact meets_pure hnull
  | succ count ih =>
      refine (meets_attempt (by omega)).bind fun r hr => ?_
      have hrest : i + 1 + count ≤ n := by omega
      cases r with
      | ok v =>
          dsimp only
          split
          · exact ih hrest
          · exact meets_pure (hQ i v hr)
      | error e =>
          dsimp only
          split
          · exact meets_fail hr
          · exact ih hrest

theorem meets_selectRule (hE : ∀ e : EvalError, e.OfNode → E e)
    (hQ : ∀ i v, 0 < i → Q i v → P v) {inputTy : Ty} (hty : inputTy = .number ∨ inputTy = .string)
    {table : Dict Nat} (hn : 1 < n)
    (htable : ∀ text k, table.get? text = some k → k + 2 < n) :
    (selectRule inputTy table).Meets n E Q P := by
  refine (meets_operand (Nat.lt_of_succ_lt hn)).bind fun input _ => ?_
  refine (meets_lift (input.meets_asType hE inputTy)).bind fun v hv => ?_
  obtain ⟨rfl, hfits⟩ := hv
  have hlabel := Value.inhabits_of_fits hfits
  refine (meets_lift (Value.meets_toText hty hlabel)).bind fun text _ => ?_
  split
  · rename_i k hk
    exact (meets_operand (htable text k hk)).mono fun v hv => hQ _ v (Nat.succ_pos _) hv
  · exact (meets_operand hn).mono fun v hv => hQ _ v Nat.one_pos hv

theorem meets_progress (kind : Interpolation) (input lower upper : Float) :
    (Curve.progress kind input lower upper).Meets n E Q fun _ => True := by
  cases kind with
  | cubicBezier p => exact (meets_easing p).bind fun _ _ => meets_pure trivial
  | _ => exact meets_pure trivial

theorem meets_label {labels : List Float} {i : Nat} (hi : i < labels.length) :
    (Curve.label labels i).Meets n E Q fun _ => True := by
  rw [Curve.label, List.getElem?_eq_getElem hi]
  exact meets_pure trivial

theorem meets_curveRule {interpolators : Interpolators} {t : Ty}
    (hE : ∀ e : EvalError, e.OfNode → E e) (hQ : ∀ i v, 0 < i → Q i v → P v)
    {kind : Interpolation}
    (hblend : kind.isStep = false → ∀ a b x, P a → P b →
      Outcome.Meets E P (interpolators.blend t a b x))
    {labels : List Float} (hlabels : StopsFollow none labels) (hne : labels ≠ [])
    (hn : labels.length < n) : (curveRule interpolators t kind labels).Meets n E Q P := by
  have houtput : ∀ k < labels.length, (operand (k + 1)).Meets n E Q P := fun k hk =>
    (meets_operand (by omega)).mono fun v hv => hQ _ v (Nat.succ_pos k) hv
  refine (meets_operand (Nat.zero_lt_of_lt hn)).bind fun input _ => ?_
  refine (meets_lift (input.meets_asType hE .number)).bind fun v _ => ?_
  rw [Curve.value]
  rcases Curve.locate_cases hlabels hne (v.number?.getD (0.0 / 0.0)) with
    ⟨k, hk, hplace⟩ | ⟨k, hk, hplace⟩
  · rw [hplace]
    exact houtput k hk
  · have hlower : k < labels.length := Nat.lt_of_succ_lt hk
    rw [hplace]
    dsimp only
    split
    · exact houtput k hlower
    · rename_i hstep
      refine (meets_label hlower).bind fun lower _ => (meets_label hk).bind fun upper _ => ?_
      refine (meets_progress kind _ lower upper).bind fun x _ => ?_
      refine (houtput k hlower).bind fun a ha => (houtput (k + 1) hk).bind fun b hb => ?_
      exact hblend (Bool.eq_false_iff.2 hstep) a b x ha hb

theorem meets_assertionRule (hE : ∀ e : EvalError, e.OfNode → E e) {t : Ty} (hnull : P .null)
    (hfits : ∀ v, Value.fits t v = true → P v) {count i : Nat} (hn : i + count ≤ n) :
    (assertionRule t count i).Meets n E Q P := by
  have hasType : ∀ v : Value, Outcome.Meets E P (v.asType t) := fun v =>
    (v.meets_asType hE t).mono fun w hw => by
      rw [hw.1]
      exact hfits v hw.2
  induction count generalizing i with
  | zero => exact meets_pure hnull
  | succ count ih =>
      have hi : i < n := by omega
      cases count with
      | zero => exact (meets_operand hi).bind fun v _ => meets_lift (hasType v)
      | succ count =>
          refine (meets_operand hi).bind fun v _ => ?_
          have hv := hasType v
          split
          · rename_i w heq
            rw [heq] at hv
            exact meets_pure hv
          · exact ih (by omega)

end Expr
end MapStyle

/-
# `MapStyle.Proofs.Curve.Reading` — a curve read stop by stop

A curve finds its place among the stops by halving.  Here it is shown to read what a reader reads
who goes through the labels one after the other (`Curve.value_of_ascending`): the output at the
nearer end outside of the labels, and otherwise the outputs of the last label at or below the input
and of the label after it, blended in between.  All that is asked of the labels is that they
strictly ascend.  They may be infinite, and a single one may be anything; so may the input.

A curve asks for nothing else (`Curve.stopsRead`), so what any other output comes to, an error
included, makes no difference (`Curve.value_congr`).
-/
import MapStyle.Proofs.Eval.Outcomes

namespace MapStyle.Curve

variable {labels : List Float} {kind : Interpolation} {input : Float}

/-! ## What a curve asks for -/

/-- The stops whose outputs a curve asks for, in order. -/
def stopsRead (labels : List Float) (kind : Interpolation) (input : Float) : List Nat :=
  match locate labels input with
  | .nowhere => []
  | .at i => [i]
  | .after i => if kind.isStep then [i] else [i, i + 1]

theorem value_congr (r : Interpolators) (ty : Ty) {output output' : Nat → Rule Value}
    (h : ∀ i ∈ stopsRead labels kind input, output i = output' i) :
    value r labels kind ty output input = value r labels kind ty output' input := by
  rw [stopsRead] at h
  rw [value, value]
  cases hplace : locate labels input with
  | nowhere => rfl
  | «at» i =>
      rw [hplace] at h
      exact h i (List.mem_singleton_self i)
  | after i =>
      rw [hplace] at h
      dsimp only at h ⊢
      cases hstep : kind.isStep with
      | true =>
          rw [hstep] at h
          exact h i (List.mem_singleton_self i)
      | false =>
          rw [hstep] at h
          have hlower : output i = output' i := h i List.mem_cons_self
          have hupper : output (i + 1) = output' (i + 1) :=
            h (i + 1) (List.mem_cons_of_mem _ (List.mem_singleton_self _))
          rw [hlower, hupper]

theorem value_of_at (kind : Interpolation) {i : Nat} (hplace : locate labels input = .at i) :
    stopsRead labels kind input = [i] ∧ ∀ (r : Interpolators) ty output,
      value r labels kind ty output input = output i := by
  refine ⟨by rw [stopsRead, hplace], fun r ty output => ?_⟩
  rw [value, hplace]

/-! ## Between two stops -/

/-- The blend fraction, with the easing of given control points at hand. -/
def fractionAt (kind : Interpolation) (input lower upper : Float) : Float :=
  match kind with
  | .step => fraction input 1 lower upper
  | .linear => fraction input 1 lower upper
  | .exponential base => fraction input base lower upper
  | .cubicBezier points => (Easing.ofPoints points).apply (fraction input 1 lower upper)

theorem answer_progress (kind : Interpolation) (input lower upper : Float)
    (operands : List (Outcome Value)) :
    (progress kind input lower upper).answer operands =
      .ok (fractionAt kind input lower upper) := by
  cases kind <;> rfl

/-- The blend of two outputs, the first error of which counts. -/
def blended (r : Interpolators) (kind : Interpolation) (ty : Ty) (input lower upper : Float)
    (first second : Rule Value) : Rule Value := do
  let t ← progress kind input lower upper
  let a ← first
  let b ← second
  Rule.done (r.blend ty a b t)

theorem answer_blended (r : Interpolators) (kind : Interpolation) (ty : Ty)
    (input lower upper : Float) (first second : Rule Value) (operands : List (Outcome Value)) :
    (blended r kind ty input lower upper first second).answer operands =
      first.answer operands >>= fun a => second.answer operands >>= fun b =>
        r.blend ty a b (fractionAt kind input lower upper) := by
  simp only [blended, Rule.answer_bind, answer_progress, Outcome.ok_bind]
  rfl

theorem value_of_after_step {k : Nat} (hplace : locate labels input = .after k)
    (hstep : kind.isStep = true) :
    stopsRead labels kind input = [k] ∧ ∀ (r : Interpolators) ty output,
      value r labels kind ty output input = output k := by
  refine ⟨by rw [stopsRead, hplace]; exact if_pos hstep, fun r ty output => ?_⟩
  rw [value, hplace]
  exact if_pos hstep

theorem value_of_after {k : Nat} {lower upper : Float} (hplace : locate labels input = .after k)
    (hlower : labels[k]? = some lower) (hupper : labels[k + 1]? = some upper)
    (hstep : kind.isStep = false) :
    stopsRead labels kind input = [k, k + 1] ∧ ∀ (r : Interpolators) ty output,
      value r labels kind ty output input =
        blended r kind ty input lower upper (output k) (output (k + 1)) := by
  have hblends : ¬ kind.isStep = true := by simp [hstep]
  refine ⟨by rw [stopsRead, hplace]; exact if_neg hblends, fun r ty output => ?_⟩
  rw [value, hplace]
  dsimp only
  rw [if_neg hblends, label, label, hlower, hupper]
  rfl

/-! ## Any input -/

/-- A curve with strictly ascending labels reads them like a reader who goes through them one by
one.  With one label, or at or below the first one, it is the first output, at or above the last
label it is the last output.  Otherwise it is what is at the last label at or below the input, for
NaN at the first label: its output, if the curve does not blend, or else the blend of this output
and of the next one at the fraction between their labels, or the first error of the two.  No other
output makes a difference. -/
theorem value_of_ascending (hne : labels ≠ []) (h : labels.Pairwise (· < ·)) (r : Interpolators)
    (kind : Interpolation) (ty : Ty) (input : Float) :
    (labels.length = 1 ∨ input ≤ labels.head hne →
      stopsRead labels kind input = [0] ∧
        ∀ output, value r labels kind ty output input = output 0) ∧
    (labels.getLast hne ≤ input →
      stopsRead labels kind input = [labels.length - 1] ∧
        ∀ output, value r labels kind ty output input = output (labels.length - 1)) ∧
    (labels.length ≠ 1 → ¬ input ≤ labels.head hne → ¬ labels.getLast hne ≤ input →
      ∃ k lower upper, LastAtMost labels input k ∧
        labels[k]? = some lower ∧ labels[k + 1]? = some upper ∧
        (kind.isStep = true → stopsRead labels kind input = [k] ∧
          ∀ output, value r labels kind ty output input = output k) ∧
        (kind.isStep = false → stopsRead labels kind input = [k, k + 1] ∧
          ∀ output, value r labels kind ty output input =
              blended r kind ty input lower upper (output k) (output (k + 1)) ∧
            ∀ operands, (value r labels kind ty output input).answer operands =
              (output k).answer operands >>= fun a =>
                (output (k + 1)).answer operands >>= fun b =>
                  r.blend ty a b (fractionAt kind input lower upper))) ∧
    ∀ output output', (∀ i ∈ stopsRead labels kind input, output i = output' i) →
      value r labels kind ty output input = value r labels kind ty output' input := by
  refine ⟨fun hlow => ?_, fun hhigh => ?_, fun hone hlow hhigh => ?_, fun output output' hsame =>
    value_congr r ty hsame⟩
  · obtain ⟨hread, hvalue⟩ := value_of_at kind (locate_of_le hne hlow)
    exact ⟨hread, hvalue r ty⟩
  · obtain ⟨hread, hvalue⟩ := value_of_at kind (locate_of_ge h hne hhigh)
    exact ⟨hread, hvalue r ty⟩
  · have hplace : locate labels input = .after (stopIndex labels input) := by
      rw [locate_eq_ite hne, if_neg (not_or.2 ⟨hone, hlow⟩), if_neg hhigh]
    obtain ⟨hk, hlast⟩ := lastAtMost_stopIndex h hne hone hlow hhigh
    have hlower := List.getElem?_eq_getElem (Nat.lt_of_succ_lt hk)
    have hupper := List.getElem?_eq_getElem hk
    refine ⟨_, _, _, hlast, hlower, hupper, fun hstep => ?_, fun hstep => ?_⟩
    · obtain ⟨hread, hvalue⟩ := value_of_after_step hplace hstep
      exact ⟨hread, hvalue r ty⟩
    · obtain ⟨hread, hvalue⟩ := value_of_after hplace hlower hupper hstep
      refine ⟨hread, fun output => ⟨hvalue r ty output, fun operands => ?_⟩⟩
      rw [hvalue, answer_blended]

/-- Half way between the last two of three stops, the first one is not read. -/
theorem value_lastTwoOfThree :
    stopsRead [0, 10, 20] .linear 15 = [1, 2] ∧ ∀ output operands,
      (value .standard [0, 10, 20] .linear .number output 15).answer operands =
        (output 1).answer operands >>= fun a => (output 2).answer operands >>= fun b =>
          Interpolators.standard.blend .number a b (fraction 15 1 10 20) := by
  have hne : ([0, 10, 20] : List Float) ≠ [] := List.cons_ne_nil _ _
  have hascending : ([0, 10, 20] : List Float).Pairwise (· < ·) := by decide +kernel
  have hlow : ¬ (15 : Float) ≤ 0 := by decide +kernel
  have hhigh : ¬ (20 : Float) ≤ 15 := by decide +kernel
  obtain ⟨_, _, hbetween, _⟩ := value_of_ascending hne hascending .standard .linear .number 15
  obtain ⟨k, lower, upper, hlast, hlower, hupper, _, hblends⟩ :=
    hbetween (by decide) hlow hhigh
  have hk : k = 1 := by
    have hlt : k + 1 < 3 := (List.getElem?_eq_some_iff.1 hupper).1
    rcases hlast with ⟨_, _, _, hmax⟩ | ⟨hnan, _⟩
    · have hle : 1 ≤ k := hmax 1 10 rfl (by decide +kernel)
      omega
    · exact absurd hnan (by decide +kernel)
  subst hk
  cases hlower
  cases hupper
  obtain ⟨hread, hvalue⟩ := hblends rfl
  exact ⟨hread, fun output => (hvalue output).2⟩

end MapStyle.Curve

/-
# `MapStyle.Proofs.Curve.Fractions` — how far an input lies between two labels, exactly

Between two stops a curve blends at `(base ^ (x - lower) - 1) / (base ^ (upper - lower) - 1)`, or
at the linear fraction where the base is 1.  Here the doubles are read as the real numbers that they
stand for, and an operation is undefined where it has no real result, so that a division by zero is
not lost.

Whatever the labels, the fraction is a number from 0 to 1 as long as the base is not negative
(`Exact.IsProper.of_nonneg`): 0 and 1 are no exceptions, and a base below 1 turns both differences
around.  But checking takes any number for a base, and a negative one is never right: between labels
an even distance apart, no input an odd distance above the lower one has a fraction from 0 to 1
(`Exact.not_isProper_of_neg`), and for base -1 the division there is by zero.  `fraction_of_curve`
says both of all curves that check, and that it is this fraction that they blend at.
-/
import Mathlib.Analysis.SpecialFunctions.Pow.Real
import MapStyle.Proofs.Color.Css
import MapStyle.Proofs.Curve.Reading

namespace MapStyle

/-! ## Exact numbers -/

/-- A real number, or no number where an operation is undefined. -/
inductive Exact where
  | number (x : ℝ)
  | undefined

namespace Exact

noncomputable instance : Sub Exact where
  sub
    | number x, number y => number (x - y)
    | _, _ => undefined

open Classical in
noncomputable instance : Div Exact where
  div
    | number x, number y => if y = 0 then undefined else number (x / y)
    | _, _ => undefined

open Classical in
noncomputable instance : BEq Exact where
  beq
    | number x, number y => decide (x = y)
    | _, _ => false

instance : OfNat Exact 0 := ⟨number 0⟩

instance : OfNat Exact 1 := ⟨number 1⟩

/-- A power of real numbers is defined for a positive base, for base 0 unless the exponent is
negative, and for a negative base where the exponent is whole: differences of doubles have powers of
two as denominators, so odd roots do not come up. -/
def HasPower (base exponent : ℝ) : Prop :=
  0 < base ∨ (base = 0 ∧ 0 ≤ exponent) ∨ (base < 0 ∧ ∃ n : ℤ, exponent = n)

open Classical in
/-- The power, where it is defined. -/
noncomputable def power : Exact → Exact → Exact
  | number base, number exponent =>
    if HasPower base exponent then number (base ^ exponent) else undefined
  | _, _ => undefined

/-- The number that a double stands for; infinities and NaN stand for none. -/
noncomputable def ofFloat (x : Float) : Exact :=
  match Binary.ofFloat? x with
  | some b => number b.value
  | none => undefined

/-- How far an input lies between two labels, by the same rule as with doubles, but without any
rounding. -/
noncomputable def fraction (input base lower upper : Float) : Exact :=
  blendFraction power (ofFloat input) (ofFloat base) (ofFloat lower) (ofFloat upper)

def IsProper (t : Exact) : Prop := ∃ x : ℝ, t = number x ∧ 0 ≤ x ∧ x ≤ 1

theorem number_sub (x y : ℝ) : number x - number y = number (x - y) := rfl

theorem number_sub_one (x : ℝ) : number x - 1 = number (x - 1) := rfl

theorem number_div {x y : ℝ} (hy : y ≠ 0) : number x / number y = number (x / y) := if_neg hy

theorem number_div_zero (x : ℝ) : number x / number 0 = undefined := if_pos rfl

theorem number_beq_zero {x : ℝ} (hx : x ≠ 0) : (number x == 0) = false := decide_eq_false hx

theorem number_beq_one (x : ℝ) : (number x == 1) = true ↔ x = 1 := decide_eq_true_iff

theorem power_number {base exponent : ℝ} (h : HasPower base exponent) :
    power (number base) (number exponent) = number (base ^ exponent) := if_pos h

theorem ofFloat_of_denotes {x : Float} {q : ℚ} (h : Denotes x q) : ofFloat x = number q := by
  obtain ⟨b, hb, rfl⟩ := h
  rw [ofFloat, hb]

theorem isProper_number {x : ℝ} : IsProper (number x) ↔ 0 ≤ x ∧ x ≤ 1 :=
  ⟨fun ⟨_, hx, h⟩ => number.inj hx ▸ h, fun h => ⟨x, rfl, h⟩⟩

theorem not_isProper_undefined : ¬ IsProper undefined := fun ⟨_, h, _⟩ => nomatch h

/-! ## The fraction of two powers -/

section Powers

variable {u v base progress difference : ℝ}

theorem proper_of_ascent (hu : 1 ≤ u) (huv : u ≤ v) :
    0 ≤ (u - 1) / (v - 1) ∧ (u - 1) / (v - 1) ≤ 1 := by
  have hv : 0 ≤ v - 1 := by linarith
  exact ⟨div_nonneg (by linarith) hv, div_le_one_of_le₀ (by linarith) hv⟩

theorem proper_of_descent (hu : u ≤ 1) (hvu : v ≤ u) :
    0 ≤ (u - 1) / (v - 1) ∧ (u - 1) / (v - 1) ≤ 1 := by
  have hv : v - 1 ≤ 0 := by linarith
  exact ⟨div_nonneg_of_nonpos (by linarith) hv, div_le_one_of_ge (by linarith) hv⟩

/-- Below 0, that is on the other side of 1 than `v` or farther away than it. -/
theorem not_proper_of_neg (hu : u < 0) (hv : 0 < v) (hne : v ≠ 1) :
    ¬ (0 ≤ (u - 1) / (v - 1) ∧ (u - 1) / (v - 1) ≤ 1) := by
  rintro ⟨hnonneg, hle⟩
  rcases lt_or_gt_of_ne hne with hlt | hgt
  · have := (div_le_one_of_neg (by linarith : v - 1 < 0)).1 hle
    linarith
  · have : (u - 1) / (v - 1) < 0 := div_neg_of_neg_of_pos (by linarith) (by linarith)
    linarith

theorem hasPower_of_nonneg (hbase : 0 ≤ base) (hprogress : 0 ≤ progress) :
    HasPower base progress := by
  rcases hbase.lt_or_eq with hpos | rfl
  · exact .inl hpos
  · exact .inr (.inl ⟨rfl, hprogress⟩)

/-- The powers of a base other than 1 go away from 1, and never come back. -/
theorem powers_of_nonneg (hbase : 0 ≤ base) (hne : base ≠ 1) (hprogress : 0 ≤ progress)
    (hlt : progress < difference) :
    base ^ difference ≠ 1 ∧
      0 ≤ (base ^ progress - 1) / (base ^ difference - 1) ∧
      (base ^ progress - 1) / (base ^ difference - 1) ≤ 1 := by
  have hdifference : 0 < difference := hprogress.trans_lt hlt
  rcases lt_or_gt_of_ne hne with hbelow | habove
  · refine ⟨(Real.rpow_lt_one hbase hbelow hdifference).ne, proper_of_descent ?_ ?_⟩
    · exact Real.rpow_le_one hbase hbelow.le hprogress
    · exact Real.rpow_le_rpow_of_exponent_ge_of_imp hbase hbelow.le hlt.le
        fun _ h => absurd h hdifference.ne'
  · refine ⟨(Real.one_lt_rpow habove hdifference).ne', proper_of_ascent ?_ ?_⟩
    · exact Real.one_le_rpow habove.le hprogress
    · exact Real.rpow_le_rpow_of_exponent_le habove.le hlt.le

theorem power_of_neg (hbase : base < 0) (k : ℤ) :
    power (number base) (number k) = number (base ^ k) := by
  rw [power_number (.inr (.inr ⟨hbase, k, rfl⟩)), Real.rpow_intCast]

/-! ## The blend of exact numbers -/

/-- Apart from labels that are equal, there are the linear fraction and that of the powers. -/
theorem blendFraction_number {input lower upper : ℝ} (hne : upper - lower ≠ 0) :
    blendFraction power (number input) (number base) (number lower) (number upper) =
      if base = 1 then number ((input - lower) / (upper - lower))
      else (power (number base) (number (input - lower)) - 1) /
        (power (number base) (number (upper - lower)) - 1) := by
  rw [blendFraction]
  simp only [number_sub, number_beq_zero hne, number_beq_one, number_div hne]
  exact if_neg Bool.false_ne_true

/-- With a base that is not negative, every input between two labels has a fraction from 0 to 1. -/
theorem IsProper.of_nonneg {input lower upper : ℝ} (hbase : 0 ≤ base) (hlower : lower ≤ input)
    (hupper : input < upper) :
    IsProper (blendFraction power (number input) (number base) (number lower) (number upper)) := by
  have hprogress : 0 ≤ input - lower := by linarith
  have hlt : input - lower < upper - lower := by linarith
  have hdifference : 0 < upper - lower := by linarith
  rw [blendFraction_number hdifference.ne']
  split
  · exact isProper_number.2
      ⟨div_nonneg hprogress hdifference.le, div_le_one_of_le₀ hlt.le hdifference.le⟩
  · rename_i hne
    obtain ⟨hpower, hproper⟩ := powers_of_nonneg hbase hne hprogress hlt
    rw [power_number (hasPower_of_nonneg hbase hprogress),
      power_number (hasPower_of_nonneg hbase hdifference.le), number_sub_one, number_sub_one,
      number_div (sub_ne_zero.2 hpower)]
    exact isProper_number.2 hproper

/-- With a negative base there is no such fraction at an odd distance above the lower label, where
the labels are an even distance apart: of the two powers the first one is negative, the second one
positive. -/
theorem not_isProper_of_neg {input lower upper : ℝ} (hbase : base < 0) (hlt : lower < upper)
    {m n : ℤ} (hm : Odd m) (hn : Even n) (hprogress : input - lower = m)
    (hdifference : upper - lower = n) :
    ¬ IsProper (blendFraction power (number input) (number base) (number lower)
      (number upper)) := by
  have hbelow : base ^ m < 0 := hm.zpow_neg_iff.2 hbase
  have habove : 0 < base ^ n := hn.zpow_pos hbase.ne
  rw [blendFraction_number (sub_ne_zero.2 hlt.ne'), if_neg (by linarith), hprogress, hdifference,
    power_of_neg hbase, power_of_neg hbase, number_sub_one, number_sub_one]
  by_cases hone : base ^ n = 1
  · rw [hone, sub_self, number_div_zero]
    exact not_isProper_undefined
  · rw [number_div (sub_ne_zero.2 hone)]
    exact fun h => not_proper_of_neg hbelow habove hone (isProper_number.1 h)

end Powers

end Exact

/-! ## Curves that check -/

/-- The base of the fraction between two labels; an easing starts from the linear one. -/
def Interpolation.base : Interpolation → Float
  | .exponential base => base
  | _ => 1

theorem Interpolation.WellFormed.isFinite_base {kind : Interpolation} (h : kind.WellFormed) :
    kind.base.isFinite = true := by
  cases kind with
  | exponential base => exact h
  | step => exact denotes_one.isFinite
  | linear => exact denotes_one.isFinite
  | cubicBezier p => exact denotes_one.isFinite

/-- Where a curve blends, given the fraction between two labels: an easing turns it into another
one. -/
def Interpolation.ease : Interpolation → Float → Rule Float
  | .cubicBezier points, t => do
    let easing ← Rule.easing points
    pure (easing.apply t)
  | _, t => pure t

theorem Curve.progress_eq (kind : Interpolation) (input lower upper : Float) :
    progress kind input lower upper = kind.ease (fraction input kind.base lower upper) := by
  cases kind <;> rfl

open Reporting Typing

/-- Whatever curve checks, and whatever input lies between two of its labels: the curve blends at
their fraction, eased if it has an easing.  Unless the base is negative, the exact fraction is a
number from 0 to 1.  A negative base checks all the same, and has no such fraction at an odd distance
above the lower label where the labels are an even distance apart. -/
theorem fraction_of_curve {js : List Json} {ctx : Context} {path : Path} {ty : Ty}
    {kind : Interpolation} {e : Expr} {labels : List Float} {outputs : List Expr}
    (h : Clean (curve (js.map argOf) ctx) (some (.curve path ty kind e labels outputs))) :
    ∀ lower ∈ labels, ∀ upper ∈ labels, ∀ x : Float, lower ≤ x → x < upper →
      Curve.progress kind x lower upper = kind.ease (fraction x kind.base lower upper) ∧
      (0 ≤ kind.base → (Exact.fraction x kind.base lower upper).IsProper) ∧
      (kind.base < 0 → ∀ m n : ℤ, Odd m → Even n →
        Exact.ofFloat x - Exact.ofFloat lower = .number m →
        Exact.ofFloat upper - Exact.ofFloat lower = .number n →
        ¬ (Exact.fraction x kind.base lower upper).IsProper) := by
  intro lower hlower upper hupper x hle hlt
  refine ⟨Curve.progress_eq kind x lower upper, ?_⟩
  obtain ⟨_, _, _, _, _, hlabels, hkind, _⟩ :=
    curve_forms js ctx _ (fun j _ => Elaborates.formed j) h
  have hlowerFinite := hlabels.isFinite lower hlower
  have hupperFinite := hlabels.isFinite upper hupper
  obtain ⟨b, hb⟩ := Denotes.of_isFinite hkind.isFinite_base
  obtain ⟨l, hl⟩ := Denotes.of_isFinite hlowerFinite
  obtain ⟨u, hu⟩ := Denotes.of_isFinite hupperFinite
  obtain ⟨q, hq⟩ :=
    Denotes.of_isFinite (Float.isFinite_of_between hlowerFinite hupperFinite hle hlt)
  have hlq : (l : ℝ) ≤ q := by exact_mod_cast (hl.le_iff hq).1 hle
  have hqu : (q : ℝ) < u := by exact_mod_cast (hq.lt_iff hu).1 hlt
  rw [Exact.fraction, Exact.ofFloat_of_denotes hb, Exact.ofFloat_of_denotes hl,
    Exact.ofFloat_of_denotes hu, Exact.ofFloat_of_denotes hq]
  constructor
  · intro hbase
    have hnonneg : (0 : ℝ) ≤ b := by exact_mod_cast (denotes_zero_literal.le_iff hb).1 hbase
    exact .of_nonneg hnonneg hlq hqu
  · intro hbase m n hm hn hprogress hdifference
    have hneg : (b : ℝ) < 0 := by exact_mod_cast (hb.lt_iff denotes_zero_literal).1 hbase
    exact Exact.not_isProper_of_neg hneg (hlq.trans_lt hqu) hm hn
      (Exact.number.inj hprogress) (Exact.number.inj hdifference)

/-- A width that doubles with every level between the zoom levels 5 and 15. -/
theorem fraction_doubling :
    let js : List Json := [.call "exponential" [.ofNat 2], .call "zoom" [], .ofNat 5, .ofNat 1,
      .ofNat 15, .ofNat 8]
    ∃ e outputs, Clean (curve (js.map argOf) (.root none .standard))
        (some (.curve [] .number (.exponential 2) e [5, 15] outputs)) ∧
      ∀ x : Float, 5 ≤ x → x < 15 →
        Curve.progress (.exponential 2) x 5 15 = pure (fraction x 2 5 15) ∧
          (Exact.fraction x 2 5 15).IsProper := by
  intro js
  obtain ⟨e, outputs, h⟩ : ∃ e outputs, Clean (curve (js.map argOf) (.root none .standard))
      (some (.curve [] .number (.exponential 2) e [5, 15] outputs)) := ⟨_, _, rfl⟩
  refine ⟨e, outputs, h, fun x hle hlt => ?_⟩
  have hbase : (0 : Float) ≤ 2 := (denotes_zero_literal.le_iff denotes_two).2 zero_le_two
  obtain ⟨hprogress, hproper, _⟩ := fraction_of_curve h 5 (by simp) 15 (by simp) x hle hlt
  exact ⟨hprogress, hproper hbase⟩

/-- Base -1 between the zoom levels 0 and 2 divides by zero at zoom level 1. -/
theorem fraction_alternating :
    let js : List Json := [.call "exponential" [.ofFloat (-1)], .call "zoom" [], .ofNat 0,
      .ofNat 0, .ofNat 2, .ofNat 0]
    (∃ e outputs, Clean (curve (js.map argOf) (.root none .standard))
        (some (.curve [] .number (.exponential (-1)) e [0, 2] outputs))) ∧
      (0 : Float) ≤ 1 ∧ (1 : Float) < 2 ∧ Exact.fraction 1 (-1) 0 2 = .undefined := by
  have hbase : Denotes (-1) (-1) :=
    ⟨⟨true, 2 ^ 52, -52⟩, by decide, by norm_num [Binary.value]⟩
  refine ⟨⟨_, _, rfl⟩, (denotes_zero_literal.le_iff denotes_one).2 zero_le_one,
    (denotes_one.lt_iff denotes_two).2 one_lt_two, ?_⟩
  rw [Exact.fraction, Exact.ofFloat_of_denotes hbase, Exact.ofFloat_of_denotes denotes_zero_literal,
    Exact.ofFloat_of_denotes denotes_one, Exact.ofFloat_of_denotes denotes_two]
  have hprogress : ((1 : ℚ) : ℝ) - (0 : ℚ) = (1 : ℤ) := by norm_num
  have hdifference : ((2 : ℚ) : ℝ) - (0 : ℚ) = (2 : ℤ) := by norm_num
  have hsquare : ((-1 : ℚ) : ℝ) ^ (2 : ℤ) - 1 = 0 := by norm_num
  rw [Exact.blendFraction_number (by norm_num), if_neg (by norm_num), hprogress, hdifference,
    Exact.power_of_neg (by norm_num), Exact.power_of_neg (by norm_num), Exact.number_sub_one,
    Exact.number_sub_one, hsquare]
  exact Exact.number_div_zero _

end MapStyle

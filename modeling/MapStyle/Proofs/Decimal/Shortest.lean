/-
# `MapStyle.Proofs.Decimal.Shortest` — the texts of whole doubles

Labels are compared by their texts.  A whole double of at most 53 bits is written with all of its
digits, as the integer that it is, and no other double is written like that
(`numberText_eq_toString`).  So the text of such a label is met by the doubles that equal it.

The digits of a double lie in the interval of the reals that round to it, whichever grid they were
found on, and at one of its ends only where a tie goes to the double (`Digits.inside_shortest`).  At
a whole double of at most 53 bits that interval is too narrow for a second whole number, and no
other double has the number in its interval.
-/
import MapStyle.Proofs.Decimal.Order
import MapStyle.Proofs.Decimal.Whole
import MapStyle.Decimal.Layout

namespace MapStyle

/-! ## Intervals -/

namespace Digits

/-- The number that digits stand for. -/
def value (d : Digits) : ℚ := d.digits * 10 ^ d.exponent

/-- A number lies between the ends of an interval, whose unit is `2 ^ quarter`. -/
def Interval.Contains (i : Interval) (quarter : ℤ) (v : ℚ) : Prop :=
  i.least * 2 ^ quarter ≤ v ∧ v ≤ i.greatest * 2 ^ quarter

/-- A power with a natural exponent next to the integer one that it stands for. -/
theorem pow_toNat {b : ℚ} (hb : b ≠ 0) (z : ℤ) : b ^ z.toNat = b ^ z * b ^ (-z).toNat := by
  obtain ⟨n, rfl | rfl⟩ := z.eq_nat_or_neg
  · simp
  · simp [hb]

/-- A number lies in an interval, at one of the ends only where these are included. -/
structure Interval.Inside (i : Interval) (quarter : ℤ) (v : ℚ) : Prop where
  contains : i.Contains quarter v
  least : v = i.least * 2 ^ quarter → i.closed = true
  greatest : v = i.greatest * 2 ^ quarter → i.closed = true

/-- A point of a grid is compared with the ends of an interval as naturals: both times one positive
number. -/
theorem exists_scale (quarter grid : ℤ) (n : ℕ) : ∃ c : ℚ, 0 < c ∧
    (∀ k : ℕ, ((k * (2 ^ quarter.toNat * 10 ^ (-grid).toNat) : ℕ) : ℚ) = k * 2 ^ quarter * c) ∧
    ((n * (10 ^ grid.toNat * 2 ^ (-quarter).toNat) : ℕ) : ℚ) = value ⟨n, grid⟩ * c := by
  refine ⟨2 ^ (-quarter).toNat * 10 ^ (-grid).toNat, by positivity, fun k => ?_, ?_⟩
  · push_cast
    rw [pow_toNat (by norm_num) quarter]
    ring
  · push_cast
    rw [pow_toNat (by norm_num) grid, value]
    ring

theorem inside_of_holds {i : Interval} {quarter grid : ℤ} {n : ℕ}
    (h : i.holds (2 ^ quarter.toNat * 10 ^ (-grid).toNat)
      (n * (10 ^ grid.toNat * 2 ^ (-quarter).toNat)) = true) :
    i.Inside quarter (value ⟨n, grid⟩) := by
  obtain ⟨c, hc, hend, hpoint⟩ := exists_scale quarter grid n
  rw [Interval.holds] at h
  split at h
  · rename_i hclosed
    simp only [Bool.and_eq_true, decide_eq_true_eq] at h
    rw [← Nat.cast_le (α := ℚ), ← Nat.cast_le (α := ℚ), hend, hend, hpoint,
      mul_le_mul_iff_left₀ hc, mul_le_mul_iff_left₀ hc] at h
    exact ⟨h, fun _ => hclosed, fun _ => hclosed⟩
  · simp only [Bool.and_eq_true, decide_eq_true_eq] at h
    rw [← Nat.cast_lt (α := ℚ), ← Nat.cast_lt (α := ℚ), hend, hend, hpoint,
      mul_lt_mul_iff_left₀ hc, mul_lt_mul_iff_left₀ hc] at h
    exact ⟨⟨h.1.le, h.2.le⟩, fun heq => absurd heq h.1.ne', fun heq => absurd heq h.2.ne⟩

theorem inside_of_onGrid {tie : Tie} {i : Interval} {quarter grid : ℤ} {n : ℕ}
    (h : onGrid tie i quarter grid = some n) : i.Inside quarter (value ⟨n, grid⟩) := by
  simp only [onGrid, Nat.pow_eq] at h
  refine inside_of_holds ?_
  split at h
  · rename_i hlower _
    cases h
    exact hlower
  · rename_i _ hupper
    cases h
    exact hupper
  · cases h
  · rename_i hlower hupper
    split at h
    · cases h
      exact hlower
    · split at h
      · cases h
        exact hupper
      · cases tie with
        | up =>
            cases h
            exact hupper
        | even =>
            cases h
            split
            · exact hlower
            · exact hupper

theorem inside_of_firstGrid {tie : Tie} {i : Interval} {quarter grid : ℤ} {fuel : ℕ} {d : Digits}
    (h : firstGrid tie i quarter fuel grid = some d) : i.Inside quarter d.value := by
  induction fuel generalizing grid with
  | zero => cases h
  | succ fuel ih =>
      rw [firstGrid] at h
      split at h
      · rename_i n hn
        cases h
        exact inside_of_onGrid hn
      · exact ih h

/-- Where whole numbers suffice, the digits are those of a whole number. -/
theorem firstGrid_of_whole {tie : Tie} {i : Interval} {quarter grid : ℤ} {fuel : ℕ}
    (hwhole : onGrid tie i quarter 0 ≠ none) (hgrid : 0 ≤ grid) (hfuel : grid < fuel) :
    ∃ d, firstGrid tie i quarter fuel grid = some d ∧ 0 ≤ d.exponent := by
  induction fuel generalizing grid with
  | zero => omega
  | succ fuel ih =>
      rw [firstGrid]
      split
      · exact ⟨_, rfl, hgrid⟩
      · rename_i hnone
        have hne : grid ≠ 0 := by
          rintro rfl
          exact hwhole hnone
        exact ih (by omega) (by omega)

/-! ## Digits of a double -/

theorem value_strip (fuel : ℕ) (d : Digits) : (strip fuel d).value = d.value := by
  induction fuel generalizing d with
  | zero => rfl
  | succ fuel ih =>
      rw [strip]
      split
      · rename_i hzero
        rw [ih, value, value, zpow_add₀ (by norm_num), zpow_one]
        have hdigits : d.digits = d.digits / 10 * 10 := by omega
        rw [hdigits, Nat.mul_div_cancel _ (by norm_num)]
        push_cast
        ring
      · rfl

theorem exponent_le_strip (fuel : ℕ) (d : Digits) : d.exponent ≤ (strip fuel d).exponent := by
  induction fuel generalizing d with
  | zero => exact le_rfl
  | succ fuel ih =>
      rw [strip]
      split
      · exact le_trans (by simp) (ih _)
      · exact le_rfl

theorem value_exact (mantissa : ℕ) (exponent : ℤ) :
    (exact mantissa exponent).value = mantissa * 2 ^ exponent := by
  obtain ⟨n, rfl | rfl⟩ := exponent.eq_nat_or_neg
  · simp [exact, value]
  · rw [exact, value]
    simp only [Nat.pow_eq, Int.toNat_neg_natCast, pow_zero, mul_one, neg_neg, Int.toNat_natCast]
    rw [min_eq_left (by simp)]
    push_cast
    rw [zpow_neg, zpow_neg, zpow_natCast, zpow_natCast, show (10 : ℚ) = 5 * 2 by norm_num, mul_pow]
    field_simp

theorem inside_value (mantissa : ℕ) (exponent : ℤ) :
    (Interval.ofBinary mantissa exponent).Inside (exponent - 2) (mantissa * 2 ^ exponent) := by
  have hunit : (mantissa : ℚ) * 2 ^ exponent = ((4 * mantissa : ℕ) : ℚ) * 2 ^ (exponent - 2) := by
    rw [zpow_sub₀ (by norm_num)]
    push_cast
    ring
  have hpos : (0 : ℚ) < 2 ^ (exponent - 2) := by positivity
  have hleast : (Interval.ofBinary mantissa exponent).least ≤ 4 * mantissa := by
    rw [Interval.ofBinary]
    dsimp only
    split <;> omega
  have hgreatest : (Interval.ofBinary mantissa exponent).greatest = 4 * mantissa + 2 := rfl
  rw [hunit]
  refine ⟨⟨?_, ?_⟩, fun heq => ?_, fun heq => ?_⟩
  · exact mul_le_mul_of_nonneg_right (by exact_mod_cast hleast) hpos.le
  · exact mul_le_mul_of_nonneg_right (by exact_mod_cast (by omega)) hpos.le
  · -- only zero is the lower end of its own interval, and zero is even
    have heq : 4 * mantissa = (Interval.ofBinary mantissa exponent).least := by
      exact_mod_cast mul_right_cancel₀ hpos.ne' heq
    have hzero : mantissa = 0 := by
      rw [Interval.ofBinary] at heq
      dsimp only at heq
      split at heq <;> omega
    rw [hzero]
    rfl
  · have heq : 4 * mantissa = (Interval.ofBinary mantissa exponent).greatest := by
      exact_mod_cast mul_right_cancel₀ hpos.ne' heq
    omega

theorem inside_shortest (tie : Tie) (mantissa : ℕ) (exponent : ℤ) :
    (Interval.ofBinary mantissa exponent).Inside (exponent - 2)
      (shortest tie mantissa exponent).value := by
  simp only [shortest, value_strip]
  cases hfound : firstGrid tie (Interval.ofBinary mantissa exponent) (exponent - 2) 20
      (coarsest mantissa exponent) with
  | none =>
      rw [Option.getD_none, value_exact]
      exact inside_value mantissa exponent
  | some d => exact inside_of_firstGrid hfound

theorem contains_shortest (tie : Tie) (mantissa : ℕ) (exponent : ℤ) :
    (Interval.ofBinary mantissa exponent).Contains (exponent - 2)
      (shortest tie mantissa exponent).value :=
  (inside_shortest tie mantissa exponent).contains

end Digits

/-! ## Exact forms -/

namespace Binary

/-- The mantissa of a double has 53 bits, or fewer at the least exponent. -/
structure Normal (mantissa : ℕ) (exponent : ℤ) : Prop where
  least : leastExponent ≤ exponent
  lt : mantissa < 2 ^ 53
  full : exponent = leastExponent ∨ 2 ^ 52 ≤ mantissa

theorem normal_of_ofFloat? {x : Float} {b : Binary} (h : ofFloat? x = some b) :
    Normal b.mantissa b.exponent := by
  obtain ⟨bits, _, _, hb⟩ := eq_withSign h
  rw [hb, ofMagnitude]
  split
  · refine ⟨le_rfl, ?_, .inl rfl⟩
    dsimp only
    omega
  · refine ⟨?_, ?_, .inr ?_⟩
    · simp only [leastExponent]
      omega
    · dsimp only
      omega
    · dsimp only
      omega

theorem log2_mul_two_pow {n : ℕ} (hn : n ≠ 0) (k : ℕ) : (n * 2 ^ k).log2 = n.log2 + k := by
  rw [Nat.log2_eq_iff (Nat.mul_ne_zero hn (by positivity)), pow_add, add_right_comm, pow_add]
  exact ⟨Nat.mul_le_mul_right _ (Nat.log2_self_le hn),
    Nat.mul_lt_mul_of_pos_right Nat.lt_log2_self (by positivity)⟩

theorem mul_zpow_add (n : ℕ) (p : ℤ) (k : ℕ) :
    (n : ℚ) * 2 ^ (p + k) = ((n * 2 ^ k : ℕ) : ℚ) * 2 ^ p := by
  rw [zpow_add₀ (by norm_num), zpow_natCast]
  push_cast
  ring

theorem le_of_mul_zpow {a b : ℕ} {p : ℤ} (h : (a : ℚ) * 2 ^ p ≤ b * 2 ^ p) : a ≤ b := by
  have hpos : (0 : ℚ) < 2 ^ p := by positivity
  exact_mod_cast le_of_mul_le_mul_right h hpos

theorem le_least (mantissa : ℕ) (exponent : ℤ) :
    4 * mantissa - 2 ≤ (Digits.Interval.ofBinary mantissa exponent).least := by
  rw [Digits.Interval.ofBinary]
  dsimp only
  split <;> omega

/-- No double with a smaller exponent lies in the interval of a double. -/
theorem le_of_contains {m m' : ℕ} {e e' : ℤ} (h : Normal m e) (h' : Normal m' e')
    (hcontains : (Digits.Interval.ofBinary m e).Contains (e - 2) (m' * 2 ^ e')) : e ≤ e' := by
  obtain ⟨hleast, _⟩ := hcontains
  have hlt' := h'.lt
  by_contra hgt
  -- in units of the other double the lower end is a natural number
  obtain ⟨k, hk⟩ := Int.le.dest (Int.add_one_le_of_lt (lt_of_not_ge hgt))
  have hexp : e - 2 = e' - 2 + (k + 1 : ℕ) := by
    push_cast
    omega
  have hexp' : e' = e' - 2 + (2 : ℕ) := by
    push_cast
    omega
  have hback : e' - 2 + (2 : ℕ) - 2 = e' - 2 := by simp
  rw [hexp, hexp', mul_zpow_add, mul_zpow_add, hback] at hleast
  have hleast := le_of_mul_zpow hleast
  have hfull : 2 ^ 52 ≤ m := by
    rcases h.full with heq | hfull
    · have := h'.least
      omega
    · exact hfull
  have hbound : 2 ^ 54 - 1 ≤ (Digits.Interval.ofBinary m e).least := by
    rw [Digits.Interval.ofBinary]
    dsimp only
    split
    · omega
    · rename_i hne
      have := h'.least
      have : m ≠ 2 ^ 52 := fun heq => hne ⟨heq, by omega⟩
      omega
  have hpow : (Digits.Interval.ofBinary m e).least * 2 ^ 1 ≤
      (Digits.Interval.ofBinary m e).least * 2 ^ (k + 1) :=
    Nat.mul_le_mul_left _ (Nat.pow_le_pow_right (by norm_num) (by omega))
  omega

/-- No double lies in the interval of another one. -/
theorem eq_of_contains {m m' : ℕ} {e e' : ℤ} (h : Normal m e) (h' : Normal m' e')
    (hcontains : (Digits.Interval.ofBinary m e).Contains (e - 2) (m' * 2 ^ e')) :
    m' = m ∧ e' = e := by
  -- in units of the interval the other double is a natural number
  obtain ⟨k, hk⟩ := Int.le.dest (le_of_contains h h' hcontains)
  obtain ⟨hleast, hgreatest⟩ := hcontains
  have hlower := le_least m e
  have hlt := h.lt
  have hexp : e' = e - 2 + (k + 2 : ℕ) := by
    push_cast
    omega
  rw [hexp, mul_zpow_add] at hleast hgreatest
  have hleast := le_of_mul_zpow hleast
  have hgreatest : m' * 2 ^ (k + 2) ≤ 4 * m + 2 := le_of_mul_zpow hgreatest
  cases k with
  | zero => exact ⟨by omega, by omega⟩
  | succ k =>
      have hfull : 2 ^ 52 ≤ m' := by
        rcases h'.full with heq | hfull
        · have := h.least
          omega
        · exact hfull
      have hpow : m' * 2 ^ 3 ≤ m' * 2 ^ (k + 1 + 2) :=
        Nat.mul_le_mul_left _ (Nat.pow_le_pow_right (by norm_num) (by omega))
      omega

/-- The exponent of a whole number of at most 53 bits is not positive. -/
theorem Normal.eq_mul_of_whole {m n : ℕ} {e : ℤ} (h : Normal m e)
    (hval : n * 2 ^ (-e).toNat = m * 2 ^ e.toNat) (hn : n < 2 ^ 53) :
    e ≤ 0 ∧ m = n * 2 ^ (-e).toNat := by
  have hnonpos : e ≤ 0 := by
    by_contra hpos
    have hfull : 2 ^ 52 ≤ m := by
      rcases h.full with heq | hfull
      · simp only [leastExponent] at heq
        omega
      · exact hfull
    have hzero : (-e).toNat = 0 := by omega
    obtain ⟨k, hk⟩ : ∃ k, e.toNat = k + 1 := ⟨e.toNat - 1, by omega⟩
    rw [hzero, hk, pow_zero, mul_one] at hval
    have hpow : m * 2 ^ 1 ≤ m * 2 ^ (k + 1) :=
      Nat.mul_le_mul_left _ (Nat.pow_le_pow_right (by norm_num) (by omega))
    omega
  refine ⟨hnonpos, ?_⟩
  rw [hval, Int.toNat_of_nonpos hnonpos, pow_zero, mul_one]

/-- A positive whole number of at most 53 bits with 53 bits. -/
theorem normal_of_whole {n : ℕ} (hpos : n ≠ 0) (hn : n < 2 ^ 53) :
    Normal (n * 2 ^ (52 - n.log2)) (n.log2 - 52) := by
  have hlog : n.log2 < 53 := (Nat.log2_lt hpos).2 hn
  have hlow := Nat.log2_self_le hpos
  have hhigh : n < 2 ^ (n.log2 + 1) := Nat.lt_log2_self
  have hsplit : 2 ^ n.log2 * 2 ^ (52 - n.log2) = 2 ^ 52 := by
    rw [← pow_add]
    congr 1
    omega
  have hpow : 0 < 2 ^ (52 - n.log2) := by positivity
  refine ⟨by simp only [leastExponent]; omega, ?_, .inr ?_⟩
  · have := Nat.mul_lt_mul_of_pos_right hhigh hpow
    rw [pow_succ, mul_right_comm, hsplit] at this
    omega
  · rw [← hsplit]
    exact Nat.mul_le_mul_right _ hlow

/-- Only the double that a whole number of at most 53 bits is has it in its interval. -/
theorem whole?_of_contains {b : Binary} (h : Normal b.mantissa b.exponent) {n : ℕ} (hpos : n ≠ 0)
    (hn : n < 2 ^ 53)
    (hcontains : (Digits.Interval.ofBinary b.mantissa b.exponent).Contains (b.exponent - 2) n) :
    b.whole? = some n := by
  have hlog : n.log2 < 53 := (Nat.log2_lt hpos).2 hn
  have hvalue : (n : ℚ) = ((n * 2 ^ (52 - n.log2) : ℕ) : ℚ) * 2 ^ ((n.log2 : ℤ) - 52) := by
    rw [← mul_zpow_add, show (n.log2 : ℤ) - 52 + (52 - n.log2 : ℕ) = 0 by omega, zpow_zero, mul_one]
  rw [hvalue] at hcontains
  obtain ⟨hmantissa, hexponent⟩ := eq_of_contains h (normal_of_whole hpos hn) hcontains
  have hneg : (-b.exponent).toNat = 52 - n.log2 := by omega
  have hnonpos : b.exponent.toNat = 0 := by omega
  rw [whole?, ← hmantissa]
  simp only [Nat.pow_eq, hneg, hnonpos, Nat.mul_mod_left, if_true]
  rw [Nat.mul_div_cancel _ (by positivity), pow_zero, mul_one]

end Binary

namespace Digits

open Binary

theorem holds_value (mantissa : ℕ) (exponent : ℤ) :
    (Interval.ofBinary mantissa exponent).holds 1 (4 * mantissa) = true := by
  rw [Interval.holds, Interval.ofBinary]
  dsimp only
  split
  · simp only [Bool.and_eq_true, decide_eq_true_eq, mul_one]
    refine ⟨?_, by omega⟩
    split <;> omega
  · rename_i hodd
    have hpos : 0 < mantissa := Nat.pos_of_ne_zero fun h => hodd (by rw [h]; rfl)
    simp only [Bool.and_eq_true, decide_eq_true_eq, mul_one]
    refine ⟨?_, by omega⟩
    split <;> omega

theorem onGrid_of_whole (tie : Tie) (n k : ℕ) :
    onGrid tie (Interval.ofBinary (n * 2 ^ k) (-k)) (-k - 2) 0 ≠ none := by
  have hzero : (-(k : ℤ) - 2).toNat = 0 := by omega
  have hstep : (-(-(k : ℤ) - 2)).toNat = k + 2 := by omega
  have hpoint : n * 2 ^ (k + 2) = 4 * (n * 2 ^ k) := by ring
  have hholds := holds_value (n * 2 ^ k) (-k)
  simp only [onGrid, Nat.pow_eq, hzero, hstep, neg_zero, Int.toNat_zero, pow_zero, mul_one, one_mul,
    show (Interval.ofBinary (n * 2 ^ k) (-k)).value = n * 2 ^ (k + 2) from hpoint.symm,
    Nat.mul_div_cancel n (Nat.two_pow_pos (k + 2))]
  rw [hpoint, hholds]
  split
  · nofun
  · nofun
  · rename_i hfalse _
    cases hfalse
  · split
    · nofun
    · split
      · nofun
      · cases tie <;> nofun

theorem exponent_shortest_of_whole (tie : Tie) {n k : ℕ} (hpos : n ≠ 0) (hn : n < 2 ^ 53) :
    0 ≤ (shortest tie (n * 2 ^ k) (-k)).exponent := by
  have hlt : n.log2 < 53 := (Nat.log2_lt hpos).2 hn
  have hgrid : coarsest (n * 2 ^ k) (-k) = (n.log2 : ℤ) * 30103 / 100000 + 1 := by
    rw [coarsest, log2_mul_two_pow hpos]
    congr 3
    push_cast
    ring
  obtain ⟨d, hd, hexponent⟩ : ∃ d, firstGrid tie (Interval.ofBinary (n * 2 ^ k) (-k)) (-k - 2) 20
      (coarsest (n * 2 ^ k) (-k)) = some d ∧ 0 ≤ d.exponent :=
    firstGrid_of_whole (onGrid_of_whole tie n k) (by omega) (by omega)
  simp only [shortest]
  rw [hd, Option.getD_some]
  exact hexponent.trans (exponent_le_strip _ _)

/-- The digits of a whole number of at most 53 bits are its own. -/
theorem shortest_of_whole (tie : Tie) {m n : ℕ} {e : ℤ} (h : Normal m e) (hpos : n ≠ 0)
    (hn : n < 2 ^ 53) (hval : n * 2 ^ (-e).toNat = m * 2 ^ e.toNat) :
    ∃ g : ℕ, (shortest tie m e).exponent = g ∧ (shortest tie m e).digits * 10 ^ g = n := by
  obtain ⟨hnonpos, hm⟩ := h.eq_mul_of_whole hval hn
  obtain ⟨k, hk⟩ := Int.eq_ofNat_of_zero_le (show 0 ≤ -e by omega)
  obtain rfl : e = -k := by omega
  rw [neg_neg, Int.toNat_natCast] at hm
  subst hm
  obtain ⟨g, hg⟩ := Int.eq_ofNat_of_zero_le (exponent_shortest_of_whole tie hpos hn)
  refine ⟨g, hg, ?_⟩
  obtain ⟨hleast, hgreatest⟩ := contains_shortest tie (n * 2 ^ k) (-k)
  have hvalue : (shortest tie (n * 2 ^ k) (-k)).value =
      (((shortest tie (n * 2 ^ k) (-k)).digits * 10 ^ g * 2 ^ (k + 2) : ℕ) : ℚ) *
        2 ^ (-(k : ℤ) - 2) := by
    rw [← mul_zpow_add, show -(k : ℤ) - 2 + (k + 2 : ℕ) = 0 by push_cast; ring, zpow_zero, mul_one,
      value, hg]
    push_cast
    rfl
  rw [hvalue] at hleast hgreatest
  have hleast := (le_least _ _).trans (le_of_mul_zpow hleast)
  have hgreatest := le_of_mul_zpow hgreatest
  generalize (shortest tie (n * 2 ^ k) (-k)).digits * 10 ^ g = N at *
  replace hgreatest : N * 2 ^ (k + 2) ≤ 4 * (n * 2 ^ k) + 2 := hgreatest
  have hunit : 4 * (n * 2 ^ k) = n * 2 ^ (k + 2) := by ring
  have hpow : 2 ^ 2 ≤ 2 ^ (k + 2) := Nat.pow_le_pow_right (by norm_num) (by omega)
  rw [hunit] at hleast hgreatest
  rcases Nat.lt_trichotomy N n with hlt | heq | hlt
  · have := Nat.mul_le_mul_right (2 ^ (k + 2)) (Nat.succ_le_of_lt hlt)
    rw [Nat.succ_mul] at this
    omega
  · exact heq
  · have := Nat.mul_le_mul_right (2 ^ (k + 2)) (Nat.succ_le_of_lt hlt)
    rw [Nat.succ_mul] at this
    omega

end Digits
end MapStyle

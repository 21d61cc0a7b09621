/-
# `MapStyle.Proofs.Decimal.Rounding` — rounding to the nearest double

A finite double stands for a rational number (`Denotes`), and doubles are in the order of these
numbers.  An operation that is rounded correctly comes to the number of 53 bits that is nearest to
the exact result, the one with an even mantissa where two are (`Rounds`), unless that is too large
(`RoundsTo`).

Rounding is used by what it cannot do: it crosses no double (`Rounds.le`, `RoundsTo.between`), it is
off by at most half a unit in the last place (`Rounds.error`), and it does not lift what is half a
unit above 1 (`Rounds.le_one`).

* `Binary.roundsTo_nearest`: the nearest double to a quotient of natural numbers is rounded so.
-/
import MapStyle.Proofs.Decimal.Product
import MapStyle.Proofs.Decimal.Shortest

namespace MapStyle

/-! ## Whole numbers -/

/-- The whole number nearest to a rational one, the even one of two. -/
structure Nearest (n : ℤ) (t : ℚ) : Prop where
  within : |n - t| ≤ 1 / 2
  even : |n - t| = 1 / 2 → Even n

namespace Nearest

variable {n k : ℤ} {t : ℚ}

theorem neg (h : Nearest n t) : Nearest (-n) (-t) := by
  have habs : |((-n : ℤ) : ℚ) - -t| = |n - t| := by
    rw [Int.cast_neg, neg_sub_neg, abs_sub_comm]
  exact ⟨habs ▸ h.within, fun heq => (h.even (habs ▸ heq)).neg⟩

theorem self (n : ℤ) : Nearest n n := by
  constructor <;> norm_num

/-- Nothing below a whole number is rounded to one above it. -/
theorem le (h : Nearest n t) (hk : t ≤ k) : n ≤ k := by
  by_contra hlt
  have hgap : (k : ℚ) + 1 ≤ n := by exact_mod_cast not_le.1 hlt
  have hwithin := (abs_le.1 h.within).2
  linarith

theorem ge (h : Nearest n t) (hk : k ≤ t) : k ≤ n := by
  have hneg := h.neg.le (k := -k) (by push_cast; linarith)
  omega

/-- Two neighbours are equally near only where both would have to be even. -/
theorem unique (h : Nearest n t) (h' : Nearest k t) : n = k := by
  wlog hlt : n < k generalizing n k
  · rcases (not_lt.1 hlt).lt_or_eq with hlt | heq
    · exact (this h' h hlt).symm
    · exact heq.symm
  exfalso
  obtain ⟨_, hn⟩ := abs_le.1 (abs_sub_comm (n : ℚ) t ▸ h.within)
  obtain ⟨_, hk⟩ := abs_le.1 h'.within
  have hgap : (n : ℚ) + 1 ≤ k := by exact_mod_cast hlt
  have hnext : k = n + 1 := by
    have hle : (k : ℚ) ≤ n + 1 := by linarith
    exact le_antisymm (by exact_mod_cast hle) hlt
  have heven : Even n := h.even (by rw [abs_of_neg] <;> linarith)
  have heven' : Even k := h'.even (by rw [abs_of_pos] <;> linarith)
  rw [hnext, Int.even_add_one] at heven'
  exact heven' heven

end Nearest

/-! ## Numbers of 53 bits -/

/-- A rational number of 53 bits at an exponent that doubles have. -/
def Representable (q : ℚ) : Prop :=
  ∃ k e : ℤ, q = k * 2 ^ e ∧ |k| < 2 ^ 53 ∧ -1074 ≤ e

theorem Representable.neg {q : ℚ} (h : Representable q) : Representable (-q) := by
  obtain ⟨k, e, rfl, hk, he⟩ := h
  exact ⟨-k, e, by push_cast; ring, by rwa [abs_neg], he⟩

theorem representable_zpow {k : ℤ} (hk : -1074 ≤ k) : Representable (2 ^ k) :=
  ⟨1, k, by rw [Int.cast_one, one_mul], by norm_num, hk⟩

/-- A number of 53 bits that is far enough from zero lies on a coarse grid. -/
theorem Representable.exists_grid {q : ℚ} (h : Representable q) {j : ℤ} (hj : 2 ^ j ≤ |q|) :
    ∃ k : ℤ, q = k * 2 ^ (j - 52) := by
  obtain ⟨k, e, rfl, hk, _⟩ := h
  have hpos : (0 : ℚ) < 2 ^ e := by positivity
  have hmantissa : |(k : ℚ)| < 2 ^ 53 := by exact_mod_cast hk
  have hlt : (2 : ℚ) ^ j < 2 ^ (e + 53) := by
    rw [show e + 53 = 53 + e by ring, zpow_add₀ two_ne_zero]
    rw [abs_mul, abs_of_pos hpos] at hj
    exact hj.trans_lt (mul_lt_mul_of_pos_right (by exact_mod_cast hmantissa) hpos)
  have hexponent := (zpow_lt_zpow_iff_right₀ (one_lt_two (α := ℚ))).1 hlt
  obtain ⟨d, hd⟩ := Int.le.dest (show j - 52 ≤ e by omega)
  refine ⟨k * 2 ^ d, ?_⟩
  rw [← hd, zpow_add₀ two_ne_zero, zpow_natCast]
  push_cast
  ring

/-- A number is another one rounded to 53 bits, or to fewer at the least exponent. -/
def Rounds (q r : ℚ) : Prop :=
  ∃ n e : ℤ, r = n * 2 ^ e ∧ Nearest n (q / 2 ^ e) ∧ -1074 ≤ e ∧ |q| < 2 ^ (e + 53) ∧
    (e = -1074 ∨ 2 ^ (e + 52) ≤ |q|)

theorem two_zpow_add (e : ℤ) (k : ℕ) [k.AtLeastTwo] :
    (2 : ℚ) ^ (e + ofNat(k)) = 2 ^ ofNat(k) * 2 ^ e := by
  rw [zpow_add₀ two_ne_zero, zpow_ofNat, mul_comm]

namespace Rounds

variable {q r w : ℚ}

theorem neg (h : Rounds q r) : Rounds (-q) (-r) := by
  obtain ⟨n, e, rfl, hn, he, hq, hfull⟩ := h
  refine ⟨-n, e, by push_cast; ring, ?_, he, by rwa [abs_neg], by rwa [abs_neg]⟩
  rw [neg_div]
  exact hn.neg

/-- A number of the grid that a number is rounded on bounds the rounded number as well. -/
theorem le_of_grid {n e k : ℤ} (hn : Nearest n (q / 2 ^ e)) (hk : q ≤ k * 2 ^ e) :
    (n : ℚ) * 2 ^ e ≤ k * 2 ^ e := by
  have hpos : (0 : ℚ) < 2 ^ e := by positivity
  have hle : n ≤ k := hn.le ((div_le_iff₀ hpos).2 hk)
  exact mul_le_mul_of_nonneg_right (by exact_mod_cast hle) hpos.le

/-- Rounding crosses no number of 53 bits. -/
theorem le (h : Rounds q r) (hw : Representable w) (hqw : q ≤ w) : r ≤ w := by
  obtain ⟨n, e, rfl, hn, he, _, hfull⟩ := h
  obtain ⟨k, f, rfl, hk, hf⟩ := hw
  rcases le_or_gt e f with hef | hfe
  · -- the number lies on the grid
    obtain ⟨d, rfl⟩ := Int.le.dest hef
    have hgrid : (k : ℚ) * 2 ^ (e + d) = ((k * 2 ^ d : ℤ) : ℚ) * 2 ^ e := by
      rw [zpow_add₀ two_ne_zero, zpow_natCast]
      push_cast
      ring
    rw [hgrid] at hqw ⊢
    exact le_of_grid hn hqw
  · -- the number is nearer to zero than all that is rounded on the grid
    have hfar : (2 : ℚ) ^ (e + 52) ≤ |q| := hfull.resolve_left (by omega)
    have hnear : |(k : ℚ) * 2 ^ f| < 2 ^ (e + 52) := by
      have hpos : (0 : ℚ) < 2 ^ f := by positivity
      have hmantissa : |(k : ℚ)| < 2 ^ 53 := by exact_mod_cast hk
      have hpow : (2 : ℚ) ^ (f + 53) ≤ 2 ^ (e + 52) :=
        zpow_le_zpow_right₀ one_le_two (by omega)
      calc |(k : ℚ) * 2 ^ f| = |(k : ℚ)| * 2 ^ f := by rw [abs_mul, abs_of_pos hpos]
        _ < 2 ^ 53 * 2 ^ f := mul_lt_mul_of_pos_right hmantissa hpos
        _ = 2 ^ (f + 53) := (two_zpow_add f 53).symm
        _ ≤ 2 ^ (e + 52) := hpow
    obtain ⟨hlow, hhigh⟩ := abs_lt.1 hnear
    have hneg : q ≤ ((-2 ^ 52 : ℤ) : ℚ) * 2 ^ e := by
      rw [two_zpow_add] at hfar hlow hhigh
      push_cast
      rcases le_abs.1 hfar with hq | hq <;> linarith
    refine (le_of_grid hn hneg).trans ?_
    rw [two_zpow_add] at hlow
    push_cast
    linarith

theorem ge (h : Rounds q r) (hw : Representable w) (hwq : w ≤ q) : w ≤ r := by
  have hneg := h.neg.le hw.neg (neg_le_neg hwq)
  linarith

/-- Rounding comes to a number of 53 bits, the least one of 54 bits included. -/
theorem representable (h : Rounds q r) : Representable r := by
  obtain ⟨n, e, rfl, hn, he, hlt, _⟩ := h
  have hpos : (0 : ℚ) < 2 ^ e := by positivity
  obtain ⟨hlow, hhigh⟩ := abs_lt.1 hlt
  rw [two_zpow_add] at hlow hhigh
  have hle : n ≤ 2 ^ 53 := hn.le (by
    push_cast
    exact ((div_lt_iff₀ hpos).2 hhigh).le)
  have hge : -2 ^ 53 ≤ n := hn.ge (by
    push_cast
    exact ((lt_div_iff₀ hpos).2 (by linarith)).le)
  rcases (abs_le.2 ⟨hge, hle⟩).lt_or_eq with hn | hn
  · exact ⟨n, e, rfl, hn, he⟩
  · obtain ⟨k, rfl⟩ : ∃ k, n = k * 2 := by
      rcases eq_or_eq_neg_of_abs_eq hn with rfl | rfl
      · exact ⟨2 ^ 52, by norm_num⟩
      · exact ⟨-2 ^ 52, by norm_num⟩
    refine ⟨k, e + 1, ?_, ?_, by omega⟩
    · rw [zpow_add_one₀ two_ne_zero]
      push_cast
      ring
    · rw [abs_mul] at hn
      norm_num at hn ⊢
      omega

theorem unique {r' : ℚ} (h : Rounds q r) (h' : Rounds q r') : r = r' := by
  obtain ⟨n, e, rfl, hn, he, hlt, hfull⟩ := h
  obtain ⟨n', e', rfl, hn', he', hlt', hfull'⟩ := h'
  -- the size of the number fixes the exponent
  have hle : ∀ {a c : ℤ}, |q| < 2 ^ (a + 53) → -1074 ≤ a → (c = -1074 ∨ 2 ^ (c + 52) ≤ |q|) →
      c ≤ a := by
    rintro a c hlt ha (rfl | hfull)
    · exact ha
    · have := (zpow_lt_zpow_iff_right₀ (one_lt_two (α := ℚ))).1 (hfull.trans_lt hlt)
      omega
  obtain rfl : e = e' := le_antisymm (hle hlt' he' hfull) (hle hlt he hfull')
  rw [hn.unique hn']

theorem exact (h : Rounds q r) (hq : Representable q) : r = q :=
  le_antisymm (h.le hq le_rfl) (h.ge hq le_rfl)

/-- A rounded number is off by half a unit in the last place. -/
theorem error (h : Rounds q r) : |r - q| ≤ |q| / 2 ^ 53 + 2 ^ (-1075 : ℤ) := by
  obtain ⟨n, e, rfl, hn, _, _, hfull⟩ := h
  have hpos : (0 : ℚ) < 2 ^ e := by positivity
  have hhalf : |(n : ℚ) * 2 ^ e - q| ≤ 2 ^ e / 2 := by
    have hscale : (n : ℚ) * 2 ^ e - q = (n - q / 2 ^ e) * 2 ^ e := by field_simp
    rw [hscale, abs_mul, abs_of_pos hpos]
    linarith [mul_le_mul_of_nonneg_right hn.within hpos.le]
  refine hhalf.trans ?_
  rcases hfull with rfl | hfull
  · have hleast : (2 : ℚ) ^ (-1074 : ℤ) / 2 = 2 ^ (-1075 : ℤ) := by
      rw [show (-1074 : ℤ) = -1075 + 1 by norm_num, zpow_add_one₀ two_ne_zero]
      ring
    rw [hleast]
    linarith [show (0 : ℚ) ≤ |q| / 2 ^ 53 by positivity]
  · rw [two_zpow_add] at hfull
    linarith [show (0 : ℚ) < 2 ^ (-1075 : ℤ) by positivity]

/-- Rounding makes a number larger by no more than half a unit in the last place. -/
theorem abs_le (h : Rounds q r) : |r| ≤ (1 + 1 / 2 ^ 53) * |q| + 1 / 2 ^ 200 := by
  have hleast : (2 : ℚ) ^ (-1075 : ℤ) ≤ 1 / 2 ^ 200 := by
    rw [one_div, ← zpow_natCast, ← zpow_neg]
    exact zpow_le_zpow_right₀ one_le_two (by norm_num)
  calc |r| ≤ |q| + |r - q| := by linarith [abs_sub_abs_le_abs_sub r q]
    _ ≤ |q| + (|q| / 2 ^ 53 + 1 / 2 ^ 200) := by
        gcongr
        exact h.error.trans (by gcongr)
    _ = (1 + 1 / 2 ^ 53) * |q| + 1 / 2 ^ 200 := by ring

/-- Between two powers of two, the last place is that of the larger one. -/
theorem error_of_le (h : Rounds q r) {k : ℤ} (hq : |q| ≤ 2 ^ k) (hk : -1021 ≤ k) :
    |r - q| ≤ 2 ^ (k - 54) := by
  rcases hq.lt_or_eq with hlt | heq
  · obtain ⟨n, e, rfl, hn, _, _, hfull⟩ := h
    have hpos : (0 : ℚ) < 2 ^ e := by positivity
    have hexponent : e ≤ k - 53 := by
      rcases hfull with rfl | hfull
      · omega
      · have := (zpow_lt_zpow_iff_right₀ (one_lt_two (α := ℚ))).1 (hfull.trans_lt hlt)
        omega
    calc |(n : ℚ) * 2 ^ e - q| = |n - q / 2 ^ e| * 2 ^ e := by
          rw [← abs_of_pos hpos, ← abs_mul, abs_of_pos hpos, sub_mul, div_mul_cancel₀ _ hpos.ne']
      _ ≤ 1 / 2 * 2 ^ e := mul_le_mul_of_nonneg_right hn.within hpos.le
      _ = 2 ^ (e - 1) := by rw [zpow_sub_one₀ two_ne_zero]; ring
      _ ≤ 2 ^ (k - 54) := zpow_le_zpow_right₀ one_le_two (by omega)
  · have hrepresentable : Representable q := by
      have hpower := representable_zpow (show -1074 ≤ k by omega)
      rcases eq_or_eq_neg_of_abs_eq heq with rfl | rfl
      · exact hpower
      · exact hpower.neg
    rw [h.exact hrepresentable, sub_self, abs_zero]
    positivity

/-- What is at most half a unit above 1 is not rounded up. -/
theorem le_one (h : Rounds q r) (hq : q ≤ 1 + 1 / 2 ^ 53) : r ≤ 1 := by
  rcases le_or_gt q 1 with hle | hgt
  · exact h.le (representable_zpow (k := 0) (by norm_num)) hle
  obtain ⟨n, e, rfl, hn, _, hlt, hfull⟩ := h
  have habs : |q| = q := abs_of_pos (by linarith)
  rw [habs] at hlt hfull
  -- there are 52 bits behind the point
  obtain rfl : e = -52 := by
    have hlow : (2 : ℚ) ^ (0 : ℤ) < 2 ^ (e + 53) := by
      rw [zpow_zero]
      linarith
    have := (zpow_lt_zpow_iff_right₀ one_lt_two).1 hlow
    rcases hfull with rfl | hfull
    · omega
    · have hhigh : (2 : ℚ) ^ (e + 52) < 2 ^ (1 : ℤ) := by
        rw [zpow_one]
        linarith [show (1 : ℚ) / 2 ^ 53 < 1 by norm_num]
      have := (zpow_lt_zpow_iff_right₀ one_lt_two).1 hhigh
      omega
  have hunit : (2 : ℚ) ^ (-52 : ℤ) = 1 / 2 ^ 52 := by norm_num
  rw [hunit] at hn ⊢
  have hquotient : q / (1 / 2 ^ 52) ≤ 2 ^ 52 + 1 / 2 := by
    rw [div_le_iff₀ (by positivity)]
    linarith
  have hle : n ≤ 2 ^ 52 + 1 := hn.le (by push_cast; linarith)
  have hne : n ≠ 2 ^ 52 + 1 := by
    rintro rfl
    have htie : |(((2 ^ 52 + 1 : ℤ) : ℚ)) - q / (1 / 2 ^ 52)| = 1 / 2 := by
      refine le_antisymm hn.within (le_trans ?_ (le_abs_self _))
      push_cast
      linarith
    exact absurd (hn.even htie) (by decide)
  have hn : (n : ℚ) ≤ 2 ^ 52 := by exact_mod_cast (by omega : n ≤ 2 ^ 52)
  linarith

end Rounds

/-! ## Doubles as rational numbers -/

namespace Binary

/-- The rational number that an exact form is. -/
def value (b : Binary) : ℚ := (if b.negative then -1 else 1) * (b.mantissa * 2 ^ b.exponent)

theorem abs_value (b : Binary) : |b.value| = b.mantissa * 2 ^ b.exponent := by
  have hpos : (0 : ℚ) ≤ b.mantissa * 2 ^ b.exponent := by positivity
  rw [value, abs_mul, abs_of_nonneg hpos]
  split <;> simp

/-- Of two magnitudes the one with the smaller exponent is smaller, or of one exponent the one with
the smaller mantissa. -/
theorem Normal.lt_of_lex {m m' : ℕ} {e e' : ℤ} (h : Normal m e) (h' : Normal m' e')
    (hlex : e < e' ∨ e = e' ∧ m < m') : (m : ℚ) * 2 ^ e < m' * 2 ^ e' := by
  have hpos : (0 : ℚ) < 2 ^ e := by positivity
  rcases hlex with hlt | ⟨rfl, hlt⟩
  · have hfull : 2 ^ 52 ≤ m' := by
      have := h.least
      exact h'.full.resolve_left (by omega)
    have hpow : (2 : ℚ) ^ (e + 1) ≤ 2 ^ e' := zpow_le_zpow_right₀ one_le_two (by omega)
    calc (m : ℚ) * 2 ^ e < 2 ^ 53 * 2 ^ e :=
          mul_lt_mul_of_pos_right (by exact_mod_cast h.lt) hpos
      _ = 2 ^ 52 * 2 ^ (e + 1) := by
          rw [zpow_add_one₀ two_ne_zero]
          ring
      _ ≤ m' * 2 ^ e' := mul_le_mul (by exact_mod_cast hfull) hpow (by positivity) (by positivity)
  · exact mul_lt_mul_of_pos_right (by exact_mod_cast hlt) hpos

theorem rank_cases (b : Binary) :
    (b.value = 0 ∧ rankOf b.unpacked = some (toLex (0, toLex (0, 0)))) ∨
      (0 < b.mantissa ∧ b.value = b.mantissa * 2 ^ b.exponent ∧
        rankOf b.unpacked = some (toLex (1, toLex (b.exponent, (b.mantissa : ℤ))))) ∨
      (0 < b.mantissa ∧ b.value = -(b.mantissa * 2 ^ b.exponent) ∧
        rankOf b.unpacked = some (toLex (-1, toLex (-b.exponent, -(b.mantissa : ℤ))))) := by
  obtain ⟨negative, m, e⟩ := b
  by_cases hm : 0 < m
  · rw [unpacked, dif_pos hm]
    cases negative with
    | false => exact .inr (.inl ⟨hm, by simp [value], rfl⟩)
    | true => exact .inr (.inr ⟨hm, by simp [value], rfl⟩)
  · obtain rfl : m = 0 := by omega
    exact .inl ⟨by simp [value], rfl⟩

theorem value_lt_of_rank {b c : Binary} (hb : Normal b.mantissa b.exponent)
    (hc : Normal c.mantissa c.exponent) {r s : Rank} (hr : rankOf b.unpacked = some r)
    (hs : rankOf c.unpacked = some s) (hlt : r < s) : b.value < c.value := by
  have hpos : ∀ d : Binary, 0 < d.mantissa → (0 : ℚ) < d.mantissa * 2 ^ d.exponent :=
    fun d hd => by positivity
  rcases b.rank_cases with ⟨hb0, hrank⟩ | ⟨hm, hv, hrank⟩ | ⟨hm, hv, hrank⟩ <;>
    rcases c.rank_cases with ⟨hc0, hrank'⟩ | ⟨hm', hv', hrank'⟩ | ⟨hm', hv', hrank'⟩ <;>
    cases hr.symm.trans hrank <;> cases hs.symm.trans hrank' <;>
    simp only [Prod.Lex.toLex_lt_toLex] at hlt
  · omega
  · rw [hb0, hv']
    exact hpos c hm'
  · omega
  · omega
  · rw [hv, hv']
    exact hb.lt_of_lex hc (by omega)
  · omega
  · rw [hv, hc0]
    linarith [hpos b hm]
  · rw [hv, hv']
    linarith [hpos b hm, hpos c hm']
  · rw [hv, hv']
    exact neg_lt_neg (hc.lt_of_lex hb (by omega))

/-- An exact form is determined by its rank. -/
theorem value_eq_of_rank {b : Binary} {r : Rank} (hr : rankOf b.unpacked = some r) :
    b.value = (ofLex (ofLex r).2).2 * 2 ^ ((ofLex r).1 * (ofLex (ofLex r).2).1) := by
  rcases b.rank_cases with ⟨hv, hrank⟩ | ⟨_, hv, hrank⟩ | ⟨_, hv, hrank⟩ <;>
    cases hr.symm.trans hrank <;> rw [hv]
  · simp
  · simp
  · simp

end Binary

/-- A finite double stands for a rational number. -/
def Denotes (x : Float) (q : ℚ) : Prop := ∃ b, Binary.ofFloat? x = some b ∧ b.value = q

namespace Denotes

variable {x y : Float} {p q : ℚ}

theorem of_isFinite (h : x.isFinite = true) : ∃ q, Denotes x q := by
  obtain ⟨b, hb⟩ := isFinite_iff.1 h
  exact ⟨_, b, hb, rfl⟩

theorem isFinite (h : Denotes x q) : x.isFinite = true := by
  obtain ⟨b, hb, _⟩ := h
  exact isFinite_iff.2 ⟨b, hb⟩

theorem unique (h : Denotes x p) (h' : Denotes x q) : p = q := by
  obtain ⟨b, hb, rfl⟩ := h
  obtain ⟨c, hc, rfl⟩ := h'
  cases hb.symm.trans hc
  rfl

theorem le_iff (hx : Denotes x p) (hy : Denotes y q) : x ≤ y ↔ p ≤ q := by
  obtain ⟨b, hb, rfl⟩ := hx
  obtain ⟨c, hc, rfl⟩ := hy
  have hnormal := Binary.normal_of_ofFloat? hb
  have hnormal' := Binary.normal_of_ofFloat? hc
  obtain ⟨r, hr⟩ := rank?_of_isFinite (isFinite_iff.2 ⟨b, hb⟩)
  obtain ⟨s, hs⟩ := rank?_of_isFinite (isFinite_iff.2 ⟨c, hc⟩)
  have hle : x ≤ y ↔ r ≤ s := by
    rw [le_iff_rank, hr, hs]
    simp
  rw [rank?, unpack_of_ofFloat? hb] at hr
  rw [rank?, unpack_of_ofFloat? hc] at hs
  rw [hle]
  constructor
  · intro hrs
    rcases hrs.lt_or_eq with hlt | rfl
    · exact (Binary.value_lt_of_rank hnormal hnormal' hr hs hlt).le
    · rw [Binary.value_eq_of_rank hr, Binary.value_eq_of_rank hs]
  · intro hvalue
    by_contra hlt
    exact absurd hvalue (not_le.2 (Binary.value_lt_of_rank hnormal' hnormal hs hr (not_le.1 hlt)))

theorem lt_iff (hx : Denotes x p) (hy : Denotes y q) : x < y ↔ p < q := by
  have hlt : x < y ↔ ¬ y ≤ x := by
    obtain ⟨a, ha⟩ := rank?_of_isFinite hx.isFinite
    obtain ⟨c, hc⟩ := rank?_of_isFinite hy.isFinite
    rw [lt_iff_rank, le_iff_rank, ha, hc]
    simp
  rw [hlt, hy.le_iff hx, not_le]

theorem beq (hx : Denotes x q) (hy : Denotes y q) : (x == y) = true :=
  Float.beq_of_le ((hx.le_iff hy).2 le_rfl) ((hy.le_iff hx).2 le_rfl)

theorem inRange_iff {low high : Float} {a c : ℚ} (hlow : Denotes low a) (hhigh : Denotes high c)
    (hx : Denotes x p) : inRange low high x = true ↔ a ≤ p ∧ p ≤ c := by
  rw [inRange, Bool.and_eq_true, decide_eq_true_eq, decide_eq_true_eq, hlow.le_iff hx,
    hx.le_iff hhigh]

end Denotes

/-! ## Bits of a rounded magnitude -/

namespace Binary

variable {negative : Bool} {E M : ℕ}

theorem ofMagnitude_of_lt (negative : Bool) (hM : M < 2 ^ 53) (hfull : E = 0 ∨ 2 ^ 52 ≤ M) :
    ofMagnitude negative (E * 2 ^ 52 + M) = ⟨negative, M, E - 1074⟩ := by
  rw [ofMagnitude]
  split
  · obtain rfl : E = 0 := by omega
    simp
  · rename_i hexp
    have hfull : 2 ^ 52 ≤ M := by
      rcases hfull with rfl | hfull
      · omega
      · exact hfull
    have hdiv : (E * 2 ^ 52 + M) / 2 ^ 52 = E + 1 := by omega
    have hmod : 2 ^ 52 + (E * 2 ^ 52 + M) % 2 ^ 52 = M := by omega
    have hexp : ((E + 1 : ℕ) : ℤ) - 1075 = E - 1074 := by omega
    rw [hdiv, hmod, hexp]

/-- A mantissa that was rounded up to 54 bits carries into the exponent. -/
theorem ofMagnitude_carry (negative : Bool) (E : ℕ) :
    ofMagnitude negative (E * 2 ^ 52 + 2 ^ 53) = ⟨negative, 2 ^ 52, E - 1073⟩ := by
  have hdiv : (E * 2 ^ 52 + 2 ^ 53) / 2 ^ 52 = E + 2 := by omega
  have hmod : (E * 2 ^ 52 + 2 ^ 53) % 2 ^ 52 = 0 := by omega
  have hexp : ((E + 2 : ℕ) : ℤ) - 1075 = E - 1073 := by omega
  rw [ofMagnitude, hdiv, hmod, if_neg (by omega), Nat.add_zero, hexp]

theorem value_ofMagnitude (negative : Bool) (hM : M ≤ 2 ^ 53) (hfull : E = 0 ∨ 2 ^ 52 ≤ M) :
    (ofMagnitude negative (E * 2 ^ 52 + M)).value =
      (if negative then -1 else 1) * (M * 2 ^ ((E : ℤ) - 1074)) := by
  rcases Nat.lt_or_eq_of_le hM with hlt | heq
  · rw [ofMagnitude_of_lt negative hlt hfull, value]
  · rw [heq, ofMagnitude_carry, value, show (E : ℤ) - 1073 = E - 1074 + 1 by ring,
      zpow_add_one₀ two_ne_zero]
    push_cast
    ring

theorem bits_lt (hM : M ≤ 2 ^ 53) (hfull : E = 0 ∨ 2 ^ 52 ≤ M)
    (hsmall : (M : ℚ) * 2 ^ ((E : ℤ) - 1074) < 2 ^ (1024 : ℤ)) :
    E * 2 ^ 52 + M < infinityBits := by
  have hbound : ∀ k d : ℕ, 2 ^ k ≤ M → d ≤ E → k + d < 2098 := by
    intro k d hk hd
    have hpow : (2 : ℚ) ^ ((k : ℤ) + (d - 1074)) ≤ M * 2 ^ ((E : ℤ) - 1074) := by
      rw [zpow_add₀ two_ne_zero, zpow_natCast]
      refine mul_le_mul (by exact_mod_cast hk) ?_ (zpow_nonneg two_pos.le _) M.cast_nonneg
      exact zpow_le_zpow_right₀ one_le_two (by omega)
    have := (zpow_lt_zpow_iff_right₀ one_lt_two).1 (hpow.trans_lt hsmall)
    omega
  have hhigh : E < 2046 := by
    by_contra hE
    have := hbound 52 2046 (hfull.resolve_left (by omega)) (by omega)
    omega
  have hcarry : E = 2045 → M < 2 ^ 53 := by
    rintro rfl
    refine lt_of_le_of_ne hM ?_
    rintro rfl
    have := hbound 53 2045 le_rfl le_rfl
    omega
  simp only [infinityBits]
  omega

end Binary

theorem denotes_withSign (negative : Bool) {E M : ℕ} (hM : M ≤ 2 ^ 53)
    (hfull : E = 0 ∨ 2 ^ 52 ≤ M)
    (hsmall : (M : ℚ) * 2 ^ ((E : ℤ) - 1074) < 2 ^ (1024 : ℤ)) :
    Denotes (Binary.withSign negative (E * 2 ^ 52 + M))
      ((if negative then -1 else 1) * (M * 2 ^ ((E : ℤ) - 1074))) :=
  ⟨_, Binary.ofFloat?_withSign negative (Binary.bits_lt hM hfull hsmall),
    Binary.value_ofMagnitude negative hM hfull⟩

namespace Denotes

variable {x : Float} {q : ℚ}

theorem representable (h : Denotes x q) : Representable q := by
  obtain ⟨b, hb, rfl⟩ := h
  have hnormal := Binary.normal_of_ofFloat? hb
  have hlt : |(b.mantissa : ℤ)| < 2 ^ 53 := by
    rw [Nat.abs_cast]
    exact_mod_cast hnormal.lt
  refine ⟨if b.negative then -b.mantissa else b.mantissa, b.exponent, ?_, ?_, hnormal.least⟩
  · rw [Binary.value]
    split <;> push_cast <;> ring
  · split
    · rwa [abs_neg]
    · exact hlt

theorem lt_overflow (h : Denotes x q) : |q| < 2 ^ (1024 : ℤ) := by
  obtain ⟨b, hb, rfl⟩ := h
  obtain ⟨bits, hbits, _, hmagnitude⟩ := Binary.eq_withSign hb
  have hexponent : b.exponent ≤ 971 := by
    simp only [Binary.infinityBits] at hbits
    rw [hmagnitude, Binary.ofMagnitude]
    split
    · simp
    · dsimp only
      omega
  have hpos : (0 : ℚ) < 2 ^ b.exponent := by positivity
  calc |b.value| = b.mantissa * 2 ^ b.exponent := b.abs_value
    _ < 2 ^ 53 * 2 ^ b.exponent :=
        mul_lt_mul_of_pos_right (by exact_mod_cast Binary.mantissa_lt hb) hpos
    _ = 2 ^ (b.exponent + 53) := (two_zpow_add b.exponent 53).symm
    _ ≤ 2 ^ (1024 : ℤ) := zpow_le_zpow_right₀ one_le_two (by omega)

end Denotes

/-- A double is what a rational number rounds to, unless that is too large for a double. -/
def RoundsTo (x : Float) (q : ℚ) : Prop :=
  ∃ r, Rounds q r ∧ (|r| < 2 ^ (1024 : ℤ) → Denotes x r)

/-- A number between two doubles rounds to one between them. -/
theorem RoundsTo.between {x l u : Float} {q a c : ℚ} (h : RoundsTo x q) (hl : Denotes l a)
    (hu : Denotes u c) (haq : a ≤ q) (hqc : q ≤ c) :
    ∃ r, Denotes x r ∧ Rounds q r ∧ a ≤ r ∧ r ≤ c := by
  obtain ⟨r, hr, hx⟩ := h
  have hlow := hr.ge hl.representable haq
  have hhigh := hr.le hu.representable hqc
  refine ⟨r, hx ?_, hr, hlow, hhigh⟩
  have ha := abs_lt.1 hl.lt_overflow
  have hc := abs_lt.1 hu.lt_overflow
  exact abs_lt.2 ⟨ha.1.trans_le hlow, hhigh.trans_lt hc.2⟩

/-- What a magnitude is rounded to, by the parts of its bits. -/
theorem Rounds.parts {q : ℚ} {M : ℕ} {e : ℤ} (hq : 0 ≤ q) (hn : Nearest M (q / 2 ^ e))
    (he : -1074 ≤ e) (hlt : q < 2 ^ (e + 53)) (hfull : e = -1074 ∨ 2 ^ (e + 52) ≤ q) :
    Rounds q (M * 2 ^ e) ∧ M ≤ 2 ^ 53 ∧ (e = -1074 ∨ 2 ^ 52 ≤ M) := by
  have hpos : (0 : ℚ) < 2 ^ e := by positivity
  refine ⟨⟨M, e, by push_cast; rfl, hn, he, ?_, ?_⟩, ?_, ?_⟩
  · rwa [abs_of_nonneg hq]
  · rwa [abs_of_nonneg hq]
  · rw [two_zpow_add] at hlt
    have hle : (M : ℤ) ≤ 2 ^ 53 := hn.le (by
      rw [div_le_iff₀ hpos]
      push_cast
      exact hlt.le)
    exact_mod_cast hle
  · refine hfull.imp_right fun hfull => ?_
    rw [two_zpow_add] at hfull
    have hle : (2 ^ 52 : ℤ) ≤ M := hn.ge (by
      rw [le_div_iff₀ hpos]
      push_cast
      exact hfull)
    exact_mod_cast hle

/-- A double that has the bits of a rounded magnitude, if these are below those of infinity. -/
theorem roundsTo_of_nearest (negative : Bool) {x : Float} {q : ℚ} {E M : ℕ} (hq : 0 ≤ q)
    (hn : Nearest M (q / 2 ^ ((E : ℤ) - 1074))) (hlt : q < 2 ^ ((E : ℤ) - 1074 + 53))
    (hfull : E = 0 ∨ 2 ^ ((E : ℤ) - 1074 + 52) ≤ q)
    (hx : E * 2 ^ 52 + M < Binary.infinityBits →
      x = Binary.withSign negative (E * 2 ^ 52 + M)) :
    RoundsTo x ((if negative then -1 else 1) * q) := by
  obtain ⟨hrounds, hM, hfullM⟩ := Rounds.parts hq hn (by omega) hlt
    (hfull.imp_left fun h0 => by rw [h0]; rfl)
  have hfullM : E = 0 ∨ 2 ^ 52 ≤ M := hfullM.imp_left fun h0 => by omega
  have hpos : (0 : ℚ) ≤ M * 2 ^ ((E : ℤ) - 1074) := mul_nonneg M.cast_nonneg (by positivity)
  refine ⟨(if negative then -1 else 1) * (M * 2 ^ ((E : ℤ) - 1074)), ?_, fun hsmall => ?_⟩
  · cases negative with
    | false => simpa using hrounds
    | true => simpa using hrounds.neg
  · have habs : |(if negative then -1 else 1) * ((M : ℚ) * 2 ^ ((E : ℤ) - 1074))| =
        M * 2 ^ ((E : ℤ) - 1074) := by
      rw [abs_mul, abs_of_nonneg hpos]
      cases negative <;> simp
    rw [habs] at hsmall
    rw [hx (Binary.bits_lt hM hfullM hsmall)]
    exact denotes_withSign negative hM hfullM hsmall

/-! ## Quotients of natural numbers -/

namespace Binary

theorem cast_div_eq (num : ℕ) {den : ℕ} (hden : 0 < den) :
    (num : ℚ) / den = (num / den : ℕ) + (num % den : ℕ) / den := by
  have hpos : (0 : ℚ) < den := by exact_mod_cast hden
  have hdiv : ((den * (num / den) + num % den : ℕ) : ℚ) = num := by
    exact_mod_cast Nat.div_add_mod num den
  rw [← hdiv]
  push_cast
  field_simp

/-- The quotient of two natural numbers is rounded to the nearest whole number. -/
theorem nearest_roundHalfEven (num : ℕ) {den : ℕ} (hden : 0 < den) :
    Nearest (roundHalfEven num den) ((num : ℚ) / den) := by
  have hpos : (0 : ℚ) < den := by exact_mod_cast hden
  obtain ⟨x, hx⟩ : ∃ x : ℚ, x = (num % den : ℕ) / den := ⟨_, rfl⟩
  have hsplit : (num : ℚ) / den = (num / den : ℕ) + x := by rw [hx, cast_div_eq num hden]
  have hlow : 0 ≤ x := by rw [hx]; positivity
  have hhalf : den < 2 * (num % den) ↔ 1 / 2 < x := by
    rw [hx, lt_div_iff₀ hpos, ← Nat.cast_lt (α := ℚ)]
    push_cast
    constructor <;> intro h <;> linarith
  have htie : 2 * (num % den) = den ↔ x = 1 / 2 := by
    rw [hx, div_eq_iff hpos.ne', ← Nat.cast_inj (R := ℚ)]
    push_cast
    constructor <;> intro h <;> linarith
  have hhigh : x < 1 := by
    rw [hx, div_lt_one hpos]
    exact_mod_cast Nat.mod_lt num hden
  rw [hsplit, roundHalfEven]
  simp only [Bool.or_eq_true, decide_eq_true_eq, Bool.and_eq_true, beq_iff_eq]
  generalize num / den = n
  split
  · rename_i hup
    rw [hhalf, htie] at hup
    have hdist : |(((n + 1 : ℕ) : ℤ) : ℚ) - (n + x)| = 1 - x := by
      rw [abs_of_pos] <;> push_cast <;> linarith
    refine ⟨?_, fun heq => ?_⟩
    · rw [hdist]
      rcases hup with hup | ⟨hup, _⟩ <;> linarith
    · rw [hdist] at heq
      have hodd := (hup.resolve_left (by linarith)).2
      exact_mod_cast (Nat.odd_iff.2 hodd).add_one
  · rename_i hdown
    rw [hhalf, htie] at hdown
    obtain ⟨hle, heven⟩ := not_or.1 hdown
    have hdist : |((n : ℤ) : ℚ) - (n + x)| = x := by
      rw [abs_of_nonpos] <;> push_cast <;> linarith
    refine ⟨?_, fun heq => ?_⟩
    · rw [hdist]
      exact not_lt.1 hle
    · rw [hdist] at heq
      have hnot : n % 2 ≠ 1 := fun hodd => heven ⟨heq, hodd⟩
      exact_mod_cast Nat.even_iff.2 (by omega)

/-- The exponent at which a quotient is rounded leaves it 53 bits, if it can. -/
theorem roundingExponent_spec {num den : ℕ} (hnum : num ≠ 0) (hden : den ≠ 0) :
    leastExponent ≤ roundingExponent num den ∧
      (num : ℚ) / den < 2 ^ (roundingExponent num den + 53) ∧
      (roundingExponent num den = leastExponent ∨
        2 ^ (roundingExponent num den + 52) ≤ (num : ℚ) / den) := by
  have hpos : (0 : ℚ) < den := by exact_mod_cast Nat.pos_of_ne_zero hden
  obtain ⟨k, hk⟩ : ∃ k : ℤ, k = (num.log2 : ℤ) - den.log2 := ⟨_, rfl⟩
  have hbelow : num * 2 ^ (-k).toNat < den * 2 ^ k.toNat ↔ (num : ℚ) / den < 2 ^ k := by
    have hpow := Digits.pow_toNat two_ne_zero k
    have hscale : (0 : ℚ) < 2 ^ (-k).toNat := by positivity
    rw [← Nat.cast_lt (α := ℚ)]
    push_cast
    rw [hpow, ← mul_assoc, mul_lt_mul_iff_left₀ hscale, div_lt_iff₀ hpos, mul_comm]
  have hlow : (2 : ℚ) ^ (k - 1) ≤ num / den := by
    have hn : ((2 : ℚ) ^ num.log2) ≤ num := by exact_mod_cast Nat.log2_self_le hnum
    have hd : (den : ℚ) ≤ 2 ^ (den.log2 + 1) := by exact_mod_cast Nat.lt_log2_self.le
    rw [le_div_iff₀ hpos]
    calc (2 : ℚ) ^ (k - 1) * den ≤ 2 ^ (k - 1) * 2 ^ (den.log2 + 1) := by gcongr
      _ = 2 ^ num.log2 := by
          rw [← zpow_natCast, ← zpow_natCast, ← zpow_add₀ two_ne_zero]
          congr 1
          omega
      _ ≤ num := hn
  have hhigh : (num : ℚ) / den < 2 ^ (k + 1) := by
    have hn : (num : ℚ) < 2 ^ (num.log2 + 1) := by exact_mod_cast Nat.lt_log2_self
    have hd : ((2 : ℚ) ^ den.log2) ≤ den := by exact_mod_cast Nat.log2_self_le hden
    rw [div_lt_iff₀ hpos]
    calc (num : ℚ) < 2 ^ (num.log2 + 1) := hn
      _ = 2 ^ (k + 1) * 2 ^ den.log2 := by
          rw [← zpow_natCast, ← zpow_natCast, ← zpow_add₀ two_ne_zero]
          congr 1
          omega
      _ ≤ 2 ^ (k + 1) * den := by gcongr
  have hmono : ∀ {a b : ℤ}, a ≤ b → (2 : ℚ) ^ a ≤ 2 ^ b := zpow_le_zpow_right₀ one_le_two
  simp only [roundingExponent, fractionBits, Nat.pow_eq, ← hk, hbelow, leastExponent]
  split
  · rename_i hlt
    refine ⟨le_max_left _ _, hlt.trans_le (hmono (by omega)), ?_⟩
    rcases max_choice (-1074 : ℤ) (k - 1 - (52 : ℕ)) with h | h
    · exact .inl h
    · exact .inr ((hmono (by omega)).trans hlow)
  · rename_i hge
    refine ⟨le_max_left _ _, hhigh.trans_le (hmono (by omega)), ?_⟩
    rcases max_choice (-1074 : ℤ) (k - (52 : ℕ)) with h | h
    · exact .inl h
    · exact .inr ((hmono (by omega)).trans (not_lt.1 hge))

theorem roundsTo_nearest (negative : Bool) (num : ℕ) {den : ℕ} (hden : den ≠ 0) :
    RoundsTo (nearest negative num den) ((if negative then -1 else 1) * (num / den)) := by
  by_cases hnum : num = 0
  · refine roundsTo_of_nearest negative (E := 0) (M := 0) (by positivity) ?_ ?_ (.inl rfl) ?_
    · simpa [hnum] using Nearest.self 0
    · rw [hnum, Nat.cast_zero, zero_div]
      positivity
    · intro _
      rw [nearest, nearestBits, if_pos hnum]
      rfl
  · obtain ⟨hleast, hlt, hfull⟩ := roundingExponent_spec hnum hden
    have hpos : (0 : ℚ) < den := by exact_mod_cast Nat.pos_of_ne_zero hden
    generalize hq : roundingExponent num den = q at hleast hlt hfull
    obtain ⟨E, rfl⟩ : ∃ E : ℕ, q = E - 1074 := by
      obtain ⟨E, hE⟩ := Int.le.dest hleast
      exact ⟨E, by simp only [leastExponent] at hE; omega⟩
    have hunit : ((E : ℤ) - 1074 - leastExponent).toNat = E := by simp [leastExponent]
    refine roundsTo_of_nearest negative (E := E) (by positivity) ?_ hlt
      (hfull.imp_left fun h => by simp only [leastExponent] at h; omega) ?_
      (M := roundHalfEven (num * 2 ^ (-((E : ℤ) - 1074)).toNat)
        (den * 2 ^ ((E : ℤ) - 1074).toNat))
    · convert nearest_roundHalfEven (num * 2 ^ (-((E : ℤ) - 1074)).toNat)
        (Nat.mul_pos (Nat.pos_of_ne_zero hden) (Nat.two_pow_pos ((E : ℤ) - 1074).toNat)) using 1
      push_cast
      rw [Digits.pow_toNat two_ne_zero ((E : ℤ) - 1074)]
      have hscale : (0 : ℚ) < 2 ^ (-((E : ℤ) - 1074)).toNat := by positivity
      field_simp
    · intro hbits
      rw [nearest, nearestBits, if_neg hnum]
      simp only [hq, hunit, fractionBits, Nat.pow_eq]
      rw [Nat.min_eq_left hbits.le]

end Binary

/-! ## Whole doubles -/

theorem denotes_zero_literal : Denotes 0 0 :=
  ⟨⟨false, 0, -1074⟩, by decide, by simp [Binary.value]⟩

theorem Digits.mul_pow_toNat_div (m : ℕ) (e : ℤ) :
    ((m * 2 ^ e.toNat : ℕ) : ℚ) / (2 ^ (-e).toNat : ℕ) = m * 2 ^ e := by
  push_cast
  rw [pow_toNat two_ne_zero e]
  field_simp

theorem Denotes.unsigned {x : Float} {q : ℚ} (h : Denotes x q) : Denotes (unsigned x) q := by
  rcases unsigned_cases x with hx | ⟨rfl, hx⟩
  · rwa [hx]
  · have hzero : Denotes negativeZero 0 :=
      ⟨⟨true, 0, -1074⟩, by decide, by simp [Binary.value]⟩
    rw [hx, h.unique hzero]
    exact denotes_zero_literal

/-- The number that a whole double is. -/
theorem Denotes.of_wholeNumber? {x : Float} {i : ℤ} (h : wholeNumber? x = some i) :
    Denotes x i := by
  simp only [wholeNumber?, Option.bind_eq_bind, Option.bind_eq_some_iff] at h
  obtain ⟨b, hb, n, hn, hi⟩ := h
  refine ⟨b, hb, ?_⟩
  have hvalue : (b.mantissa : ℚ) * 2 ^ b.exponent = n := by
    rw [← Digits.mul_pow_toNat_div, div_eq_iff (by positivity)]
    exact_mod_cast (Binary.whole?_eq_some hn).symm
  cases Option.some.inj hi
  rw [Binary.value, hvalue]
  cases b.negative <;> simp

/-- A whole double below the double of a count is below the count. -/
theorem lt_of_lt_nearest {x : Float} {i : ℤ} {n : ℕ} (h : wholeNumber? x = some i)
    (hlt : x < Binary.nearest false n 1) : i < n := by
  have hx := Denotes.of_wholeNumber? h
  by_contra hle
  have hn : RoundsTo (Binary.nearest false n 1) n := by
    simpa using Binary.roundsTo_nearest false n one_ne_zero
  obtain ⟨r, hr, _, _, hri⟩ := hn.between denotes_zero_literal hx n.cast_nonneg
    (by exact_mod_cast not_lt.1 hle)
  exact absurd ((hx.lt_iff hr).1 hlt) (not_lt.2 hri)

end MapStyle

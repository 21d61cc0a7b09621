/-
# `MapStyle.Proofs.Decimal.ReadBack` — digits that read back

The digits of a double are looked for in an interval that is computed in quarters of its last
place.  Here that interval is shown to be what it is meant to be: what lies inside of it is rounded
to the double (`rounds_of_inside`).  A tie at one of its ends goes to an even mantissa, and below a
power of two the last place is half as large.

Reading digits is rounding their number, so the double comes back (`denotes_nearestDecimal`).  The
reader settles the largest and the smallest numbers by their size alone; no double is of such a
size.
-/
import MapStyle.Decimal.Numeral
import MapStyle.Proofs.Decimal.Rounding

namespace MapStyle
namespace Digits

open Binary

/-! ## The interval of a double -/

section Interval

variable {m : ℕ} {e : ℤ} {v : ℚ}

theorem mul_quarter (a : ℚ) (e : ℤ) : a * 2 ^ (e - 2) = a / 4 * 2 ^ e := by
  rw [zpow_sub₀ two_ne_zero]
  ring

theorem greatest_eq (m : ℕ) (e : ℤ) :
    ((Interval.ofBinary m e).greatest : ℚ) * 2 ^ (e - 2) = (m + 1 / 2) * 2 ^ e := by
  rw [mul_quarter, show (Interval.ofBinary m e).greatest = 4 * m + 2 from rfl]
  push_cast
  ring

/-- The lower end is half a unit in the last place away, or a quarter below a power of two. -/
theorem least_eq (hm : m ≠ 0) (e : ℤ) :
    ¬ (m = 2 ^ 52 ∧ -1074 < e) ∧
        ((Interval.ofBinary m e).least : ℚ) * 2 ^ (e - 2) = (m - 1 / 2) * 2 ^ e ∨
      m = 2 ^ 52 ∧ ((Interval.ofBinary m e).least : ℚ) * 2 ^ (e - 2) = (m - 1 / 4) * 2 ^ e := by
  rw [mul_quarter, Interval.ofBinary]
  dsimp only
  split
  · rename_i hpower
    refine .inr ⟨hpower.1, ?_⟩
    rw [Nat.cast_sub (by omega)]
    push_cast
    ring
  · rename_i hpower
    refine .inl ⟨hpower, ?_⟩
    rw [Nat.cast_sub (by omega)]
    push_cast
    ring

/-- A number in the interval has the mantissa for its nearest whole number of last places. -/
theorem nearest_of_inside (hm : m ≠ 0) (h : (Interval.ofBinary m e).Inside (e - 2) v) :
    Nearest m (v / 2 ^ e) := by
  have hpos : (0 : ℚ) < 2 ^ e := by positivity
  have heven : (Interval.ofBinary m e).closed = true → Even (m : ℤ) := fun hclosed =>
    Int.even_coe_nat m |>.2 (Nat.even_iff.2 (by simpa [Interval.ofBinary] using hclosed))
  obtain ⟨t, rfl⟩ : ∃ t, v = t * 2 ^ e := ⟨v / 2 ^ e, (div_mul_cancel₀ v hpos.ne').symm⟩
  obtain ⟨⟨hlow, hhigh⟩, hleast, hgreatest⟩ := h
  rw [mul_div_cancel_right₀ t hpos.ne']
  rw [greatest_eq, mul_le_mul_iff_left₀ hpos] at hhigh
  rw [greatest_eq, mul_left_inj' hpos.ne'] at hgreatest
  rcases least_eq hm e with ⟨_, hend⟩ | ⟨rfl, hend⟩
  · rw [hend, mul_le_mul_iff_left₀ hpos] at hlow
    rw [hend, mul_left_inj' hpos.ne'] at hleast
    refine ⟨abs_le.2 ⟨?_, ?_⟩, fun htie => heven ?_⟩
    · push_cast
      linarith
    · push_cast
      linarith
    · rcases eq_or_eq_neg_of_abs_eq htie with htie | htie <;> push_cast at htie
      · exact hleast (by linarith)
      · exact hgreatest (by linarith)
  · rw [hend, mul_le_mul_iff_left₀ hpos] at hlow
    refine ⟨abs_le.2 ⟨?_, ?_⟩, fun _ => heven rfl⟩
    · push_cast at hhigh ⊢
      linarith
    · push_cast at hlow ⊢
      linarith

/-- What lies inside the interval of a positive double is rounded to it. -/
theorem rounds_of_inside (h : Normal m e) (hm : m ≠ 0)
    (hinside : (Interval.ofBinary m e).Inside (e - 2) v) : Rounds v (m * 2 ^ e) := by
  have hpos : (0 : ℚ) < 2 ^ e := by positivity
  have hnearest := nearest_of_inside hm hinside
  obtain ⟨hlow, hhigh⟩ := hinside.contains
  rw [greatest_eq] at hhigh
  have hlt : v < 2 ^ (e + 53) := by
    have hmantissa : (m : ℚ) + 1 ≤ 2 ^ 53 := by exact_mod_cast h.lt
    rw [two_zpow_add]
    exact hhigh.trans_lt (mul_lt_mul_of_pos_right (by linarith) hpos)
  have hv : 0 ≤ v := le_trans (by positivity) hlow
  by_cases hfull : e = -1074 ∨ 2 ^ (e + 52) ≤ v
  · refine ⟨m, e, by push_cast; rfl, hnearest, h.least, ?_, ?_⟩
    · rwa [abs_of_nonneg hv]
    · rwa [abs_of_nonneg hv]
  -- the number is below a power of two and is rounded up to it
  obtain ⟨hne, hbelow⟩ := not_or.1 hfull
  rw [not_le, two_zpow_add] at hbelow
  have hbits : 2 ^ 52 ≤ m := h.full.resolve_left hne
  have he : -1074 < e := lt_of_le_of_ne h.least (Ne.symm hne)
  rcases least_eq hm e with ⟨hpower, hend⟩ | ⟨rfl, hend⟩
  · have hmantissa : (2 ^ 52 : ℚ) + 1 ≤ m := by
      have : m ≠ 2 ^ 52 := fun heq => hpower ⟨heq, he⟩
      exact_mod_cast (by omega : 2 ^ 52 + 1 ≤ m)
    rw [hend] at hlow
    have := lt_of_mul_lt_mul_right (hlow.trans_lt hbelow) hpos.le
    linarith
  · have hhalf : (2 : ℚ) ^ e = 2 * 2 ^ (e - 1) := by
      rw [zpow_sub_one₀ two_ne_zero]
      ring
    have hpos' : (0 : ℚ) < 2 ^ (e - 1) := by positivity
    rw [hend, hhalf, ← mul_assoc] at hlow
    rw [hhalf, ← mul_assoc] at hbelow
    refine ⟨2 ^ 53, e - 1, ?_, ⟨abs_le.2 ⟨?_, ?_⟩, fun _ => by decide⟩, by omega, ?_, .inr ?_⟩
    · rw [hhalf]
      push_cast
      ring
    · push_cast
      have := (div_lt_iff₀ hpos').2 hbelow
      linarith
    · have := (le_div_iff₀ hpos').2 hlow
      push_cast at this ⊢
      linarith
    · rw [abs_of_nonneg hv, two_zpow_add]
      linarith
    · rw [abs_of_nonneg hv, two_zpow_add]
      push_cast at hlow
      linarith

end Interval

/-! ## The size of digits -/

/-- How many powers of ten stand before the point; negative for zeros behind it. -/
def size (d : Digits) : ℤ := (Nat.toDigits 10 d.digits).length + d.exponent

theorem value_lt_zpow_size (d : Digits) : d.value < 10 ^ d.size := by
  have hlt : d.digits < 10 ^ (Nat.toDigits 10 d.digits).length :=
    (Nat.length_toDigits_le_iff (by norm_num) Nat.length_toDigits_pos).1 le_rfl
  rw [value, size, zpow_add₀ (by norm_num), zpow_natCast]
  exact mul_lt_mul_of_pos_right (by exact_mod_cast hlt) (by positivity)

theorem zpow_size_le_value {d : Digits} (hd : d.digits ≠ 0) : 10 ^ (d.size - 1) ≤ d.value := by
  obtain ⟨k, hk⟩ : ∃ k, (Nat.toDigits 10 d.digits).length = k + 1 :=
    Nat.exists_eq_add_one.2 Nat.length_toDigits_pos
  have hle : 10 ^ k ≤ d.digits := by
    cases k with
    | zero => exact Nat.pos_of_ne_zero hd
    | succ k =>
        by_contra hlt
        have := (Nat.length_toDigits_le_iff (b := 10) (by norm_num) k.succ_pos).2 (not_le.1 hlt)
        omega
  rw [value, size, hk, show ((k + 1 : ℕ) : ℤ) + d.exponent - 1 = k + d.exponent by push_cast; ring,
    zpow_add₀ (by norm_num), zpow_natCast]
  exact mul_le_mul_of_nonneg_right (by exact_mod_cast hle) (by positivity)

end Digits

/-! ## Reading digits -/

theorem roundsTo_nearestDecimal (negative : Bool) {d : Digits} (hd : d.digits ≠ 0)
    (hlow : -330 ≤ d.size) (hhigh : d.size ≤ 310) :
    RoundsTo (nearestDecimal negative d.digits d.exponent)
      ((if negative then -1 else 1) * d.value) := by
  have hquotient : ((d.digits * 10 ^ d.exponent.toNat : ℕ) : ℚ) / (10 ^ (-d.exponent).toNat : ℕ) =
      d.value := by
    push_cast
    rw [Digits.pow_toNat (by norm_num) d.exponent, Digits.value]
    field_simp
  have hsize : ((Nat.toDigits 10 d.digits).length : ℤ) + d.exponent = d.size := rfl
  rw [nearestDecimal]
  simp only [hsize, hd, false_or, not_lt.2 hlow, not_lt.2 hhigh, if_false, Nat.pow_eq]
  rw [← hquotient]
  exact Binary.roundsTo_nearest negative _ (by positivity)

/-- Ten is a little more than `2 ^ (93 / 28)`. -/
theorem two_pow_le_ten_pow {a c : ℕ} (h : 28 * a ≤ 93 * c) : (2 : ℚ) ^ a ≤ 10 ^ c := by
  refine (pow_le_pow_iff_left₀ (by positivity) (by positivity) (n := 28) (by norm_num)).1 ?_
  calc ((2 : ℚ) ^ a) ^ 28 = 2 ^ (28 * a) := by rw [← pow_mul, mul_comm]
    _ ≤ 2 ^ (93 * c) := pow_le_pow_right₀ one_le_two h
    _ = (2 ^ 93) ^ c := pow_mul 2 93 c
    _ ≤ (10 ^ 28) ^ c := pow_le_pow_left₀ (by positivity) (by norm_num) c
    _ = (10 ^ c) ^ 28 := by rw [← pow_mul, ← pow_mul, mul_comm]

/-- Half of the least double is not too small to be rounded. -/
theorem Digits.le_size {d : Digits} (h : (2 : ℚ) ^ (-1075 : ℤ) ≤ d.value) : -330 ≤ d.size := by
  by_contra hlt
  have hten : (10 : ℚ) ^ (-331 : ℤ) ≤ 2 ^ (-1075 : ℤ) := by
    rw [zpow_neg, zpow_neg, zpow_ofNat, zpow_ofNat]
    exact inv_anti₀ (by positivity) (two_pow_le_ten_pow (by norm_num))
  have hsize : (10 : ℚ) ^ d.size ≤ 10 ^ (-331 : ℤ) := zpow_le_zpow_right₀ (by norm_num) (by omega)
  exact absurd (d.value_lt_zpow_size.trans_le (hsize.trans (hten.trans h))) (lt_irrefl _)

/-- What does not overflow is not too large to be rounded. -/
theorem Digits.size_le {d : Digits} (hd : d.digits ≠ 0) (h : d.value < 2 ^ (1024 : ℤ)) :
    d.size ≤ 310 := by
  by_contra hlt
  have hten : (2 : ℚ) ^ (1024 : ℤ) ≤ 10 ^ (310 : ℤ) := by
    rw [zpow_ofNat, zpow_ofNat]
    exact two_pow_le_ten_pow (by norm_num)
  have hsize : (10 : ℚ) ^ (310 : ℤ) ≤ 10 ^ (d.size - 1) :=
    zpow_le_zpow_right₀ (by norm_num) (by omega)
  exact absurd (((h.trans_le hten).trans_le hsize).trans_le (Digits.zpow_size_le_value hd))
    (lt_irrefl _)

/-- Digits inside the interval of a double are read as the double. -/
theorem denotes_nearestDecimal {x : Float} {b : Binary} (hb : Binary.ofFloat? x = some b)
    (hm : b.mantissa ≠ 0) {d : Digits}
    (hd : (Digits.Interval.ofBinary b.mantissa b.exponent).Inside (b.exponent - 2) d.value) :
    Denotes (nearestDecimal b.negative d.digits d.exponent) b.value := by
  have hnormal := Binary.normal_of_ofFloat? hb
  have hrounds := Digits.rounds_of_inside hnormal hm hd
  have hoverflow : |b.value| < 2 ^ (1024 : ℤ) := Denotes.lt_overflow ⟨b, hb, rfl⟩
  have hlow : (2 : ℚ) ^ (-1075 : ℤ) ≤ d.value := by
    have hpos : (0 : ℚ) < 2 ^ b.exponent := by positivity
    have hone : (1 : ℚ) ≤ b.mantissa := by exact_mod_cast Nat.pos_of_ne_zero hm
    have hwithin := (abs_le.1 (Digits.nearest_of_inside hm hd).within).2
    have hhalf : (1 / 2 : ℚ) ≤ d.value / 2 ^ b.exponent := by
      push_cast at hwithin
      linarith
    calc (2 : ℚ) ^ (-1075 : ℤ) ≤ 2 ^ (b.exponent - 1) :=
          zpow_le_zpow_right₀ one_le_two (by
            have hleast := hnormal.least
            simp only [Binary.leastExponent] at hleast
            omega)
      _ = 1 / 2 * 2 ^ b.exponent := by
          rw [zpow_sub_one₀ two_ne_zero]
          ring
      _ ≤ d.value := (le_div_iff₀ hpos).1 hhalf
  have hhigh : d.value < 2 ^ (1024 : ℤ) := by
    by_contra hle
    rw [b.abs_value] at hoverflow
    exact absurd (hrounds.ge (representable_zpow (by norm_num)) (not_lt.1 hle))
      (not_le.2 hoverflow)
  have hdigits : d.digits ≠ 0 := by
    intro hzero
    rw [Digits.value, hzero, Nat.cast_zero, zero_mul] at hlow
    exact absurd hlow (not_le.2 (by positivity))
  obtain ⟨r, hr, hx⟩ :=
    roundsTo_nearestDecimal b.negative hdigits (Digits.le_size hlow) (Digits.size_le hdigits hhigh)
  have hsigned : Rounds ((if b.negative then -1 else 1) * d.value) b.value := by
    rw [Binary.value]
    cases b.negative with
    | false => simpa using hrounds
    | true => simpa using hrounds.neg
  rw [← hr.unique hsigned] at hoverflow ⊢
  exact hx hoverflow

end MapStyle

/-
# `MapStyle.Proofs.Decimal.Arithmetic` — sums, products and quotients are rounded correctly

The arithmetic of doubles shifts a mantissa until it has the bits of a double, and of the bits that
fall away it keeps what rounding needs to know.  What is left represents the exact result
(`Represents`), whatever the number of shifts, and so the operations come to their exact results
rounded: `Denotes.add`, `Denotes.sub`, `Denotes.mul`, `Denotes.div`.

The remainder of a division is exact; here it is only needed how large it is and which sign it has
(`remainder_bounds`).
-/
import MapStyle.Proofs.Decimal.Rounding

namespace MapStyle

open Float.Model (Format UnpackedFloat totalExponent)
open Float.Model.UnpackedFloat (Sign Accuracy ExtendedMantissa shiftToTargetExponent
  shiftToExponent roundWithAccuracy decreaseExponent accuracyOfFraction divCore)

/-! ## Residual bits -/

/-- A number of which a mantissa is the whole part and the residual bits tell the rest. -/
def Represents (em : ExtendedMantissa) (t : ℚ) : Prop :=
  match em.accuracy with
  | .exact => t = em.mantissa
  | .inexact o => em.mantissa < t ∧ t < em.mantissa + 1 ∧ compare t (em.mantissa + 1 / 2) = o

theorem Nearest.of_lt {n : ℤ} {t : ℚ} (h : |n - t| < 1 / 2) : Nearest n t :=
  ⟨h.le, fun heq => absurd heq h.ne⟩

namespace Represents

variable {em : ExtendedMantissa} {t : ℚ}

/-- The whole part of what is represented. -/
theorem bounds (h : Represents em t) : em.mantissa ≤ t ∧ t < em.mantissa + 1 := by
  rw [Represents] at h
  split at h
  · subst h
    constructor <;> linarith
  · exact ⟨h.1.le, h.2.1⟩

theorem nearest (h : Represents em t) : Nearest em.roundedMantissa t := by
  rw [Represents] at h
  rw [ExtendedMantissa.roundedMantissa]
  split at h
  · rename_i hexact
    rw [hexact, h]
    exact_mod_cast Nearest.self em.mantissa
  · rename_i o hinexact
    rw [hinexact]
    obtain ⟨hlow, hhigh, ho⟩ := h
    cases o with
    | lt =>
        have ho := compare_lt_iff_lt.1 ho
        refine Nearest.of_lt ?_
        simp only [Accuracy.roundToNearestEven]
        rw [abs_sub_lt_iff]
        constructor <;> push_cast <;> linarith
    | eq =>
        have ho := compare_eq_iff_eq.1 ho
        simp only [Accuracy.roundToNearestEven]
        refine ⟨?_, fun _ => ?_⟩
        · rw [ho]
          rcases Nat.mod_two_eq_zero_or_one em.mantissa with hmod | hmod <;> rw [hmod] <;>
            push_cast <;> norm_num
        · exact_mod_cast Nat.even_iff.2 (by omega)
    | gt =>
        have ho := compare_gt_iff_gt.1 ho
        refine Nearest.of_lt ?_
        simp only [Accuracy.roundToNearestEven]
        rw [abs_sub_lt_iff]
        constructor <;> push_cast <;> linarith

theorem shiftRightOne (h : Represents em t) : Represents em.shiftRightOne (t / 2) := by
  obtain ⟨m, roundBit, stickyBit⟩ := em
  have hm : ((m / 2 : ℕ) : ℚ) = (m - (m % 2 : ℕ)) / 2 := by
    have : ((2 * (m / 2) + m % 2 : ℕ) : ℚ) = m := by exact_mod_cast Nat.div_add_mod m 2
    push_cast at this ⊢
    linarith
  have hbit : (1 != 0) = true := rfl
  -- the last bit of the mantissa becomes the round bit
  rcases Nat.mod_two_eq_zero_or_one m with hmod | hmod <;> rw [hmod] at hm <;>
    cases roundBit <;> cases stickyBit <;>
    simp only [Represents, ExtendedMantissa.shiftRightOne, ExtendedMantissa.accuracy, hmod, hm,
      Bool.or_false, Bool.or_true, bne_self_eq_false, hbit, compare_lt_iff_lt, compare_eq_iff_eq,
      compare_gt_iff_gt] at h ⊢ <;>
    grind

theorem shiftRight (h : Represents em t) (k : ℕ) : Represents (em >>> k) (t / 2 ^ k) := by
  induction k with
  | zero =>
      rw [pow_zero, div_one]
      exact h
  | succ k ih =>
      rw [pow_succ, ← div_div]
      exact ih.shiftRightOne

end Represents

theorem represents_exact (m : ℕ) :
    Represents (ExtendedMantissa.ofMantissaAndAccuracy m .exact) m := rfl

theorem accuracy_ofAccuracy (m : ℕ) (a : Accuracy) :
    (ExtendedMantissa.ofMantissaAndAccuracy m a).accuracy = a := by
  cases a with
  | exact => rfl
  | inexact o => cases o <;> rfl

/-- A quotient is its whole part with the accuracy of the remainder. -/
theorem represents_quotient (num : ℕ) {den : ℕ} (hden : 0 < den) :
    Represents (ExtendedMantissa.ofMantissaAndAccuracy (num / den)
      (accuracyOfFraction (num % den) den)) (num / den) := by
  have hpos : (0 : ℚ) < den := by exact_mod_cast hden
  have hsplit := Binary.cast_div_eq num hden
  have hlt : ((num % den : ℕ) : ℚ) / den < 1 := by
    rw [div_lt_one hpos]
    exact_mod_cast Nat.mod_lt num hden
  rw [Represents, accuracy_ofAccuracy, mantissa_ofAccuracy, hsplit, accuracyOfFraction]
  generalize num % den = r at hlt
  split
  · rename_i hexact
    split at hexact
    · rename_i hzero
      rw [hzero, Nat.cast_zero, zero_div, add_zero]
    · cases hexact
  · rename_i o hinexact
    split at hinexact
    · cases hinexact
    · rename_i hne
      cases hinexact
      have hr : (0 : ℚ) < r / den := by
        have : (0 : ℚ) < r := by exact_mod_cast Nat.pos_of_ne_zero hne
        positivity
      refine ⟨by linarith, by linarith, ?_⟩
      have hcompare : ∀ q : ℚ, compare (q + r / den) (q + 1 / 2) = compare (2 * r) den := by
        intro q
        rcases Nat.lt_trichotomy (2 * r) den with hlt | heq | hgt
        · rw [compare_lt_iff_lt.2 hlt, compare_lt_iff_lt, add_lt_add_iff_left, div_lt_iff₀ hpos]
          have : ((2 * r : ℕ) : ℚ) < den := by exact_mod_cast hlt
          push_cast at this
          linarith
        · rw [compare_eq_iff_eq.2 heq, compare_eq_iff_eq, add_right_inj, div_eq_iff hpos.ne']
          have : ((2 * r : ℕ) : ℚ) = den := by exact_mod_cast heq
          push_cast at this
          linarith
        · rw [compare_gt_iff_gt.2 hgt, compare_gt_iff_gt, add_lt_add_iff_left,
            lt_div_iff₀ hpos]
          have : ((den : ℕ) : ℚ) < (2 * r : ℕ) := by exact_mod_cast hgt
          push_cast at this
          linarith
      exact hcompare _

/-! ## Rounding of a mantissa -/

theorem targetExponent_eq (m : ℕ) (e : ℤ) :
    Format.binary64.targetExponent (totalExponent m e) = max (m.log2 + e - 52) (-1074) := by
  have hmin : Format.binary64.minExponent = -1074 := by decide
  rw [Format.targetExponent, hmin, totalExponent]
  congr 1
  simp only [Format.mantissaBits]
  omega

/-- A mantissa of at most 53 bits stays as it is. -/
theorem shiftToTargetExponent_of_lt {M : ℕ} {e : ℤ} (hM : M < 2 ^ 53) (he : -1074 ≤ e) :
    shiftToTargetExponent Format.binary64 M e .exact = (⟨M, false, false⟩, e) := by
  have hlog : M.log2 ≤ 52 := by
    by_cases h0 : M = 0
    · simp [h0]
    · have := (Nat.log2_lt h0).2 hM
      omega
  have hshift : (max ((M.log2 : ℤ) + e - 52) (-1074) - e).toNat = 0 := by omega
  simp only [shiftToTargetExponent, targetExponent_eq, shiftToExponent, hshift, Nat.cast_zero,
    add_zero]
  rfl

/-- A mantissa that was rounded up to 54 bits loses the last one. -/
theorem shiftToTargetExponent_carry {e : ℤ} (he : -1074 ≤ e) :
    shiftToTargetExponent Format.binary64 (2 ^ 53) e .exact = (⟨2 ^ 52, false, false⟩, e + 1) := by
  have hlog : (2 ^ 53 : ℕ).log2 = 53 := Nat.log2_two_pow
  have hshift : (max (((2 ^ 53 : ℕ).log2 : ℤ) + e - 52) (-1074) - e).toNat = 1 := by
    rw [hlog]
    omega
  simp only [shiftToTargetExponent, targetExponent_eq, shiftToExponent, hshift, Nat.cast_one]
  rfl

/-- Two shifts and a rounding between them. -/
theorem roundWithAccuracy_unpacked (negative : Bool) {m : ℕ} {e e' e'' : ℤ} {a : Accuracy}
    {em em' : ExtendedMantissa}
    (hshift : shiftToTargetExponent Format.binary64 m e a = (em, e'))
    (hagain : shiftToTargetExponent Format.binary64 em.roundedMantissa e' .exact = (em', e'')) :
    roundWithAccuracy Format.binary64 (signOf negative) m e a =
      Binary.unpacked ⟨negative, em'.mantissa, e''⟩ := by
  rw [roundWithAccuracy]
  simp only [hshift, hagain, Binary.unpacked]
  by_cases h0 : em'.mantissa = 0
  · rw [dif_pos h0, dif_neg (by omega)]
  · rw [dif_neg h0, dif_pos (Nat.pos_of_ne_zero h0)]

theorem roundWithAccuracy_eq (negative : Bool) {m : ℕ} {e : ℤ} {a : Accuracy}
    {em : ExtendedMantissa} {E : ℕ}
    (hshift : shiftToTargetExponent Format.binary64 m e a = (em, (E : ℤ) - 1074))
    (hM : em.roundedMantissa ≤ 2 ^ 53) (hfull : E = 0 ∨ 2 ^ 52 ≤ em.roundedMantissa) :
    roundWithAccuracy Format.binary64 (signOf negative) m e a =
      (Binary.ofMagnitude negative (E * 2 ^ 52 + em.roundedMantissa)).unpacked := by
  have hE : -1074 ≤ (E : ℤ) - 1074 := by omega
  rcases Nat.lt_or_eq_of_le hM with hlt | heq
  · rw [Binary.ofMagnitude_of_lt negative hlt hfull]
    exact roundWithAccuracy_unpacked negative hshift (shiftToTargetExponent_of_lt hlt hE)
  · rw [roundWithAccuracy_unpacked negative hshift (heq ▸ shiftToTargetExponent_carry hE), heq,
      Binary.ofMagnitude_carry]
    congr 2
    omega

/-- A mantissa with residual bits is rounded to the nearest double, provided that it has all bits
that a double can have. -/
theorem roundsTo_roundWithAccuracy (negative : Bool) {m : ℕ} {e : ℤ} {a : Accuracy} {t : ℚ}
    (ht : Represents (ExtendedMantissa.ofMantissaAndAccuracy m a) t)
    (he : e ≤ -1074 ∨ 52 ≤ m.log2) :
    RoundsTo (Float.ofModel (.pack (roundWithAccuracy Format.binary64 (signOf negative) m e a)))
      ((if negative then -1 else 1) * (t * 2 ^ e)) := by
  obtain ⟨E, hE⟩ : ∃ E : ℕ, max ((m.log2 : ℤ) + e - 52) (-1074) = E - 1074 := by
    obtain ⟨E, hE⟩ := Int.le.dest (le_max_right ((m.log2 : ℤ) + e - 52) (-1074))
    exact ⟨E, by omega⟩
  obtain ⟨k, hk⟩ := Int.le.dest (show e ≤ (E : ℤ) - 1074 by omega)
  have hshift : shiftToTargetExponent Format.binary64 m e a =
      (ExtendedMantissa.ofMantissaAndAccuracy m a >>> k, (E : ℤ) - 1074) := by
    have hk' : ((E : ℤ) - 1074 - e).toNat = k := by omega
    simp only [shiftToTargetExponent, targetExponent_eq, shiftToExponent, hE, hk', hk]
  have hquotient : t * 2 ^ e / 2 ^ ((E : ℤ) - 1074) = t / 2 ^ k := by
    rw [← hk, zpow_add₀ two_ne_zero, zpow_natCast]
    field_simp
  obtain ⟨hlow, hhigh⟩ := ht.bounds
  rw [mantissa_ofAccuracy] at hlow hhigh
  have hq : 0 ≤ t * 2 ^ e := mul_nonneg (m.cast_nonneg.trans hlow) (by positivity)
  have hlt : t * 2 ^ e < 2 ^ ((E : ℤ) - 1074 + 53) := by
    have hm : ((m + 1 : ℕ) : ℚ) ≤ 2 ^ (m.log2 + 1) := by exact_mod_cast Nat.lt_log2_self
    push_cast at hm
    calc t * 2 ^ e < 2 ^ (m.log2 + 1) * 2 ^ e :=
          mul_lt_mul_of_pos_right (hhigh.trans_le hm) (by positivity)
      _ = 2 ^ ((m.log2 : ℤ) + 1 + e) := by
          rw [zpow_add₀ two_ne_zero]
          norm_cast
      _ ≤ 2 ^ ((E : ℤ) - 1074 + 53) := zpow_le_zpow_right₀ one_le_two (by omega)
  have hfull : E = 0 ∨ 2 ^ ((E : ℤ) - 1074 + 52) ≤ t * 2 ^ e := by
    by_cases h0 : E = 0
    · exact .inl h0
    · have hbits : 52 ≤ m.log2 := by omega
      have hne : m ≠ 0 := by
        rintro rfl
        simp at hbits
      have hm : (2 : ℚ) ^ m.log2 ≤ m := by exact_mod_cast Nat.log2_self_le hne
      right
      calc (2 : ℚ) ^ ((E : ℤ) - 1074 + 52) = 2 ^ ((m.log2 : ℤ) + e) := by
            congr 1
            omega
        _ = 2 ^ m.log2 * 2 ^ e := by rw [zpow_add₀ two_ne_zero, zpow_natCast]
        _ ≤ t * 2 ^ e := mul_le_mul_of_nonneg_right (hm.trans hlow) (by positivity)
  have hn : Nearest (ExtendedMantissa.ofMantissaAndAccuracy m a >>> k).roundedMantissa
      (t * 2 ^ e / 2 ^ ((E : ℤ) - 1074)) := hquotient ▸ (ht.shiftRight k).nearest
  obtain ⟨_, hM, hfullM⟩ := Rounds.parts hq hn (by omega) hlt
    (hfull.imp_left fun h0 => by rw [h0]; rfl)
  refine roundsTo_of_nearest negative hq hn hlt hfull fun hbits => ?_
  rw [roundWithAccuracy_eq negative hshift hM (hfullM.imp_left fun h0 => by omega),
    ← unpack_of_ofFloat? (Binary.ofFloat?_withSign negative hbits), ofModel_pack_unpack]

/-! ## Exact forms as operands -/

theorem Denotes.roundsTo {x : Float} {q : ℚ} (h : Denotes x q) : RoundsTo x q := by
  refine ⟨q, ?_, fun _ => h⟩
  obtain ⟨b, hb, rfl⟩ := h
  obtain ⟨hleast, hlt, hfull⟩ := Binary.normal_of_ofFloat? hb
  have hpos : (0 : ℚ) < 2 ^ b.exponent := by positivity
  have habs : |b.value| = b.mantissa * 2 ^ b.exponent := b.abs_value
  have hlt' : (b.mantissa : ℚ) < 2 ^ 53 := by exact_mod_cast hlt
  refine ⟨if b.negative then -b.mantissa else b.mantissa, b.exponent, ?_, ?_, hleast, ?_, ?_⟩
  · rw [Binary.value]
    split <;> push_cast <;> ring
  · convert Nearest.self (if b.negative then -b.mantissa else b.mantissa) using 1
    rw [Binary.value]
    split <;> push_cast <;> field_simp
  · rw [habs, two_zpow_add]
    exact mul_lt_mul_of_pos_right hlt' hpos
  · refine hfull.imp_right fun hfull => ?_
    have hfull : (2 : ℚ) ^ 52 ≤ b.mantissa := by exact_mod_cast hfull
    rw [habs, two_zpow_add]
    exact mul_le_mul_of_nonneg_right hfull hpos.le

theorem denotes_zero (s : Sign) : Denotes (Float.ofModel (.pack (.zero s))) 0 := by
  obtain ⟨negative, rfl⟩ : ∃ negative, s = signOf negative := by
    cases s with
    | negative => exact ⟨true, rfl⟩
    | positive => exact ⟨false, rfl⟩
  have hbits : (0 : ℕ) < Binary.infinityBits := by decide
  have hzero : (Binary.ofMagnitude negative 0).unpacked = .zero (signOf negative) := rfl
  rw [← hzero, ← unpack_of_ofFloat? (Binary.ofFloat?_withSign negative hbits),
    ofModel_pack_unpack]
  refine ⟨_, Binary.ofFloat?_withSign negative hbits, ?_⟩
  simp [Binary.value, Binary.ofMagnitude]

theorem unpack_of_mantissa {x : Float} {b : Binary} (h : Binary.ofFloat? x = some b)
    (hm : 0 < b.mantissa) :
    x.toModel.unpack = .finite (signOf b.negative) b.mantissa b.exponent hm := by
  rw [unpack_of_ofFloat? h, Binary.unpacked, dif_pos hm]

theorem unpack_of_zero {x : Float} {b : Binary} (h : Binary.ofFloat? x = some b)
    (hm : b.mantissa = 0) : x.toModel.unpack = .zero (signOf b.negative) := by
  rw [unpack_of_ofFloat? h, Binary.unpacked, dif_neg (by omega)]

theorem Binary.value_of_zero {b : Binary} (hm : b.mantissa = 0) : b.value = 0 := by
  simp [value, hm]

/-! ## Products -/

theorem signOf_mul (m n : Bool) : signOf m * signOf n = signOf (m != n) := by
  cases m <;> cases n <;> rfl

theorem log2_le_log2 {m n : ℕ} (h : 2 ^ m ≤ n) : m ≤ n.log2 := by
  refine (Nat.le_log2 ?_).2 h
  rintro rfl
  simp at h

section Operations

variable {x y : Float} {p q : ℚ}

theorem Denotes.mul (hx : Denotes x p) (hy : Denotes y q) : RoundsTo (x * y) (p * q) := by
  obtain ⟨a, ha, rfl⟩ := hx
  obtain ⟨b, hb, rfl⟩ := hy
  have hmul : x * y = Float.ofModel (.pack (UnpackedFloat.mul Format.binary64 x.toModel.unpack
    y.toModel.unpack)) := rfl
  rw [hmul]
  rcases Nat.eq_zero_or_pos a.mantissa with ha0 | hapos
  · rw [unpack_of_zero ha ha0, Binary.value_of_zero ha0, zero_mul, unpack_of_ofFloat? hb,
      Binary.unpacked]
    split <;> exact (denotes_zero _).roundsTo
  rcases Nat.eq_zero_or_pos b.mantissa with hb0 | hbpos
  · rw [unpack_of_zero hb hb0, Binary.value_of_zero hb0, mul_zero, unpack_of_mantissa ha hapos]
    exact (denotes_zero _).roundsTo
  rw [unpack_of_mantissa ha hapos, unpack_of_mantissa hb hbpos, UnpackedFloat.mul, signOf_mul]
  have hbits : a.exponent + b.exponent ≤ -1074 ∨ 52 ≤ (a.mantissa * b.mantissa).log2 := by
    have hleast : Binary.leastExponent = -1074 := rfl
    rcases (Binary.normal_of_ofFloat? ha).full with hae | ham
    · rcases (Binary.normal_of_ofFloat? hb).full with hbe | hbm
      · left
        omega
      · exact .inr (log2_le_log2 (hbm.trans (Nat.le_mul_of_pos_left _ hapos)))
    · exact .inr (log2_le_log2 (ham.trans (Nat.le_mul_of_pos_right _ hbpos)))
  convert roundsTo_roundWithAccuracy (a.negative != b.negative)
    (represents_exact (a.mantissa * b.mantissa)) hbits using 1
  rw [Binary.value, Binary.value, zpow_add₀ two_ne_zero, Nat.cast_mul]
  cases a.negative <;> cases b.negative <;> norm_num <;> ring

/-! ## Sums -/

theorem shiftLeft_mul_zpow (m k : ℕ) (e : ℤ) :
    ((m <<< k : ℕ) : ℚ) * 2 ^ (e - k) = m * 2 ^ e := by
  rw [Nat.shiftLeft_eq, zpow_sub₀ two_ne_zero, zpow_natCast]
  push_cast
  field_simp

/-- A mantissa of any number of bits is rounded to the nearest double. -/
theorem roundsTo_round (negative : Bool) {m : ℕ} (hm : m ≠ 0) (e : ℤ) :
    RoundsTo (Float.ofModel (.pack (UnpackedFloat.round Format.binary64 (signOf negative) m e)))
      ((if negative then -1 else 1) * (m * 2 ^ e)) := by
  simp only [UnpackedFloat.round, decreaseExponent, targetExponent_eq]
  obtain ⟨k, hk⟩ : ∃ k, k = (e - max ((m.log2 : ℤ) + e - 52) (-1074)).toNat := ⟨_, rfl⟩
  rw [← hk, ← shiftLeft_mul_zpow m k e]
  refine roundsTo_roundWithAccuracy negative (represents_exact _) ?_
  rw [Nat.shiftLeft_eq, Binary.log2_mul_two_pow hm]
  omega

theorem roundsTo_normalize (z e : ℤ) :
    RoundsTo (Float.ofModel (.pack (UnpackedFloat.normalize Format.binary64 z e .positive)))
      (z * 2 ^ e) := by
  rw [UnpackedFloat.normalize]
  split
  · rename_i hlt
    have hneg : z < 0 := compare_lt_iff_lt.1 hlt
    have hcast : (((-z).toNat : ℕ) : ℚ) = -z := by
      exact_mod_cast Int.toNat_of_nonneg (by omega : 0 ≤ -z)
    have hround : RoundsTo (Float.ofModel (.pack (UnpackedFloat.round Format.binary64 .negative
      (-z).toNat e))) _ := roundsTo_round true (by omega) e
    rw [hcast] at hround
    simpa using hround
  · rename_i heq
    rw [compare_eq_iff_eq.1 heq, Int.cast_zero, zero_mul]
    exact (denotes_zero _).roundsTo
  · rename_i hgt
    have hpos : 0 < z := compare_gt_iff_gt.1 hgt
    have hcast : ((z.toNat : ℕ) : ℚ) = z := by
      exact_mod_cast Int.toNat_of_nonneg hpos.le
    have hround : RoundsTo (Float.ofModel (.pack (UnpackedFloat.round Format.binary64 .positive
      z.toNat e))) _ := roundsTo_round false (by omega) e
    rw [hcast] at hround
    simpa using hround

theorem Binary.value_eq_shifted (c : Binary) {e : ℤ} (hc : e ≤ c.exponent) :
    c.value = ((signOf c.negative).apply (c.mantissa <<< (c.exponent - e).toNat : ℕ) : ℤ) *
      2 ^ e := by
  obtain ⟨k, hk⟩ := Int.le.dest hc
  have hshift := shiftLeft_mul_zpow c.mantissa k c.exponent
  rw [show c.exponent - k = e by omega] at hshift
  rw [value, ← hshift, show (c.exponent - e).toNat = k by omega]
  generalize c.mantissa <<< k = m
  cases c.negative <;> simp [signOf, Sign.apply]

theorem Denotes.add (hx : Denotes x p) (hy : Denotes y q) : RoundsTo (x + y) (p + q) := by
  have hadd : x + y = Float.ofModel (.pack (UnpackedFloat.add Format.binary64 x.toModel.unpack
    y.toModel.unpack)) := rfl
  obtain ⟨a, ha, hp⟩ := id hx
  obtain ⟨b, hb, hq⟩ := id hy
  rw [hadd]
  rcases Nat.eq_zero_or_pos a.mantissa with ha0 | hapos
  · rw [unpack_of_zero ha ha0, ← hp, Binary.value_of_zero ha0, zero_add]
    rcases Nat.eq_zero_or_pos b.mantissa with hb0 | hbpos
    · rw [unpack_of_zero hb hb0, ← hq, Binary.value_of_zero hb0, UnpackedFloat.add]
      split <;> exact (denotes_zero _).roundsTo
    · have hunpack := unpack_of_mantissa hb hbpos
      rw [hunpack, UnpackedFloat.add, ← hunpack, ofModel_pack_unpack]
      · exact hy.roundsTo
      · nofun
      · nofun
      · nofun
  rcases Nat.eq_zero_or_pos b.mantissa with hb0 | hbpos
  · have hunpack := unpack_of_mantissa ha hapos
    rw [unpack_of_zero hb hb0, ← hq, Binary.value_of_zero hb0, add_zero, hunpack,
      UnpackedFloat.add, ← hunpack, ofModel_pack_unpack]
    · exact hx.roundsTo
    · nofun
    · nofun
    · nofun
  rw [unpack_of_mantissa ha hapos, unpack_of_mantissa hb hbpos]
  obtain ⟨e, he⟩ : ∃ e, e = min a.exponent b.exponent := ⟨_, rfl⟩
  rw [← hp, ← hq, a.value_eq_shifted (e := e) (by omega), b.value_eq_shifted (e := e) (by omega),
    ← add_mul, ← Int.cast_add]
  simp only [UnpackedFloat.add, decreaseExponent, ← he]
  exact roundsTo_normalize _ _

def Binary.opposite (b : Binary) : Binary := ⟨!b.negative, b.mantissa, b.exponent⟩

theorem Binary.value_opposite (b : Binary) : b.opposite.value = -b.value := by
  rw [value, value, opposite]
  cases b.negative <;> simp

theorem Binary.unpacked_opposite (b : Binary) : b.opposite.unpacked = b.unpacked.neg := by
  rw [unpacked, unpacked, opposite]
  dsimp only
  split <;> cases b.negative <;> rfl

theorem Binary.ofFloat?_neg {b : Binary} (h : ofFloat? x = some b) :
    ofFloat? (-x) = some b.opposite := by
  obtain ⟨bits, hbits, rfl, hb⟩ := eq_withSign h
  have hopposite : ofMagnitude (!b.negative) bits = b.opposite := by
    rw [opposite, hb, ofMagnitude, ofMagnitude]
    split <;> rfl
  have hneg : -withSign b.negative bits = withSign (!b.negative) bits := by
    have hunpack := unpack_of_ofFloat? (ofFloat?_withSign (!b.negative) hbits)
    rw [hopposite, unpacked_opposite, ← unpack_of_ofFloat? h] at hunpack
    rw [← ofModel_pack_unpack (withSign (!b.negative) bits), hunpack]
    rfl
  rw [hneg, ofFloat?_withSign _ hbits, hopposite]

theorem Denotes.neg (hx : Denotes x p) : Denotes (-x) (-p) := by
  obtain ⟨b, hb, rfl⟩ := hx
  exact ⟨_, Binary.ofFloat?_neg hb, b.value_opposite⟩

theorem sub_eq_add_opposite (u v : UnpackedFloat) :
    UnpackedFloat.sub Format.binary64 u v = UnpackedFloat.add Format.binary64 u v.neg := by
  rcases u with (_ | _) | _ | (_ | _) | ⟨s, m, e, hm⟩ <;>
    rcases v with (_ | _) | _ | (_ | _) | ⟨s', m', e', hm'⟩ <;> try rfl
  have hneg : ∀ z : ℤ, (-s').apply z = -s'.apply z := by
    intro z
    cases s' with
    | negative => exact (neg_neg z).symm
    | positive => rfl
  simp only [UnpackedFloat.sub, UnpackedFloat.add, UnpackedFloat.neg, hneg, sub_eq_add_neg]

theorem Denotes.sub (hx : Denotes x p) (hy : Denotes y q) : RoundsTo (x - y) (p - q) := by
  have hsub : x - y = x + -y := by
    obtain ⟨b, hb, _⟩ := id hy
    have hneg : (-y).toModel.unpack = y.toModel.unpack.neg := by
      rw [unpack_of_ofFloat? (Binary.ofFloat?_neg hb), Binary.unpacked_opposite,
        unpack_of_ofFloat? hb]
    show Float.ofModel (.pack (UnpackedFloat.sub Format.binary64 x.toModel.unpack
      y.toModel.unpack)) = Float.ofModel (.pack (UnpackedFloat.add Format.binary64
        x.toModel.unpack (-y).toModel.unpack))
    rw [hneg, sub_eq_add_opposite]
  rw [hsub, sub_eq_add_neg]
  exact hx.add hy.neg

/-! ## Quotients -/

theorem signOf_div (m n : Bool) : signOf m / signOf n = signOf (m != n) := by
  cases m <;> cases n <;> rfl

/-- Enough bits are brought down before a division. -/
theorem log2_quotient {m n k : ℕ} (hm : m ≠ 0) (hk : n.log2 + 53 ≤ m.log2 + k) (hn : 0 < n) :
    52 ≤ (m <<< k / n).log2 := by
  refine log2_le_log2 ((Nat.le_div_iff_mul_le hn).2 ?_)
  calc 2 ^ 52 * n ≤ 2 ^ 52 * 2 ^ (n.log2 + 1) := Nat.mul_le_mul_left _ Nat.lt_log2_self.le
    _ = 2 ^ (n.log2 + 53) := by
        rw [← pow_add]
        congr 1
        omega
    _ ≤ 2 ^ (m.log2 + k) := Nat.pow_le_pow_right two_pos hk
    _ ≤ m <<< k := by
        rw [Nat.shiftLeft_eq, pow_add]
        exact Nat.mul_le_mul_right _ (Nat.log2_self_le hm)

theorem Denotes.div (hx : Denotes x p) (hy : Denotes y q) (hne : q ≠ 0) :
    RoundsTo (x / y) (p / q) := by
  have hdiv : x / y = Float.ofModel (.pack (UnpackedFloat.div Format.binary64 x.toModel.unpack
    y.toModel.unpack)) := rfl
  obtain ⟨a, ha, rfl⟩ := hx
  obtain ⟨b, hb, rfl⟩ := hy
  have hbpos : 0 < b.mantissa :=
    Nat.pos_of_ne_zero fun hb0 => hne (Binary.value_of_zero hb0)
  rw [hdiv, unpack_of_mantissa hb hbpos]
  rcases Nat.eq_zero_or_pos a.mantissa with ha0 | hapos
  · rw [unpack_of_zero ha ha0, Binary.value_of_zero ha0, zero_div]
    exact (denotes_zero _).roundsTo
  rw [unpack_of_mantissa ha hapos]
  have hmin : Format.binary64.minExponent = -1074 := by decide
  simp only [UnpackedFloat.div, divCore, signOf_div, Format.targetExponent, hmin, totalExponent,
    Format.mantissaBits]
  obtain ⟨k, hk⟩ : ∃ k : ℕ, a.exponent - b.exponent - k = min (a.exponent - b.exponent)
      (max ((a.mantissa.log2 : ℤ) + 1 + a.exponent - (b.mantissa.log2 + 1 + b.exponent) -
        (1 + 52 : ℕ)) (-1074)) := by
    obtain ⟨k, hk⟩ := Int.le.dest (min_le_left (a.exponent - b.exponent)
      (max ((a.mantissa.log2 : ℤ) + 1 + a.exponent - (b.mantissa.log2 + 1 + b.exponent) -
        (1 + 52 : ℕ)) (-1074)))
    exact ⟨k, by omega⟩
  have hshift : (a.exponent - b.exponent - (a.exponent - b.exponent - (k : ℤ))).toNat = k := by
    omega
  rw [← hk, hshift]
  have hbits : a.exponent - b.exponent - k ≤ -1074 ∨
      52 ≤ (a.mantissa <<< k / b.mantissa).log2 := by
    by_cases hlow : a.exponent - b.exponent - (k : ℤ) ≤ -1074
    · exact .inl hlow
    · exact .inr (log2_quotient hapos.ne' (by omega) hbpos)
  convert roundsTo_roundWithAccuracy (a.negative != b.negative)
    (represents_quotient (a.mantissa <<< k) hbpos) hbits using 1
  have hvalue := shiftLeft_mul_zpow a.mantissa k a.exponent
  have hpos : (0 : ℚ) < b.mantissa := by exact_mod_cast hbpos
  rw [Binary.value, Binary.value, ← hvalue,
    show a.exponent - b.exponent - (k : ℤ) = a.exponent - k - b.exponent by ring,
    zpow_sub₀ two_ne_zero (a.exponent - k) b.exponent]
  generalize a.mantissa <<< k = m
  cases a.negative <;> cases b.negative <;> norm_num <;> field_simp

end Operations

/-! ## Remainders -/

theorem Binary.roundsTo_toFloat (b : Binary) : RoundsTo b.toFloat b.value := by
  have hnearest := roundsTo_nearest b.negative (b.mantissa * 2 ^ b.exponent.toNat)
    (Nat.two_pow_pos (-b.exponent).toNat).ne'
  rw [Digits.mul_pow_toNat_div] at hnearest
  exact hnearest

section Remainder

variable {x y : Float} {p c : ℚ}

/-- A remainder is an exact form of the sign of the dividend, and smaller than the divisor. -/
theorem remainder_exact {a b : Binary} (ha : Binary.ofFloat? x = some a)
    (hb : Binary.ofFloat? y = some b) (hc : 0 < b.value) :
    ∃ v : Binary, remainder x y = v.toFloat ∧ |v.value| < b.value ∧
      v.negative = a.negative ∧ (a.mantissa = 0 → v.mantissa = 0) := by
  have hbpos : b.mantissa ≠ 0 := fun h0 => hc.ne (Binary.value_of_zero h0).symm
  obtain ⟨q, hq⟩ : ∃ q, q = min a.exponent b.exponent := ⟨_, rfl⟩
  obtain ⟨n, hn⟩ : ∃ n, n = a.mantissa * 2 ^ (a.exponent - q).toNat := ⟨_, rfl⟩
  obtain ⟨d, hd⟩ : ∃ d, d = b.mantissa * 2 ^ (b.exponent - q).toNat := ⟨_, rfl⟩
  refine ⟨⟨a.negative, n % d, q⟩, ?_, ?_, rfl, fun hzero => by simp [hn, hzero]⟩
  · rw [remainder, ha, hb]
    simp only [if_neg hbpos, Nat.pow_eq, ← hq, ← hn, ← hd]
  · have hunit : (d : ℚ) * 2 ^ q = b.value := by
      obtain ⟨k, hk⟩ := Int.le.dest (show q ≤ b.exponent by omega)
      rw [← abs_of_pos hc, Binary.abs_value, hd, ← hk,
        show (q + (k : ℤ) - q).toNat = k by omega, ← Binary.mul_zpow_add]
    have hdpos : 0 < d := by
      rw [hd]
      exact Nat.mul_pos (Nat.pos_of_ne_zero hbpos) (Nat.two_pow_pos _)
    have hmod : ((n % d : ℕ) : ℚ) < d := by exact_mod_cast Nat.mod_lt n hdpos
    rw [Binary.abs_value, ← hunit]
    exact mul_lt_mul_of_pos_right hmod (by positivity)

/-- An exact form is negative only if its sign is and it is not zero. -/
theorem Binary.negative_of_value_lt {b : Binary} (h : b.value < 0) :
    b.negative = true ∧ 0 < b.mantissa := by
  have hpos : (0 : ℚ) ≤ b.mantissa * 2 ^ b.exponent := by positivity
  refine ⟨?_, Nat.pos_of_ne_zero fun h0 => h.ne (value_of_zero h0)⟩
  cases hnegative : b.negative with
  | true => rfl
  | false =>
      rw [value, hnegative, if_neg Bool.false_ne_true, one_mul] at h
      exact absurd h (not_lt.2 hpos)

/-- A remainder is smaller than the divisor and not of the opposite sign of the dividend. -/
theorem remainder_bounds (hx : Denotes x p) (hy : Denotes y c) (hc : 0 < c) :
    ∃ r, Denotes (remainder x y) r ∧ -c ≤ r ∧ r ≤ c ∧ (0 ≤ p → 0 ≤ r) := by
  obtain ⟨a, ha, rfl⟩ := hx
  obtain ⟨b, hb, rfl⟩ := id hy
  obtain ⟨v, hremainder, hlt, hsign, hzero⟩ := remainder_exact ha hb hc
  obtain ⟨hlow, hhigh⟩ := abs_lt.1 hlt
  have hrounds := v.roundsTo_toFloat
  rw [hremainder]
  rcases lt_or_ge v.value 0 with hneg | hnonneg
  · obtain ⟨r, hr, _, hrc, h0⟩ := hrounds.between hy.neg denotes_zero_literal hlow.le hneg.le
    refine ⟨r, hr, hrc, by linarith, fun hp => absurd hp (not_le.2 ?_)⟩
    -- a negative remainder comes of a negative dividend
    obtain ⟨hnegative, hm⟩ := Binary.negative_of_value_lt hneg
    have ha0 : (0 : ℚ) < a.mantissa := by
      exact_mod_cast Nat.pos_of_ne_zero fun h0 => hm.ne' (hzero h0)
    have hpos : (0 : ℚ) < a.mantissa * 2 ^ a.exponent := by positivity
    rw [Binary.value, ← hsign, hnegative, if_pos rfl]
    linarith
  · obtain ⟨r, hr, _, h0, hrc⟩ := hrounds.between denotes_zero_literal hy hnonneg hhigh.le
    exact ⟨r, hr, by linarith, hrc, fun _ => h0⟩

end Remainder

end MapStyle

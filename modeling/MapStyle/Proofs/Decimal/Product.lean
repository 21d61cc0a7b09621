/-
# `MapStyle.Proofs.Decimal.Product` — products that stay finite

A product overflows only where the exponents of its factors are large.  The color channels of a
document are such products: a channel in `[0, 1]` times 255.

* `isFinite_mul`: a product of doubles whose exponents sum up to at most 0 is finite.
* `Color.isFinite_wire`: the wire channels of a valid color are finite.
-/
import MapStyle.Proofs.Decimal.Zero

namespace MapStyle

open Float.Model (Format UnpackedFloat totalExponent)
open Float.Model.UnpackedFloat (Sign Accuracy ExtendedMantissa unpackExponent
  shiftToTargetExponent shiftToExponent roundWithAccuracy)

/-! ## Rounding -/

theorem mantissa_shift_le (k : Nat) (em : ExtendedMantissa) :
    (em >>> k).mantissa ≤ em.mantissa := by
  induction k with
  | zero => exact Nat.le_refl _
  | succ k ih =>
      show (em >>> k).mantissa / 2 ≤ em.mantissa
      omega

theorem mantissa_ofAccuracy (m : Nat) (a : Accuracy) :
    (ExtendedMantissa.ofMantissaAndAccuracy m a).mantissa = m := by
  cases a with
  | exact => rfl
  | inexact o => cases o <;> rfl

theorem roundedMantissa_le (em : ExtendedMantissa) : em.roundedMantissa ≤ em.mantissa + 1 := by
  rw [ExtendedMantissa.roundedMantissa]
  cases em.accuracy with
  | exact => exact Nat.le_succ _
  | inexact o => cases o <;> simp only [Accuracy.roundToNearestEven] <;> omega

/-- Shifting a mantissa of at most `n` bits lifts the exponent by no more than the bits beyond 53,
unless it is below the least one. -/
theorem shiftToTargetExponent_le {m n : Nat} {e : Int} {a : Accuracy} (hm : m < 2 ^ n) :
    (shiftToTargetExponent Format.binary64 m e a).1.mantissa ≤ m ∧
      (shiftToTargetExponent Format.binary64 m e a).2 ≤ max e (max (n + e - 52) (-1074)) := by
  have hmin : Format.binary64.minExponent = -1074 := by decide
  have hlog : m.log2 ≤ n := by
    by_cases h0 : m = 0
    · simp [h0]
    · exact Nat.le_of_lt ((Nat.log2_lt h0).2 hm)
  constructor
  · refine Nat.le_trans (mantissa_shift_le _ _) ?_
    exact Nat.le_of_eq (mantissa_ofAccuracy m a)
  · simp only [shiftToTargetExponent, shiftToExponent, Format.targetExponent, hmin, totalExponent,
      Format.mantissaBits]
    omega

/-! ## Packing -/

theorem isFinite_unpack {w : Word} (h : (unpackExponent w).toNat ≠ 2 ^ 11 - 1) :
    (UnpackedFloat.unpack Format.binary64 w).isFinite = true := by
  simp only [UnpackedFloat.unpack]
  rw [if_neg fun he => h (congrArg BitVec.toNat he)]
  split
  · split <;> rfl
  · rfl

/-- Below the largest exponents nothing is packed as an infinity. -/
theorem isFinite_pack {s : Sign} {m : Nat} {e : Int} {hm : 0 < m} (he : e ≤ 970) :
    (UnpackedFloat.unpack Format.binary64
      (UnpackedFloat.pack Format.binary64 (.finite s m e hm))).isFinite = true := by
  have hbias : (e + (Format.binary64.exponentBias : Int) + (52 : Nat)).toNat ≤ 2045 := by
    have : Format.binary64.exponentBias = 1023 := by decide
    omega
  apply isFinite_unpack
  simp only [UnpackedFloat.pack]
  generalize (e + (Format.binary64.exponentBias : Int) + (52 : Nat)).toNat = biased at hbias
  rw [if_neg (by omega)]
  split
  · rw [UnpackedFloat.unpackExponent_packComponents, BitVec.toNat_ofNat]
    omega
  · rw [UnpackedFloat.unpackExponent_packComponents]
    simp

/-! ## Products -/

theorem isFinite_roundWithAccuracy {s : Sign} {m : Nat} {e : Int} {a : Accuracy}
    (hm : m < 2 ^ 106) (he : e ≤ 0) :
    (UnpackedFloat.unpack Format.binary64 (UnpackedFloat.pack Format.binary64
      (roundWithAccuracy Format.binary64 s m e a))).isFinite = true := by
  have hfirst := shiftToTargetExponent_le (e := e) (a := a) hm
  have hround := roundedMantissa_le (shiftToTargetExponent Format.binary64 m e a).1
  have hsecond := shiftToTargetExponent_le (n := 107)
    (e := (shiftToTargetExponent Format.binary64 m e a).2) (a := .exact)
    (m := (shiftToTargetExponent Format.binary64 m e a).1.roundedMantissa) (by omega)
  simp only [roundWithAccuracy]
  split
  · apply isFinite_unpack
    rw [UnpackedFloat.pack, UnpackedFloat.packedZero, UnpackedFloat.unpackExponent_packComponents]
    simp
  · exact isFinite_pack (by omega)

theorem Binary.mantissa_lt {x : Float} {b : Binary} (h : ofFloat? x = some b) :
    b.mantissa < 2 ^ 53 := by
  obtain ⟨bits, _, _, hb⟩ := eq_withSign h
  rw [hb, ofMagnitude]
  split <;> simp only <;> omega

theorem isFinite_mul {x y : Float} {a b : Binary} (hx : Binary.ofFloat? x = some a)
    (hy : Binary.ofFloat? y = some b) (he : a.exponent + b.exponent ≤ 0) :
    (x * y).isFinite = true := by
  have ha := Binary.mantissa_lt hx
  have hb := Binary.mantissa_lt hy
  show (UnpackedFloat.unpack Format.binary64 (UnpackedFloat.pack Format.binary64
    (UnpackedFloat.mul Format.binary64 x.toModel.unpack y.toModel.unpack))).isFinite = true
  rw [unpack_of_ofFloat? hx, unpack_of_ofFloat? hy, Binary.unpacked, Binary.unpacked]
  have hzero : ∀ s, (UnpackedFloat.unpack Format.binary64
      (UnpackedFloat.pack Format.binary64 (.zero s))).isFinite = true := fun s => by
    apply isFinite_unpack
    rw [UnpackedFloat.pack, UnpackedFloat.packedZero, UnpackedFloat.unpackExponent_packComponents]
    simp
  split <;> split
  · refine isFinite_roundWithAccuracy ?_ he
    calc a.mantissa * b.mantissa < 2 ^ 53 * 2 ^ 53 := Nat.mul_lt_mul'' ha hb
      _ = 2 ^ 106 := by decide
  · exact hzero _
  · exact hzero _
  · exact hzero _

/-! ## Color channels -/

theorem Binary.exponent_le {x : Float} {b : Binary} (h : ofFloat? x = some b)
    (hx : inRange 0 1 x = true) : b.exponent ≤ -52 := by
  simp only [inRange, Bool.and_eq_true, decide_eq_true_eq] at hx
  obtain ⟨hlow, hhigh⟩ := hx
  have hone : ofFloat? 1 = some ⟨false, 2 ^ 52, -52⟩ := by decide
  have hlow : (UnpackedFloat.zero .positive).le b.unpacked = true := by
    rw [← unpack_of_ofFloat? h]
    exact (le_iff_unpack _ _).1 hlow
  have hhigh : b.unpacked.le (.finite .positive (2 ^ 52) (-52) (by decide)) = true := by
    have := (le_iff_unpack _ _).1 hhigh
    rwa [unpack_of_ofFloat? h, unpack_of_ofFloat? hone] at this
  obtain ⟨bits, _, _, hb⟩ := eq_withSign h
  by_cases hm : 0 < b.mantissa
  · rw [unpacked, dif_pos hm] at hlow hhigh
    cases hs : signOf b.negative with
    | negative => rw [hs] at hlow; cases hlow
    | positive =>
        rw [hs] at hhigh
        simp only [UnpackedFloat.le, UnpackedFloat.compare, Option.any_some] at hhigh
        by_cases hlt : b.exponent ≤ -52
        · exact hlt
        · have : compare b.exponent (-52) = .gt := Int.compare_eq_gt.2 (by omega)
          rw [this] at hhigh
          cases hhigh
  · rw [hb, ofMagnitude] at hm ⊢
    split at hm
    · rename_i h0
      rw [if_pos h0]
      show (-1074 : Int) ≤ -52
      decide
    · simp only at hm
      omega

theorem Color.isFinite_wire {c : Color} (h : c.isValid = true) :
    ∀ x ∈ c.wire, x.isFinite = true := by
  have h255 : Binary.ofFloat? 255 = some ⟨false, 255 * 2 ^ 45, -45⟩ := by decide
  have hscaled : ∀ x, (x.isFinite && inRange 0 1 x) = true → (x * 255).isFinite = true := by
    intro x hx
    obtain ⟨hfin, hrange⟩ := Bool.and_eq_true_iff.1 hx
    obtain ⟨b, hb⟩ := isFinite_iff.1 hfin
    have := Binary.exponent_le hb hrange
    exact isFinite_mul hb h255 (by simp only; omega)
  simp only [isValid, channels, List.all_cons, List.all_nil, Bool.and_true] at h
  obtain ⟨hr, h⟩ := Bool.and_eq_true_iff.1 h
  obtain ⟨hg, h⟩ := Bool.and_eq_true_iff.1 h
  obtain ⟨hb, ha⟩ := Bool.and_eq_true_iff.1 h
  intro x hx
  simp only [wire, List.mem_cons, List.not_mem_nil, or_false] at hx
  rcases hx with rfl | rfl | rfl | rfl
  · exact hscaled _ hr
  · exact hscaled _ hg
  · exact hscaled _ hb
  · exact (Bool.and_eq_true_iff.1 ha).1

end MapStyle

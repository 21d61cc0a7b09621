/-
# `MapStyle.Proofs.Decimal.Whole` — whole doubles are written as whole numbers and read back

A document writes a double that is a whole number of at most 53 bits without a fraction.  Reading
such a number rounds it to the nearest double, which has to be the one that was written.

* `Binary.nearestFinite_whole`: the nearest double to a whole double is that double.
* `toFloat_ofFloat?`: written and read, a finite double comes back up to the sign of zero.
-/
import MapStyle.Proofs.Decimal.Zero
import MapStyle.Json.Basic

namespace MapStyle

namespace Binary

/-! ## The nearest double to a whole number -/

theorem roundHalfEven_one (n : Nat) : roundHalfEven n 1 = n := by
  simp [roundHalfEven, Nat.mod_one]

/-- A whole number of at most 53 bits is shifted until it has 53. -/
theorem nearestBits_one {n : Nat} (hpos : n ≠ 0) (hlog : n.log2 ≤ 52) :
    nearestBits n 1 = (n.log2 + 1022) * 2 ^ 52 + n * 2 ^ (52 - n.log2) := by
  have hle : 2 ^ n.log2 ≤ n := Nat.log2_self_le hpos
  have hq : roundingExponent n 1 = (n.log2 : Int) - 52 := by
    have hlog1 : Nat.log2 1 = 0 := by decide
    simp only [roundingExponent, hlog1, leastExponent, fractionBits]
    rw [if_neg (by simp; omega)]
    omega
  have h1 : (-((n.log2 : Int) - 52)).toNat = 52 - n.log2 := by omega
  have h2 : ((n.log2 : Int) - 52).toNat = 0 := by omega
  have h3 : ((n.log2 : Int) - 52 - leastExponent).toNat = n.log2 + 1022 := by
    simp only [leastExponent]; omega
  simp only [nearestBits, if_neg hpos, hq, h1, h2, h3, fractionBits, Nat.pow_eq, Nat.pow_zero,
    Nat.mul_one, roundHalfEven_one]

/-- The whole number of an exact form, as an equation without division. -/
theorem whole?_eq_some {b : Binary} {n : Nat} (h : b.whole? = some n) :
    n * 2 ^ (-b.exponent).toNat = b.mantissa * 2 ^ b.exponent.toNat := by
  simp only [whole?, Nat.pow_eq] at h
  split at h
  · rename_i hmod
    simp only [Option.some.injEq] at h
    have hdiv := Nat.div_add_mod b.mantissa (2 ^ (-b.exponent).toNat)
    rw [hmod, Nat.add_zero] at hdiv
    rw [← h, Nat.mul_right_comm, Nat.mul_comm (b.mantissa / _), hdiv]
  · cases h

/-- A whole number with 53 bits after `k` shifts is the nearest to the double with those bits. -/
theorem nearestBits_of_shift {n k m : Nat} (hval : n * 2 ^ k = m) (hlow : 2 ^ 52 ≤ m)
    (hhigh : m < 2 ^ 53) : k ≤ 52 ∧ nearestBits n 1 = (1074 - k) * 2 ^ 52 + m := by
  have hpos : n ≠ 0 := by rintro rfl; omega
  have hk : k < 53 := by
    refine (Nat.pow_lt_pow_iff_right (a := 2) (by decide)).1 (Nat.lt_of_le_of_lt ?_ hhigh)
    rw [← hval]
    exact Nat.le_mul_of_pos_left _ (Nat.pos_of_ne_zero hpos)
  have hlog : n.log2 = 52 - k := by
    have hsplit : ∀ j, k ≤ j → 2 ^ j = 2 ^ (j - k) * 2 ^ k := fun j hj => by
      rw [← Nat.pow_add, Nat.sub_add_cancel hj]
    rw [Nat.log2_eq_iff hpos]
    constructor
    · rw [hsplit 52 (by omega), ← hval] at hlow
      exact Nat.le_of_mul_le_mul_right hlow (Nat.two_pow_pos k)
    · rw [hsplit 53 (by omega), ← hval] at hhigh
      have := Nat.lt_of_mul_lt_mul_right hhigh
      rwa [show 53 - k = 52 - k + 1 by omega] at this
  refine ⟨by omega, ?_⟩
  rw [nearestBits_one hpos (by omega), hlog, show 52 - (52 - k) = k by omega, hval]
  congr 2
  omega

/-- A double that is a whole number of at most 53 bits is the nearest one to that number. -/
theorem nearestBits_whole {negative : Bool} {bits n : Nat}
    (hwhole : (ofMagnitude negative bits).whole? = some n) (hpos : n ≠ 0) (hn : n < 2 ^ 53) :
    nearestBits n 1 = bits := by
  have hval := whole?_eq_some hwhole
  simp only [ofMagnitude] at hval
  by_cases h0 : bits / 2 ^ 52 = 0
  · simp only [if_pos h0] at hval
    have hexp : (-1074 : Int).toNat = 0 := rfl
    have hshift : 52 ≤ (-(-1074) : Int).toNat := by decide
    rw [hexp, Nat.pow_zero, Nat.mul_one] at hval
    generalize (-(-1074) : Int).toNat = k at hshift hval
    have hpow : 2 ^ 52 ≤ 2 ^ k := Nat.pow_le_pow_right (by decide) hshift
    have hlarge : 1 * 2 ^ k ≤ n * 2 ^ k := Nat.mul_le_mul_right _ (Nat.pos_of_ne_zero hpos)
    omega
  · simp only [if_neg h0] at hval
    have hf : bits % 2 ^ 52 < 2 ^ 52 := Nat.mod_lt _ (by decide)
    have hbits := Nat.div_add_mod bits (2 ^ 52)
    generalize bits / 2 ^ 52 = E at *
    generalize bits % 2 ^ 52 = f at *
    by_cases hE : E ≤ 1075
    · have hneg : (-((E : Int) - 1075)).toNat = 1075 - E := by omega
      have hzero : ((E : Int) - 1075).toNat = 0 := by omega
      rw [hneg, hzero, Nat.pow_zero, Nat.mul_one] at hval
      obtain ⟨hk, hn⟩ := nearestBits_of_shift hval (by omega) (by omega)
      omega
    · have hneg : (-((E : Int) - 1075)).toNat = 0 := by omega
      have hexp : ((E : Int) - 1075).toNat = (E - 1076) + 1 := by omega
      have hpow : 2 ^ ((E : Int) - 1075).toNat = 2 ^ (E - 1076) * 2 := by rw [hexp, Nat.pow_succ]
      rw [hneg, hpow, Nat.pow_zero, Nat.mul_one] at hval
      have hlarge : (2 ^ 52 + f) * 1 ≤ (2 ^ 52 + f) * 2 ^ (E - 1076) :=
        Nat.mul_le_mul_left _ (Nat.two_pow_pos _)
      rw [← Nat.mul_assoc] at hval
      omega

theorem mantissa_eq_zero_iff {b : Binary} {n : Nat} (h : b.whole? = some n) :
    b.mantissa = 0 ↔ n = 0 := by
  have hval := whole?_eq_some h
  constructor
  · intro hm
    rw [hm, Nat.zero_mul] at hval
    exact (Nat.mul_eq_zero.1 hval).resolve_right (Nat.ne_of_gt (Nat.two_pow_pos _))
  · intro hn
    rw [hn, Nat.zero_mul] at hval
    exact (Nat.mul_eq_zero.1 hval.symm).resolve_right (Nat.ne_of_gt (Nat.two_pow_pos _))

theorem whole?_of_mantissa {b : Binary} (h : b.mantissa = 0) : b.whole? = some 0 := by
  simp [whole?, h]

/-- A whole number of at most 53 bits counts as the double that it was read off. -/
theorem nearestFinite_whole {x : Float} {b : Binary} {n : Nat} (hx : ofFloat? x = some b)
    (hn : b.whole? = some n) (hpos : n ≠ 0) (hlt : n < 2 ^ 53) :
    nearestFinite b.negative n 1 = x := by
  obtain ⟨bits, hbits, hx, hb⟩ := eq_withSign hx
  rw [hb] at hn
  rw [nearestFinite, nearestBits_whole hn hpos hlt, Nat.min_eq_left (by omega), ← hx]

end Binary

/-! ## Written and read -/

/-- The number of a finite double counts as the double, up to the sign of zero. -/
theorem toFloat_ofFloat? {x : Float} (h : x.isFinite = true) :
    ∃ n, Number.ofFloat? x = some n ∧ n.toFloat = unsigned x := by
  obtain ⟨b, hb⟩ := isFinite_iff.1 h
  simp only [Number.ofFloat?, dif_pos h, wholeNumber?, hb, Option.bind_eq_bind, Option.bind_some]
  cases hw : b.whole? with
  | none =>
      refine ⟨_, rfl, (unsigned_of_ne hb fun hm => ?_).symm⟩
      rw [Binary.whole?_of_mantissa hm] at hw
      cases hw
  | some n =>
      refine ⟨_, rfl, ?_⟩
      by_cases hn : n = 0
      · have hzero := (Binary.beq_zero_iff hb).2 ((Binary.mantissa_eq_zero_iff hw).2 hn)
        subst hn
        rw [unsigned, if_pos hzero, zero_eq_withSign]
        simp [Number.toFloat, Binary.nearestFinite, Binary.nearestBits]
      · rw [unsigned_of_ne hb fun hm => hn ((Binary.mantissa_eq_zero_iff hw).1 hm)]
        have habs : (if b.negative then -(n : Int) else n).natAbs = n := by split <;> omega
        have hneg : decide ((if b.negative then -(n : Int) else n) < 0) = b.negative := by
          cases b.negative with
          | true =>
              simp only [if_true, decide_eq_true_eq]
              omega
          | false =>
              simp only [Bool.false_eq_true, if_false, decide_eq_false_iff_not]
              omega
        simp only [habs]
        split
        · simp only [Number.toFloat, habs, hneg]
          exact Binary.nearestFinite_whole hb hw hn (by omega)
        · rfl

/-! ## The sign of zero -/

/-- The two zeros are written alike; what `f` makes of an exact form with mantissa 0 does not show
its sign. -/
theorem eq_of_mantissa {α : Type} (f : Float → α) {a : α}
    (h : ∀ x b, Binary.ofFloat? x = some b → b.mantissa = 0 → f x = a) (x : Float) :
    f (unsigned x) = f x := by
  rcases unsigned_cases x with hx | ⟨rfl, hx⟩
  · rw [hx]
  · rw [hx, zero_eq_withSign, negativeZero,
      h _ _ (Binary.ofFloat?_withSign false (by decide)) rfl,
      h _ _ (Binary.ofFloat?_withSign true (by decide)) rfl]

theorem wholeNumber?_of_mantissa {x : Float} {b : Binary} (h : Binary.ofFloat? x = some b)
    (hm : b.mantissa = 0) : wholeNumber? x = some 0 := by
  simp [wholeNumber?, h, Binary.whole?_of_mantissa hm]

theorem wholeNumber?_unsigned (x : Float) : wholeNumber? (unsigned x) = wholeNumber? x :=
  eq_of_mantissa wholeNumber? (fun _ _ h hm => wholeNumber?_of_mantissa h hm) x

theorem isWhole_unsigned (x : Float) : isWhole (unsigned x) = isWhole x := by
  rw [isWhole, isWhole, wholeNumber?_unsigned]

theorem numberText_unsigned (x : Float) : numberText (unsigned x) = numberText x := by
  refine eq_of_mantissa numberText (a := "0") (fun x b h hm => ?_) x
  simp [numberText, h, hm]

theorem ofFloat?_unsigned (x : Float) : Number.ofFloat? (unsigned x) = Number.ofFloat? x := by
  refine eq_of_mantissa Number.ofFloat? (a := some (.int 0)) (fun x b h hm => ?_) x
  have hfin : x.isFinite = true := isFinite_iff.2 ⟨b, h⟩
  simp [Number.ofFloat?, hfin, wholeNumber?_of_mantissa h hm]

theorem isFinite_of_isWhole {x : Float} (h : isWhole x = true) : x.isFinite = true := by
  rw [isFinite_iff]
  cases hb : Binary.ofFloat? x with
  | some b => exact ⟨b, rfl⟩
  | none => simp [isWhole, wholeNumber?, hb] at h

theorem Number.isFinite_toFloat (n : Number) : n.toFloat.isFinite = true := by
  cases n with
  | int n => exact Binary.isFinite_nearestFinite _ _ _
  | real x finite => exact finite

end MapStyle

/-
# `MapStyle.Proofs.Decimal.Bits` — doubles and the bits they are made of

The arithmetic of doubles is defined on an unpacked form: a sign, a mantissa and an exponent.  Two
readings of the bits therefore exist side by side, that one and `Binary.ofFloat?`.  Here they are
shown to be one reading.

* `unpack_of_ofFloat?`: the exact form is what the arithmetic unpacks.
* `isFinite_iff`: exactly the finite doubles have an exact form.
* `Binary.eq_withSign`: a finite double is a sign and the bits of a magnitude.
-/
import Mathlib
import MapStyle.Decimal.Binary

namespace MapStyle

open Float.Model (Format UnpackedFloat)
open Float.Model.UnpackedFloat (Sign unpackSign unpackExponent unpackMantissa)

/-! ## Fields of a word -/

/-- The bits of a double as the format has them. -/
abbrev Word := BitVec Format.binary64.numBits

theorem Word.lt (b : Word) : b.toNat < 2 ^ 64 := b.isLt

theorem toNat_unpackSign (b : Word) : (unpackSign b).toNat = b.toNat / 2 ^ 63 := by
  have := b.lt
  simp [unpackSign, BitVec.extractLsb, BitVec.extractLsb'_toNat, Nat.shiftRight_eq_div_pow]
  omega

theorem toNat_unpackExponent (b : Word) :
    (unpackExponent b).toNat = b.toNat / 2 ^ 52 % 2 ^ 11 := by
  simp [unpackExponent, BitVec.extractLsb, BitVec.extractLsb'_toNat, Nat.shiftRight_eq_div_pow]

theorem toNat_unpackMantissa (b : Word) : (unpackMantissa b).toNat = b.toNat % 2 ^ 52 := by
  simp [unpackMantissa, BitVec.extractLsb, BitVec.extractLsb'_toNat]

theorem toNat_implicit (m : BitVec 52) : (1#1 ++ m).toNat = 2 ^ 52 + m.toNat := by
  rw [BitVec.toNat_append, ← Nat.shiftLeft_add_eq_or_of_lt m.isLt]
  simp [Nat.shiftLeft_eq]

/-! ## The exact form -/

/-- The sign of a word as the format has it. -/
def signOf (negative : Bool) : Sign := if negative then .negative else .positive

theorem ofBitVec_unpackSign (b : Word) :
    Sign.ofBitVec (unpackSign b) = signOf (decide (Binary.signBit ≤ b.toNat)) := by
  have hlt := b.lt
  have hn := toNat_unpackSign b
  generalize unpackSign b = s at hn
  by_cases h : Binary.signBit ≤ b.toNat
  · have hs : s = 1#1 := by
      refine BitVec.eq_of_toNat_eq ?_
      rw [hn]
      simp only [Binary.signBit] at h
      simp
      omega
    simp only [hs, h, signOf]; rfl
  · have hs : s = 0#1 := by
      refine BitVec.eq_of_toNat_eq ?_
      rw [hn]
      simp only [Binary.signBit] at h
      simp
      omega
    simp only [hs, h, signOf]; rfl

/-- The exact form as the format unpacks it. -/
def Binary.unpacked (b : Binary) : UnpackedFloat :=
  if h : 0 < b.mantissa then .finite (signOf b.negative) b.mantissa b.exponent h
  else .zero (signOf b.negative)

def wordOf (x : Float) : Word := x.toBits.toBitVec

theorem toNat_wordOf (x : Float) : (wordOf x).toNat = x.toBits.toNat := rfl

/-- The exact form is what the arithmetic of doubles unpacks. -/
theorem unpack_of_ofFloat? {x : Float} {b : Binary} (h : Binary.ofFloat? x = some b) :
    x.toModel.unpack = b.unpacked := by
  show UnpackedFloat.unpack Format.binary64 (wordOf x) = _
  generalize hw : wordOf x = w
  simp only [Binary.ofFloat?, Binary.fractionBits, Nat.pow_eq, ← toNat_wordOf, hw,
    ← toNat_unpackExponent, ← toNat_unpackMantissa] at h
  simp only [UnpackedFloat.unpack, ofBitVec_unpackSign]
  split at h
  · cases h
  · rename_i hexp
    rw [if_neg fun h => hexp (congrArg BitVec.toNat h)]
    split at h
    · rename_i hexp0
      have he0 : unpackExponent w = 0#11 := BitVec.eq_of_toNat_eq hexp0
      rw [if_pos he0]
      cases h
      split
      · rename_i hmant
        simp [Binary.unpacked, hmant]
      · rename_i hmant
        have : 0 < (unpackMantissa w).toNat :=
          Nat.pos_of_ne_zero fun h0 => hmant (BitVec.eq_of_toNat_eq h0)
        simp only [Binary.unpacked, this, dif_pos, he0]
        rfl
    · rename_i hexp0
      rw [if_neg fun h => hexp0 (congrArg BitVec.toNat h)]
      cases h
      have : 0 < 2 ^ 52 + (unpackMantissa w).toNat := by omega
      simp only [Binary.unpacked, this, dif_pos, toNat_implicit]
      congr 1
      simp only [Binary.leastExponent, Format.exponentBias]
      omega

theorem isFinite_iff {x : Float} : x.isFinite = true ↔ ∃ b, Binary.ofFloat? x = some b := by
  constructor
  · intro hfin
    cases h : Binary.ofFloat? x with
    | some b => exact ⟨b, rfl⟩
    | none =>
        exfalso
        have hfin : (UnpackedFloat.unpack Format.binary64 (wordOf x)).isFinite = true := hfin
        simp only [Binary.ofFloat?, Binary.fractionBits, Nat.pow_eq, ← toNat_wordOf,
          ← toNat_unpackExponent] at h
        split at h
        · rename_i hexp
          have hexp : unpackExponent (wordOf x) = -1#11 := BitVec.eq_of_toNat_eq hexp
          simp only [UnpackedFloat.unpack, if_pos hexp] at hfin
          split at hfin <;> simp [UnpackedFloat.isFinite] at hfin
        · split at h <;> cases h
  · rintro ⟨b, h⟩
    show x.toModel.unpack.isFinite = true
    rw [unpack_of_ofFloat? h, Binary.unpacked]
    split <;> rfl

/-! ## Doubles made of a sign and a magnitude -/

theorem toBits_ofBits {n : Nat} (hn : n < 2 ^ 64) (hexp : n / 2 ^ 52 % 2 ^ 11 ≠ 2 ^ 11 - 1) :
    (Float.ofBits (UInt64.ofNat n)).toBits.toNat = n := by
  have hword : (BitVec.ofNat 64 n : Word).toNat = n := Nat.mod_eq_of_lt hn
  have hvalid : Format.binary64.Valid (BitVec.ofNat 64 n : Word) := by
    refine ⟨fun h => absurd (congrArg BitVec.toNat h) ?_⟩
    rw [toNat_unpackExponent, hword]
    exact hexp
  show (UnpackedFloat.pack Format.binary64 (UnpackedFloat.unpack Format.binary64
    (BitVec.ofNat 64 n))).toNat = n
  rw [UnpackedFloat.pack_unpack_of_valid hvalid, hword]

namespace Binary

/-- The exact form of a finite magnitude by its bits. -/
def ofMagnitude (negative : Bool) (bits : Nat) : Binary :=
  if bits / 2 ^ 52 = 0 then ⟨negative, bits, -1074⟩
  else ⟨negative, 2 ^ 52 + bits % 2 ^ 52, (bits / 2 ^ 52 : Nat) - 1075⟩

/-- The fields of a word made of a sign and a finite magnitude. -/
theorem fields_withSign (negative : Bool) {bits : Nat} (h : bits < infinityBits) :
    let word := if negative then signBit + bits else bits
    word < 2 ^ 64 ∧ word / 2 ^ 52 % 2 ^ 11 = bits / 2 ^ 52 ∧ word % 2 ^ 52 = bits % 2 ^ 52 ∧
      decide (signBit ≤ word) = negative := by
  simp only [infinityBits] at h
  cases negative with
  | false =>
      simp only [signBit, Bool.false_eq_true, if_false, decide_eq_false_iff_not, true_and]
      omega
  | true =>
      simp only [signBit, if_true, decide_eq_true_eq]
      omega

theorem ofFloat?_withSign (negative : Bool) {bits : Nat} (h : bits < infinityBits) :
    ofFloat? (withSign negative bits) = some (ofMagnitude negative bits) := by
  obtain ⟨hlt, hexp, hfraction, hsign⟩ := fields_withSign negative h
  simp only [infinityBits] at h
  have hword := toBits_ofBits hlt (by rw [hexp]; omega)
  simp only [ofFloat?, withSign, hword, fractionBits, Nat.pow_eq, hexp, hfraction, hsign]
  rw [if_neg (by omega), ofMagnitude, leastExponent]
  by_cases h0 : bits / 2 ^ 52 = 0
  · rw [if_pos h0, if_pos h0, Nat.mod_eq_of_lt (by omega)]
  · have hexp : (-1074 : Int) + (bits / 2 ^ 52 - 1 : Nat) = (bits / 2 ^ 52 : Nat) - 1075 := by
      omega
    rw [if_neg h0, if_neg h0, hexp]

theorem isFinite_withSign (negative : Bool) {bits : Nat} (h : bits < infinityBits) :
    (withSign negative bits).isFinite = true :=
  isFinite_iff.2 ⟨_, ofFloat?_withSign negative h⟩

theorem isFinite_nearestFinite (negative : Bool) (num den : Nat) :
    (nearestFinite negative num den).isFinite = true :=
  isFinite_withSign negative (by simp only [infinityBits]; omega)

/-- A finite double is its sign and the bits of its magnitude. -/
theorem eq_withSign {x : Float} {b : Binary} (h : ofFloat? x = some b) :
    ∃ bits, bits < infinityBits ∧ x = withSign b.negative bits ∧
      b = ofMagnitude b.negative bits := by
  have hlt : x.toBits.toNat < 2 ^ 64 := x.toBits.toNat_lt
  have hx : x = withSign (decide (signBit ≤ x.toBits.toNat)) (x.toBits.toNat % signBit) := by
    rw [withSign, ← Float.ofBits_toBits x]
    congr 1
    apply UInt64.toNat_inj.1
    rw [Float.ofBits_toBits]
    simp only [signBit]
    by_cases hs : 9223372036854775808 ≤ x.toBits.toNat <;> simp [hs] <;> omega
  have hfin : x.toBits.toNat % signBit < infinityBits := by
    have hexp : x.toBits.toNat / 2 ^ 52 % 2 ^ 11 ≠ 0x7FF := by
      intro hexp
      have hexp : x.toBits.toNat / Nat.pow 2 fractionBits % Nat.pow 2 11 = 0x7FF := hexp
      simp only [ofFloat?, if_pos hexp] at h
      cases h
    simp only [signBit, infinityBits]
    omega
  rw [hx, ofFloat?_withSign _ hfin] at h
  cases h
  have hneg : (ofMagnitude (decide (signBit ≤ x.toBits.toNat)) (x.toBits.toNat % signBit)).negative
      = decide (signBit ≤ x.toBits.toNat) := by
    simp only [ofMagnitude]; split <;> rfl
  refine ⟨_, hfin, ?_, ?_⟩
  · rw [hneg]; exact hx
  · rw [hneg]

end Binary
end MapStyle

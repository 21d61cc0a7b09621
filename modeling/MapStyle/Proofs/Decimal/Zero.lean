/-
# `MapStyle.Proofs.Decimal.Zero` — leaving the sign of zero out

Documents have one zero, doubles have two.  `unsigned` is what becomes of a double that is written
to a document and read back: itself, unless it is the negative zero.  Comparison and absolute value
do not see the difference.
-/
import MapStyle.Proofs.Decimal.Bits
import MapStyle.Color.Basic

namespace MapStyle

open Float.Model (Format UnpackedFloat)
open Float.Model.UnpackedFloat (Sign)

/-- A double with the sign of zero left out. -/
def unsigned (x : Float) : Float := if x == 0 then 0 else x

def negativeZero : Float := Binary.withSign true 0

theorem unpack_zero : (0 : Float).toModel.unpack = .zero .positive := by rfl

theorem unpack_negativeZero : negativeZero.toModel.unpack = .zero .negative := by
  rw [negativeZero, unpack_of_ofFloat? (Binary.ofFloat?_withSign true (by decide))]
  rfl

theorem zero_eq_withSign : (0 : Float) = Binary.withSign false 0 := by decide

theorem neg_zero_eq : (-0 : Float) = negativeZero := by decide

/-- Only the negative zero is changed. -/
theorem unsigned_cases (x : Float) :
    unsigned x = x ∨ (x = negativeZero ∧ unsigned x = 0) := by
  by_cases h : (x == 0) = true
  · rw [unsigned, if_pos h]
    obtain ⟨_, _, hx⟩ := Float.beq_iff_ne_nan_and_eq.1 h
    rcases hx with hx | ⟨hx, _⟩ | ⟨hx, _⟩
    · exact .inl hx.symm
    · exact .inl hx.symm
    · exact .inr ⟨hx.trans neg_zero_eq, rfl⟩
  · exact .inl (if_neg h)

theorem unsigned_zero : unsigned 0 = 0 := by decide

/-- Equal doubles differ at most in the sign of zero. -/
theorem unsigned_eq_of_beq {x y : Float} (h : (x == y) = true) : unsigned x = unsigned y := by
  obtain ⟨_, _, rfl | ⟨rfl, rfl⟩ | ⟨rfl, rfl⟩⟩ := Float.beq_iff_ne_nan_and_eq.1 h
  · rfl
  · decide
  · decide

/-! ## Doubles with an exact form -/

theorem Binary.beq_zero_iff {x : Float} {b : Binary} (h : ofFloat? x = some b) :
    (x == 0) = true ↔ b.mantissa = 0 := by
  show (x.toModel.unpack.compare (0 : Float).toModel.unpack == some .eq) = true ↔ _
  rw [unpack_zero, unpack_of_ofFloat? h, unpacked]
  split
  · rename_i hm
    refine iff_of_false ?_ (by omega)
    cases signOf b.negative <;> exact Bool.false_ne_true
  · exact iff_of_true (by cases signOf b.negative <;> rfl) (by omega)

theorem unsigned_of_ne {x : Float} {b : Binary} (h : Binary.ofFloat? x = some b)
    (hm : b.mantissa ≠ 0) : unsigned x = x := by
  rw [unsigned, if_neg fun h0 => hm ((Binary.beq_zero_iff h).1 h0)]

/-! ## Comparison -/

theorem compare_zero_left (s t : Sign) (u : UnpackedFloat) :
    (UnpackedFloat.zero s).compare u = (UnpackedFloat.zero t).compare u := by
  cases u with
  | zero _ => rfl
  | notANumber => rfl
  | infinity r => cases r <;> rfl
  | finite r _ _ _ => cases r <;> rfl

theorem compare_zero_right (s t : Sign) (u : UnpackedFloat) :
    u.compare (.zero s) = u.compare (.zero t) := by
  cases u with
  | zero _ => rfl
  | notANumber => rfl
  | infinity r => cases r <;> rfl
  | finite r _ _ _ => cases r <;> rfl

theorem compare_unsigned (x y : Float) :
    (unsigned x).toModel.unpack.compare (unsigned y).toModel.unpack =
      x.toModel.unpack.compare y.toModel.unpack := by
  rcases unsigned_cases x with hx | ⟨rfl, hx⟩ <;> rcases unsigned_cases y with hy | ⟨rfl, hy⟩ <;>
    simp only [hx, hy, unpack_zero, unpack_negativeZero]
  · exact compare_zero_right _ _ _
  · exact compare_zero_left _ _ _
  · rfl

theorem le_iff_unpack (x y : Float) : x ≤ y ↔ x.toModel.unpack.le y.toModel.unpack = true := by
  show Float.le x y = true ↔ _
  rw [show Float.le x y = x.toModel.unpack.le y.toModel.unpack from Bool.decide_coe _]

theorem unsigned_le_iff (x y : Float) : unsigned x ≤ unsigned y ↔ x ≤ y := by
  rw [le_iff_unpack, le_iff_unpack, UnpackedFloat.le, UnpackedFloat.le, compare_unsigned]

theorem abs_unsigned (x : Float) : (unsigned x).abs = x.abs := by
  rcases unsigned_cases x with hx | ⟨rfl, hx⟩
  · rw [hx]
  · rw [hx]
    show Float.ofModel (.pack (0 : Float).toModel.unpack.abs) =
      Float.ofModel (.pack negativeZero.toModel.unpack.abs)
    rw [unpack_zero, unpack_negativeZero]
    rfl

theorem inRange_unsigned (x : Float) : inRange 0 1 (unsigned x) = inRange 0 1 x := by
  have hlow := unsigned_le_iff 0 x
  have hhigh := unsigned_le_iff x 1
  rw [unsigned_zero] at hlow
  rw [show unsigned 1 = 1 by decide] at hhigh
  simp only [inRange, hlow, hhigh]

end MapStyle

/-
# `MapStyle.Proofs.Decimal.Order` — the order of doubles

Comparison of doubles is defined by cases on their kinds and signs.  Here it is shown to be the
order of a rank, which every double but NaN has (`le_iff_rank`, `beq_iff_rank`).  So `≤` is
transitive, total between finite doubles, and cannot tell apart the two zeros, which have one rank.
-/
import MapStyle.Proofs.Decimal.Zero

namespace MapStyle

open Float.Model (Format UnpackedFloat)

/-! ## Ranks -/

/-- A place among the doubles: the kind of number, from negative infinity up, then the exponent and
the mantissa, which count backwards below zero. -/
abbrev Rank := ℤ ×ₗ ℤ ×ₗ ℤ

/-- The rank of an unpacked double; NaN has none. -/
def rankOf : UnpackedFloat → Option Rank
  | .notANumber => none
  | .infinity .negative => some (toLex (-2, toLex (0, 0)))
  | .finite .negative m e _ => some (toLex (-1, toLex (-e, -m)))
  | .zero _ => some (toLex (0, toLex (0, 0)))
  | .finite .positive m e _ => some (toLex (1, toLex (e, m)))
  | .infinity .positive => some (toLex (2, toLex (0, 0)))

def rank? (x : Float) : Option Rank := rankOf x.toModel.unpack

theorem compare_rank (a b c a' b' c' : ℤ) :
    compare (toLex (a, toLex (b, c)) : Rank) (toLex (a', toLex (b', c'))) =
      (compare a a').then ((compare b b').then (compare c c')) := by
  rw [Prod.Lex.compare_def, compareLex, compareOn, compareOn]
  show (compare a a').then (compare (toLex (b, c)) (toLex (b', c'))) = _
  rw [Prod.Lex.compare_def]
  rfl

theorem compare_neg (a b : ℤ) : compare (-a) (-b) = (compare a b).swap := by
  rw [Int.compare_swap]
  grind [Int.compare_eq_lt, Int.compare_eq_gt, Int.compare_eq_eq]

theorem compare_natCast (m n : ℕ) : compare (m : ℤ) n = compare m n := by
  rw [Int.compare_eq_ite_lt, Nat.compare_eq_ite_lt]
  simp only [Int.ofNat_lt]

/-- Comparison of unpacked doubles is that of their ranks. -/
theorem compare_eq_rank (u v : UnpackedFloat) :
    u.compare v = (rankOf u).bind fun a => (rankOf v).map fun b => compare a b := by
  -- the kinds settle all but the comparison of two numbers of one sign
  rcases u with (_ | _) | _ | _ | ⟨_ | _, m, e, _⟩ <;>
    rcases v with (_ | _) | _ | _ | ⟨_ | _, m', e', _⟩ <;> try rfl
  · simp [UnpackedFloat.compare, rankOf, compare_rank, compare_neg, compare_natCast,
      Ordering.swap_then]
  · simp [UnpackedFloat.compare, rankOf, compare_rank, compare_natCast]

/-! ## Comparison -/

theorem le_iff_rank {x y : Float} :
    x ≤ y ↔ ∃ a b, rank? x = some a ∧ rank? y = some b ∧ a ≤ b := by
  rw [le_iff_unpack, UnpackedFloat.le, compare_eq_rank, rank?, rank?]
  cases rankOf x.toModel.unpack <;> cases rankOf y.toModel.unpack <;>
    simp [← compare_le_iff_le, Ordering.isLE_iff_ne_gt]

theorem beq_iff_rank {x y : Float} :
    (x == y) = true ↔ ∃ a, rank? x = some a ∧ rank? y = some a := by
  show (x.toModel.unpack.compare y.toModel.unpack == some .eq) = true ↔ _
  rw [compare_eq_rank, rank?, rank?]
  cases rankOf x.toModel.unpack with
  | none => simp
  | some a =>
      cases rankOf y.toModel.unpack with
      | none => simp
      | some b =>
          simp only [Option.bind_some, Option.map_some, beq_iff_eq, Option.some.injEq,
            compare_eq_iff_eq, exists_eq_left']
          exact eq_comm

theorem lt_iff_rank {x y : Float} :
    x < y ↔ ∃ a b, rank? x = some a ∧ rank? y = some b ∧ a < b := by
  have hunpack : x < y ↔ x.toModel.unpack.lt y.toModel.unpack = true := by
    show Float.lt x y = true ↔ _
    rw [show Float.lt x y = x.toModel.unpack.lt y.toModel.unpack from Bool.decide_coe _]
  rw [hunpack, UnpackedFloat.lt, compare_eq_rank, rank?, rank?]
  cases rankOf x.toModel.unpack <;> cases rankOf y.toModel.unpack <;>
    simp [← compare_lt_iff_lt]

theorem Float.le_trans {x y z : Float} (hxy : x ≤ y) (hyz : y ≤ z) : x ≤ z := by
  obtain ⟨a, b, hx, hy, hab⟩ := le_iff_rank.1 hxy
  obtain ⟨b', c, hy', hz, hbc⟩ := le_iff_rank.1 hyz
  cases hy.symm.trans hy'
  exact le_iff_rank.2 ⟨a, c, hx, hz, hab.trans hbc⟩

/-- Among the ranks, the finite doubles are those between the infinities. -/
theorem isFinite_iff_rank {x : Float} :
    x.isFinite = true ↔ ∃ r, rank? x = some r ∧ -1 ≤ (ofLex r).1 ∧ (ofLex r).1 ≤ 1 := by
  show x.toModel.unpack.isFinite = true ↔ ∃ r, rankOf x.toModel.unpack = some r ∧ _
  rcases x.toModel.unpack with (_ | _) | _ | _ | ⟨_ | _, m, e, _⟩ <;>
    simp [rankOf, Float.Model.UnpackedFloat.isFinite]

theorem rank?_of_isFinite {x : Float} (h : x.isFinite = true) : ∃ a, rank? x = some a := by
  obtain ⟨r, hr, _⟩ := isFinite_iff_rank.1 h
  exact ⟨r, hr⟩

theorem isNaN_iff_rank {x : Float} : x.isNaN = true ↔ rank? x = none := by
  show x.toModel.unpack.isNaN = true ↔ rankOf x.toModel.unpack = none
  rcases x.toModel.unpack with (_ | _) | _ | _ | ⟨_ | _, m, e, _⟩ <;>
    simp [rankOf, Float.Model.UnpackedFloat.isNaN]

theorem Float.lt_iff_le_and_not_le {x y : Float} : x < y ↔ x ≤ y ∧ ¬ y ≤ x := by
  rw [lt_iff_rank, le_iff_rank, le_iff_rank]
  constructor
  · rintro ⟨a, b, hx, hy, hab⟩
    refine ⟨⟨a, b, hx, hy, hab.le⟩, ?_⟩
    rintro ⟨b', a', hy', hx', hba⟩
    cases hx.symm.trans hx'
    cases hy.symm.trans hy'
    exact absurd hba (not_le_of_gt hab)
  · rintro ⟨⟨a, b, hx, hy, hab⟩, hnot⟩
    exact ⟨a, b, hx, hy, lt_of_le_of_ne hab fun heq => hnot ⟨b, a, hy, hx, heq.ge⟩⟩

/-- Only NaN is neither above nor below a double that is below another one. -/
theorem Float.isNaN_of_not_le {x y input : Float} (hxy : x < y) (hbelow : ¬ x ≤ input)
    (habove : ¬ input ≤ x) : input.isNaN = true := by
  obtain ⟨a, _, hx, _⟩ := lt_iff_rank.1 hxy
  rw [isNaN_iff_rank]
  cases hinput : rank? input with
  | none => rfl
  | some b =>
      rw [le_iff_rank] at hbelow habove
      exact absurd (le_of_not_ge fun hba => habove ⟨b, a, hinput, hx, hba⟩)
        fun hab => hbelow ⟨a, b, hx, hinput, hab⟩

theorem Float.isFinite_of_between {x lower upper : Float} (hlower : lower.isFinite = true)
    (hupper : upper.isFinite = true) (hle : lower ≤ x) (hlt : x < upper) : x.isFinite = true := by
  obtain ⟨a, r, ha, hr, har⟩ := le_iff_rank.1 hle
  obtain ⟨r', c, hr', hc, hrc⟩ := lt_iff_rank.1 hlt
  cases hr.symm.trans hr'
  obtain ⟨_, ha', hlow, _⟩ := isFinite_iff_rank.1 hlower
  obtain ⟨_, hc', _, hhigh⟩ := isFinite_iff_rank.1 hupper
  cases ha.symm.trans ha'
  cases hc.symm.trans hc'
  exact isFinite_iff_rank.2 ⟨r, hr, hlow.trans (Prod.Lex.monotone_fst _ _ har),
    (Prod.Lex.monotone_fst _ _ hrc.le).trans hhigh⟩

theorem Float.le_refl {x : Float} (hx : x.isFinite = true) : x ≤ x := by
  obtain ⟨a, ha⟩ := rank?_of_isFinite hx
  exact le_iff_rank.2 ⟨a, a, ha, ha, le_rfl⟩

theorem Float.le_of_not_le {x y : Float} (hx : x.isFinite = true) (hy : y.isFinite = true)
    (h : ¬ x ≤ y) : y ≤ x := by
  obtain ⟨a, ha⟩ := rank?_of_isFinite hx
  obtain ⟨b, hb⟩ := rank?_of_isFinite hy
  rw [le_iff_rank] at h ⊢
  exact ⟨b, a, hb, ha, le_of_not_ge fun hab => h ⟨a, b, ha, hb, hab⟩⟩

theorem Float.beq_refl {x : Float} (hx : x.isFinite = true) : (x == x) = true := by
  obtain ⟨a, ha⟩ := rank?_of_isFinite hx
  exact beq_iff_rank.2 ⟨a, ha, ha⟩

theorem Float.le_of_beq {x y : Float} (h : (x == y) = true) : x ≤ y := by
  obtain ⟨a, hx, hy⟩ := beq_iff_rank.1 h
  exact le_iff_rank.2 ⟨a, a, hx, hy, le_rfl⟩

theorem Float.beq_comm (x y : Float) : (x == y) = (y == x) := by
  rw [Bool.eq_iff_iff, beq_iff_rank, beq_iff_rank]
  simp only [and_comm]

theorem Float.beq_of_le {x y : Float} (hxy : x ≤ y) (hyx : y ≤ x) : (x == y) = true := by
  obtain ⟨a, b, hx, hy, hab⟩ := le_iff_rank.1 hxy
  obtain ⟨b', a', hy', hx', hba⟩ := le_iff_rank.1 hyx
  cases hx.symm.trans hx'
  cases hy.symm.trans hy'
  exact beq_iff_rank.2 ⟨a, hx, hy.trans (congrArg some (le_antisymm hba hab))⟩

theorem Float.beq_congr {x y : Float} (h : (x == y) = true) (w : Float) : (w == x) = (w == y) := by
  obtain ⟨a, hx, hy⟩ := beq_iff_rank.1 h
  rw [Bool.eq_iff_iff, beq_iff_rank, beq_iff_rank, hx, hy]

theorem rank?_unsigned (x : Float) : rank? (unsigned x) = rank? x := by
  rcases unsigned_cases x with h | ⟨rfl, h⟩
  · rw [h]
  · decide

theorem unsigned_beq (x y : Float) : (unsigned x == y) = (x == y) := by
  rw [Bool.eq_iff_iff, beq_iff_rank, beq_iff_rank, rank?_unsigned]

/-! ## Absolute values -/

theorem ofModel_pack_unpack (x : Float) : Float.ofModel (.pack x.toModel.unpack) = x := by
  obtain ⟨⟨bits, hvalid⟩⟩ := x
  have h : UnpackedFloat.pack Format.binary64 (UnpackedFloat.unpack Format.binary64 bits.toBitVec) =
      bits.toBitVec := UnpackedFloat.pack_unpack_of_valid hvalid
  show Float.ofModel (Float.Model.mk _ _) = _
  rw [Float.ofModel.injEq, Float.Model.mk.injEq]
  exact congrArg UInt64.ofBitVec h

namespace Binary

theorem abs_withSign (negative : Bool) {bits : Nat} (h : bits < infinityBits) :
    (withSign negative bits).abs = withSign false bits := by
  have habs : (ofMagnitude negative bits).unpacked.abs = (ofMagnitude false bits).unpacked := by
    rw [unpacked, unpacked, ofMagnitude, ofMagnitude]
    split
    · dsimp only
      split <;> rfl
    · dsimp only
      split <;> rfl
  show Float.ofModel (.pack (withSign negative bits).toModel.unpack.abs) = _
  rw [← ofModel_pack_unpack (withSign false bits),
    unpack_of_ofFloat? (ofFloat?_withSign negative h),
    unpack_of_ofFloat? (ofFloat?_withSign false h), habs]

theorem rank?_abs {x : Float} {b : Binary} (h : ofFloat? x = some b) (hm : b.mantissa ≠ 0) :
    rank? x.abs = some (toLex (1, toLex (b.exponent, (b.mantissa : ℤ)))) := by
  obtain ⟨bits, hbits, hx, hb⟩ := eq_withSign h
  have hmagnitude : ofMagnitude false bits = ⟨false, b.mantissa, b.exponent⟩ := by
    rw [hb, ofMagnitude, ofMagnitude]
    split <;> rfl
  rw [hx, abs_withSign _ hbits, rank?, unpack_of_ofFloat? (ofFloat?_withSign false hbits),
    hmagnitude, unpacked, dif_pos (Nat.pos_of_ne_zero hm)]
  rfl

end Binary
end MapStyle

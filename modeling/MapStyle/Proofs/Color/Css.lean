/-
# `MapStyle.Proofs.Color.Css` — every color text is a valid color

A color that is read from a text has all its channels within `[0, 1]`
(`Css.isValid_of_color?`), and so its channels on the wire scale are accepted (`Color.ofWire_wire`).

Bytes and clamped numbers are in range at once.  The channels of `hsl` are sums and products that
are rounded at every step, and nothing holds them within bounds: the brightest channel is computed
as `l + s - l * s`, which exceeds 1 by half a unit in the last place where both sums are rounded the
wrong way.  That such a number is rounded down to 1 again is `Rounds.le_one`; the rest is to show
that the errors add up to no more.
-/
import MapStyle.Value.Coerce
import MapStyle.Proofs.Decimal.Arithmetic

namespace MapStyle

/-! ## Numbers within bounds -/

/-- A double within `[0, 1]`. -/
def IsChannel (x : Float) : Prop := ∃ q, Denotes x q ∧ 0 ≤ q ∧ q ≤ 1

theorem denotes_one : Denotes 1 1 := ⟨⟨false, 2 ^ 52, -52⟩, by decide, by norm_num [Binary.value]⟩

theorem denotes_255 : Denotes 255 255 :=
  ⟨⟨false, 255 * 2 ^ 45, -45⟩, by decide, by norm_num [Binary.value]⟩

theorem IsChannel.iff {x : Float} :
    IsChannel x ↔ (x.isFinite && inRange 0 1 x) = true := by
  rw [Bool.and_eq_true]
  constructor
  · rintro ⟨q, hq, h0, h1⟩
    exact ⟨hq.isFinite, (denotes_zero_literal.inRange_iff denotes_one hq).2 ⟨h0, h1⟩⟩
  · rintro ⟨hfinite, hrange⟩
    obtain ⟨q, hq⟩ := Denotes.of_isFinite hfinite
    obtain ⟨h0, h1⟩ := (denotes_zero_literal.inRange_iff denotes_one hq).1 hrange
    exact ⟨q, hq, h0, h1⟩

theorem Color.isValid_iff {c : Color} : c.isValid = true ↔ ∀ x ∈ c.channels, IsChannel x := by
  rw [Color.isValid, List.all_eq_true]
  exact forall₂_congr fun x _ => IsChannel.iff.symm

theorem denotes_clamp {low high x : Float} {a c q : ℚ} (hlow : Denotes low a)
    (hhigh : Denotes high c) (hac : a ≤ c) (hx : Denotes x q) :
    ∃ v, Denotes (clamp low high x) v ∧ a ≤ v ∧ v ≤ c := by
  rw [clamp]
  split
  · exact ⟨a, hlow, le_rfl, hac⟩
  · rename_i hge
    split
    · exact ⟨c, hhigh, hac, le_rfl⟩
    · rename_i hle
      rw [hx.lt_iff hlow, not_lt] at hge
      rw [hhigh.lt_iff hx, not_lt] at hle
      exact ⟨q, hx, hge, hle⟩

theorem isChannel_div {x y : Float} {q c : ℚ} (hx : Denotes x q) (hy : Denotes y c) (h0 : 0 ≤ q)
    (hqc : q ≤ c) (hc : 0 < c) : IsChannel (x / y) := by
  obtain ⟨r, hr, _, h0, h1⟩ := (hx.div hy hc.ne').between denotes_zero_literal denotes_one
    (div_nonneg h0 hc.le) ((div_le_one hc).2 hqc)
  exact ⟨r, hr, h0, h1⟩

/-! ## The brightest and the darkest channel -/

theorem representable_zero : Representable 0 := ⟨0, 0, by norm_num, by norm_num, by norm_num⟩

theorem representable_half : Representable (1 / 2) := by
  have h := representable_zpow (k := -1) (by norm_num)
  norm_num at h ⊢
  exact h

theorem representable_quarter : Representable (1 / 4) := by
  have h := representable_zpow (k := -2) (by norm_num)
  norm_num at h ⊢
  exact h

theorem Representable.double {q : ℚ} (h : Representable q) : Representable (2 * q) := by
  obtain ⟨k, e, rfl, hk, he⟩ := h
  refine ⟨k, e + 1, ?_, hk, by omega⟩
  rw [zpow_add_one₀ two_ne_zero]
  ring

/-- There are 53 bits behind the point. -/
theorem Representable.exists_grid_half {q : ℚ} (h : Representable q) (hq : 1 / 2 ≤ q) :
    ∃ k : ℤ, q = k / 2 ^ 53 := by
  obtain ⟨k, hk⟩ := h.exists_grid (j := -1) (by
    rw [abs_of_nonneg (by linarith), zpow_neg_one]
    linarith)
  exact ⟨k, by rw [hk]; norm_num [div_eq_mul_inv]⟩

theorem Representable.le_of_lt_one {q : ℚ} (h : Representable q) (hq : q < 1) :
    q ≤ 1 - 1 / 2 ^ 53 := by
  rcases lt_or_ge q (1 / 2) with hlow | hhigh
  · exact hlow.le.trans (by norm_num)
  · obtain ⟨k, rfl⟩ := h.exists_grid_half hhigh
    rw [div_lt_one (by positivity)] at hq
    have hk : k < 2 ^ 53 := by exact_mod_cast hq
    have hk : (k : ℚ) ≤ 2 ^ 53 - 1 := by exact_mod_cast Int.le_sub_one_of_lt hk
    linarith

section Extremes

variable {l s a b : ℚ}

theorem Rounds.sum_error (h : Rounds (l + s) a) (hl0 : 0 ≤ l) (hl1 : l ≤ 1) (hs0 : 0 ≤ s)
    (hs1 : s ≤ 1) : |a - (l + s)| ≤ 1 / 2 ^ 53 := by
  have herror := h.error_of_le (k := 1)
    (by rw [abs_of_nonneg (by linarith), zpow_one]; linarith) (by norm_num)
  exact herror.trans (by norm_num)

theorem Rounds.product_error (h : Rounds (l * s) b) (hl0 : 0 ≤ l) (hl1 : l ≤ 1) (hs0 : 0 ≤ s)
    (hs1 : s ≤ 1) : |b - l * s| ≤ 1 / 2 ^ 54 := by
  have herror := h.error_of_le (k := 0)
    (by rw [abs_of_nonneg (mul_nonneg hl0 hs0), zpow_zero]; exact mul_le_one₀ hl1 hs0 hs1)
    (by norm_num)
  exact herror.trans (by norm_num)

/-- Where the product is large, sum and product are multiples of `2 ^ (-53)`, and their difference
is less than two such steps above 1. -/
theorem sum_sub_product_le_of_large (hl : Representable l) (hl0 : 1 / 2 ≤ l) (hl1 : l < 1)
    (hs0 : 0 ≤ s) (hs1 : s < 1) (ha : Rounds (l + s) a) (hb : Rounds (l * s) b)
    (hlarge : 1 / 2 ≤ b) : a - b ≤ 1 + 1 / 2 ^ 53 := by
  have hsum := (abs_le.1 (ha.sum_error (by linarith) hl1.le hs0 hs1.le)).2
  have hproduct := (abs_le.1 (hb.product_error (by linarith) hl1.le hs0 hs1.le)).1
  have hgap : 0 < (1 - l) * (1 - s) := mul_pos (by linarith) (by linarith)
  obtain ⟨k, rfl⟩ := ha.representable.exists_grid_half (hl0.trans (ha.ge hl (by linarith)))
  obtain ⟨m, rfl⟩ := hb.representable.exists_grid_half hlarge
  have hlt : (k : ℚ) - m < 2 ^ 53 + 2 := by
    have : (k : ℚ) / 2 ^ 53 - m / 2 ^ 53 < 1 + 2 / 2 ^ 53 := by linarith
    rw [← sub_div, div_lt_iff₀ (by positivity)] at this
    linarith
  have hlt : k - m < 2 ^ 53 + 2 := by exact_mod_cast hlt
  have hle : (k : ℚ) - m ≤ 2 ^ 53 + 1 := by exact_mod_cast (by omega : k - m ≤ 2 ^ 53 + 1)
  rw [← sub_div, div_le_iff₀ (by positivity)]
  linarith

/-- One of two doubles below 1 whose product is below a half is far from 1. -/
theorem gap_of_small_product (hl : Representable l) (hs : Representable s) (hl0 : 1 / 2 ≤ l)
    (hl1 : l < 1) (hs1 : s < 1) (hsmall : l * s < 1 / 2) :
    1 / 2 ^ 55 ≤ (1 - l) * (1 - s) := by
  have hl' := hl.le_of_lt_one hl1
  have hs' := hs.le_of_lt_one hs1
  rcases le_or_gt l (3 / 4) with hl34 | hl34
  · calc (1 : ℚ) / 2 ^ 55 = 1 / 4 * (1 / 2 ^ 53) := by norm_num
      _ ≤ (1 - l) * (1 - s) := mul_le_mul (by linarith) (by linarith) (by positivity)
          (by linarith)
  · have hs34 : s < 2 / 3 := by nlinarith
    calc (1 : ℚ) / 2 ^ 55 = 1 / 2 ^ 53 * (1 / 4) := by norm_num
      _ ≤ (1 - l) * (1 - s) := mul_le_mul (by linarith) (by linarith) (by positivity)
          (by linarith)

theorem sum_sub_product_le_of_small (hl : Representable l) (hs : Representable s) (hl0 : 1 / 2 ≤ l)
    (hl1 : l < 1) (hs0 : 0 ≤ s) (hs1 : s < 1) (ha : Rounds (l + s) a) (hb : Rounds (l * s) b)
    (hsmall : b < 1 / 2) : a - b ≤ 1 + 1 / 2 ^ 53 := by
  have hls : l * s < 1 / 2 := by
    by_contra hge
    exact not_le.2 hsmall (hb.ge representable_half (not_lt.1 hge))
  have hsum := (abs_le.1 (ha.sum_error (by linarith) hl1.le hs0 hs1.le)).2
  have hproduct : |b - l * s| ≤ 1 / 2 ^ 55 := by
    have herror := hb.error_of_le (k := -1)
      (by rw [abs_of_nonneg (mul_nonneg (by linarith) hs0), zpow_neg_one]; linarith) (by norm_num)
    exact herror.trans (by norm_num)
  have hgap := gap_of_small_product hl hs hl0 hl1 hs1 hls
  linarith [(abs_le.1 hproduct).1]

/-- The brightest channel of a light color exceeds 1 by half a unit in the last place at most. -/
theorem sum_sub_product_le (hl : Representable l) (hs : Representable s) (hl0 : 1 / 2 ≤ l)
    (hl1 : l ≤ 1) (hs0 : 0 ≤ s) (hs1 : s ≤ 1) (ha : Rounds (l + s) a) (hb : Rounds (l * s) b) :
    a - b ≤ 1 + 1 / 2 ^ 53 := by
  have hsum := (abs_le.1 (ha.sum_error (by linarith) hl1 hs0 hs1)).2
  rcases hl1.lt_or_eq with hl1 | rfl
  · rcases hs1.lt_or_eq with hs1 | rfl
    · rcases le_or_gt (1 / 2) b with hlarge | hsmall
      · exact sum_sub_product_le_of_large hl hl0 hl1 hs0 hs1 ha hb hlarge
      · exact sum_sub_product_le_of_small hl hs hl0 hl1 hs0 hs1 ha hb hsmall
    · rw [mul_one] at hb
      rw [hb.exact hl]
      linarith
  · rw [one_mul] at hb
    rw [hb.exact hs]
    linarith

/-- The brightest channel of a light color is not much below `2 * l - 1`. -/
theorem le_sum_sub_product (hl : Representable l) (hs : Representable s) (hl0 : 1 / 2 ≤ l)
    (hl1 : l ≤ 1) (hs0 : 0 ≤ s) (hs1 : s ≤ 1) (ha : Rounds (l + s) a) (hb : Rounds (l * s) b) :
    2 * l - 1 - 1 / 2 ^ 53 ≤ a - b := by
  have hsum := (abs_le.1 (ha.sum_error (by linarith) hl1 hs0 hs1)).1
  rcases hl1.lt_or_eq with hl1 | rfl
  · have hl' := hl.le_of_lt_one hl1
    have hproduct := (abs_le.1 (hb.product_error (by linarith) hl1.le hs0 hs1)).2
    have hgap : 0 ≤ s * (1 - l) := mul_nonneg hs0 (by linarith)
    linarith
  · rw [one_mul] at hb
    rw [hb.exact hs]
    linarith

end Extremes

/-- Two channels between which the channels of a hue are found: both within `[0, 1]`, and where the
first one is the brighter one after all, it is far from zero. -/
structure Extremes (p q : Float) (d b : ℚ) : Prop where
  low : Denotes p d
  high : Denotes q b
  low_nonneg : 0 ≤ d
  low_le_one : d ≤ 1
  high_nonneg : 0 ≤ b
  high_le_one : b ≤ 1
  apart : d ≤ b ∨ 1 / 4 ≤ d

theorem denotes_two : Denotes 2 2 := ⟨⟨false, 2 ^ 52, -51⟩, by decide, by norm_num [Binary.value]⟩

section Extremes

variable {x y : Float} {l s : ℚ}

theorem denotes_double (hx : Denotes x l) (hl0 : 0 ≤ l) (hl1 : l ≤ 1) :
    Denotes (2 * x) (2 * l) := by
  obtain ⟨r, hr, hrounds, _, _⟩ := (denotes_two.mul hx).between denotes_zero_literal denotes_two
    (by linarith) (by linarith)
  rwa [hrounds.exact hx.representable.double] at hr

theorem extremes_dark (hx : Denotes x l) (hy : Denotes y s) (hl0 : 0 ≤ l) (hl1 : l ≤ 1 / 2)
    (hs0 : 0 ≤ s) (hs1 : s ≤ 1) :
    ∃ d b, Extremes (2 * x - x * (1 + y)) (x * (1 + y)) d b := by
  have hdouble := denotes_double hx hl0 (by linarith)
  obtain ⟨w, hw, _, hw1, hw2⟩ := (denotes_one.add hy).between denotes_one denotes_two
    (by linarith) (by linarith)
  obtain ⟨b, hb, _, hlb, hbl⟩ := (hx.mul hw).between hx hdouble (by nlinarith) (by nlinarith)
  obtain ⟨d, hd, _, hd0, hdl⟩ := (hdouble.sub hb).between denotes_zero_literal hx
    (by linarith) (by linarith)
  exact ⟨d, b, hd, hb, hd0, by linarith, by linarith, by linarith, .inl (by linarith)⟩

theorem extremes_light (hx : Denotes x l) (hy : Denotes y s) (hl0 : 1 / 2 ≤ l) (hl1 : l ≤ 1)
    (hs0 : 0 ≤ s) (hs1 : s ≤ 1) :
    ∃ d b, Extremes (2 * x - (x + y - x * y)) (x + y - x * y) d b := by
  have hdouble := denotes_double hx (by linarith) hl1
  have hl := hx.representable
  obtain ⟨a, ha, hsum, hla, ha2⟩ := (hx.add hy).between hx denotes_two (by linarith) (by linarith)
  obtain ⟨m, hm, hproduct, hm0, hml⟩ := (hx.mul hy).between denotes_zero_literal hx
    (by positivity) (by nlinarith)
  have hupper := sum_sub_product_le hl hy.representable hl0 hl1 hs0 hs1 hsum hproduct
  have hlower := le_sum_sub_product hl hy.representable hl0 hl1 hs0 hs1 hsum hproduct
  obtain ⟨b, hb, hbright, hb0, _⟩ := (ha.sub hm).between denotes_zero_literal denotes_two
    (by linarith) (by linarith)
  have hb1 : b ≤ 1 := hbright.le_one hupper
  have hbl : 2 * l - 1 - 1 / 2 ^ 53 ≤ b := by
    refine hbright.ge ?_ hlower
    obtain ⟨k, rfl⟩ := hl.exists_grid_half hl0
    rw [div_le_one (by positivity)] at hl1
    rw [le_div_iff₀ (by positivity)] at hl0
    have hk1 : k ≤ 2 ^ 53 := by exact_mod_cast hl1
    have hk0 : 2 ^ 52 ≤ k := by
      have : (2 : ℚ) ^ 52 ≤ k := by linarith
      exact_mod_cast this
    refine ⟨2 * k - 2 ^ 53 - 1, -53, ?_, abs_lt.2 ⟨by omega, by omega⟩, by norm_num⟩
    push_cast
    rw [zpow_neg]
    norm_num
    ring
  obtain ⟨d, hd, hdark, hd0, _⟩ := (hdouble.sub hb).between denotes_zero_literal denotes_two
    (by linarith) (by linarith)
  refine ⟨d, b, hd, hb, hd0, hdark.le_one (by linarith), hb0, hb1, ?_⟩
  by_contra hfar
  obtain ⟨hbd, hd4⟩ := not_or.1 hfar
  -- twice the lightness is at least 1, so one of them is far from zero, and it is the greater one
  refine hd4 (hdark.ge representable_quarter ?_)
  by_contra hsmall
  have hd34 : d ≤ 1 / 4 := hdark.le representable_quarter (not_le.1 hsmall).le
  linarith [not_le.1 hbd, not_le.1 hsmall]

end Extremes

/-! ## Channels between the extremes -/

theorem denotes_eight : Denotes 8 8 := ⟨⟨false, 2 ^ 52, -49⟩, by decide, by norm_num [Binary.value]⟩

theorem denotes_sixtyFour : Denotes 64 64 :=
  ⟨⟨false, 2 ^ 52, -46⟩, by decide, by norm_num [Binary.value]⟩

/-- Two factors whose product is below 1 make a number smaller, though both products are rounded. -/
theorem denotes_scaled {x y z : Float} {d a b : ℚ} (hx : Denotes x d) (hy : Denotes y a)
    (hz : Denotes z b) (hd : |d| ≤ 1) (ha0 : 0 ≤ a) (ha : a ≤ 6) (hb0 : 0 ≤ b) (hb : b ≤ 6)
    (hab : a * b ≤ 1 - 2 / 2 ^ 53) :
    ∃ r, Denotes (x * y * z) r ∧ |r| ≤ (1 - 2 / 2 ^ 106) * |d| + 1 / 2 ^ 190 ∧
      (0 ≤ d → 0 ≤ r) ∧ (d ≤ 0 → r ≤ 0) := by
  have hda : |d * a| ≤ 8 := by
    rw [abs_mul, abs_of_nonneg ha0]
    nlinarith [abs_nonneg d]
  obtain ⟨hda₁, hda₂⟩ := abs_le.1 hda
  obtain ⟨v, hv, hfirst, hv₁, hv₂⟩ := (hx.mul hy).between denotes_eight.neg denotes_eight hda₁ hda₂
  have hvb : |v * b| ≤ 64 := by
    rw [abs_mul, abs_of_nonneg hb0]
    nlinarith [abs_nonneg v, abs_le.2 ⟨hv₁, hv₂⟩]
  obtain ⟨hvb₁, hvb₂⟩ := abs_le.1 hvb
  obtain ⟨r, hr, hsecond, _, _⟩ :=
    (hv.mul hz).between denotes_sixtyFour.neg denotes_sixtyFour hvb₁ hvb₂
  refine ⟨r, hr, ?_, fun hd0 => ?_, fun hd0 => ?_⟩
  · have hfirst := hfirst.abs_le
    have hsecond := hsecond.abs_le
    rw [abs_mul, abs_of_nonneg ha0] at hfirst
    rw [abs_mul, abs_of_nonneg hb0] at hsecond
    have hd0 := abs_nonneg d
    calc |r| ≤ (1 + 1 / 2 ^ 53) * (|v| * b) + 1 / 2 ^ 200 := hsecond
      _ ≤ (1 + 1 / 2 ^ 53) * (((1 + 1 / 2 ^ 53) * (|d| * a) + 1 / 2 ^ 200) * b) + 1 / 2 ^ 200 := by
          gcongr
      _ = (1 + 1 / 2 ^ 53) ^ 2 * |d| * (a * b) + (1 + 1 / 2 ^ 53) * b / 2 ^ 200 + 1 / 2 ^ 200 := by
          ring
      _ ≤ (1 + 1 / 2 ^ 53) ^ 2 * |d| * (1 - 2 / 2 ^ 53) + (1 + 1 / 2 ^ 53) * 6 / 2 ^ 200 +
            1 / 2 ^ 200 := by gcongr
      _ ≤ (1 - 2 / 2 ^ 106) * |d| + 1 / 2 ^ 190 := by
          have hfactor : ((1 : ℚ) + 1 / 2 ^ 53) ^ 2 * (1 - 2 / 2 ^ 53) ≤ 1 - 2 / 2 ^ 106 := by
            norm_num
          have hrest : ((1 : ℚ) + 1 / 2 ^ 53) * 6 / 2 ^ 200 + 1 / 2 ^ 200 ≤ 1 / 2 ^ 190 := by
            norm_num
          linarith [mul_le_mul_of_nonneg_right hfactor hd0]
  · exact hsecond.ge representable_zero
      (mul_nonneg (hfirst.ge representable_zero (mul_nonneg hd0 ha0)) hb0)
  · exact hsecond.le representable_zero (mul_nonpos_of_nonpos_of_nonneg
      (hfirst.le representable_zero (mul_nonpos_of_nonpos_of_nonneg hd0 ha0)) hb0)

section Hue

variable {p q : Float} {d b : ℚ}

/-- A channel on the way from one extreme to the other is within `[0, 1]`. -/
theorem Extremes.isChannel_scaled (h : Extremes p q d b) {y z : Float} {α β : ℚ}
    (hy : Denotes y α) (hz : Denotes z β) (hα0 : 0 ≤ α) (hα : α ≤ 6) (hβ0 : 0 ≤ β) (hβ : β ≤ 6)
    (hαβ : α * β ≤ 1 - 2 / 2 ^ 53) : IsChannel (p + (q - p) * y * z) := by
  obtain ⟨hp, hq, hd0, hd1, hb0, hb1, hapart⟩ := h
  obtain ⟨e, he, hdifference, he₁, he₂⟩ := (hq.sub hp).between hp.neg hq (by linarith) (by linarith)
  obtain ⟨r, hr, hsmall, hpos, hneg⟩ := denotes_scaled he hy hz
    (abs_le.2 ⟨by linarith, by linarith⟩) hα0 hα hβ0 hβ hαβ
  have hsum : 0 ≤ d + r ∧ d + r ≤ 1 + 1 / 2 ^ 53 := by
    rcases le_total 0 (b - d) with hup | hdown
    · have he0 : 0 ≤ e := hdifference.ge representable_zero hup
      have hr0 := hpos he0
      have hwide := hdifference.abs_le
      rw [abs_of_nonneg he0, abs_of_nonneg hup] at hwide
      rw [abs_of_nonneg hr0, abs_of_nonneg he0] at hsmall
      refine ⟨by linarith, ?_⟩
      have hscaled : (1 - 2 / 2 ^ 106) * e ≤
          (1 - 2 / 2 ^ 106) * ((1 + 1 / 2 ^ 53) * (b - d) + 1 / 2 ^ 200) :=
        mul_le_mul_of_nonneg_left hwide (by norm_num)
      nlinarith
    · have he0 : e ≤ 0 := hdifference.le representable_zero hdown
      have hr0 := hneg he0
      rw [abs_of_nonpos hr0, abs_of_nonpos he0] at hsmall
      refine ⟨?_, by linarith [show (0 : ℚ) < 1 / 2 ^ 53 by positivity]⟩
      rcases hapart with hdb | hd4
      · have he0 : e = 0 := by
          refine le_antisymm he0 (hdifference.ge representable_zero (by linarith))
        linarith [hpos he0.ge]
      · have hscaled : (1 - 2 / 2 ^ 106) * -e ≤ (1 - 2 / 2 ^ 106) * d :=
          mul_le_mul_of_nonneg_left (by linarith) (by norm_num)
        nlinarith
  obtain ⟨c, hc, hrounds, hc0, _⟩ := (hp.add hr).between denotes_zero_literal denotes_two hsum.1
    (by linarith [hsum.2, show (1 : ℚ) / 2 ^ 53 < 1 by norm_num])
  exact ⟨c, hc, hc0, hrounds.le_one hsum.2⟩

theorem denotes_sixth : Denotes (1.0 / 6.0) (6004799503160661 / 2 ^ 55) :=
  ⟨⟨false, 6004799503160661, -55⟩, by decide +kernel, by norm_num [Binary.value]⟩

theorem denotes_half : Denotes (1.0 / 2.0) (1 / 2) :=
  ⟨⟨false, 2 ^ 52, -53⟩, by decide +kernel, by norm_num [Binary.value]⟩

theorem denotes_half_literal : Denotes 0.5 (1 / 2) :=
  ⟨⟨false, 2 ^ 52, -53⟩, by decide, by norm_num [Binary.value]⟩

theorem denotes_twoThirds : Denotes (2.0 / 3.0) (6004799503160661 / 2 ^ 53) :=
  ⟨⟨false, 6004799503160661, -53⟩, by decide +kernel, by norm_num [Binary.value]⟩

theorem denotes_six : Denotes 6.0 6 :=
  ⟨⟨false, 3 * 2 ^ 51, -50⟩, by decide, by norm_num [Binary.value]⟩

/-- A double below the one of a sixth is below it by a unit in the last place. -/
theorem mul_le_of_lt_sixth {t : Float} {τ : ℚ} (ht : Denotes t τ) (h0 : 0 ≤ τ)
    (hlt : τ < 6004799503160661 / 2 ^ 55) : 6 * τ ≤ 1 - 2 / 2 ^ 53 := by
  rcases lt_or_ge τ (1 / 8) with hsmall | hlarge
  · linarith
  · obtain ⟨k, rfl⟩ := ht.representable.exists_grid (j := -3) (by
      rw [abs_of_nonneg h0]
      norm_num
      linarith)
    have hk : (k : ℚ) < 6004799503160661 := by
      norm_num at hlt
      linarith
    have hk : k < 6004799503160661 := by exact_mod_cast hk
    have hk : (k : ℚ) ≤ 6004799503160660 := by exact_mod_cast (by omega : k ≤ 6004799503160660)
    norm_num
    linarith

/-- A hue is brought into `[0, 1]` by one turn. -/
theorem denotes_turned {t : Float} {τ : ℚ} (ht : Denotes t τ) (hlow : -1 ≤ τ) (hhigh : τ ≤ 2) :
    ∃ θ, Denotes (if 1 < (if t < 0 then t + 1 else t) then (if t < 0 then t + 1 else t) - 1
      else if t < 0 then t + 1 else t) θ ∧ 0 ≤ θ ∧ θ ≤ 1 := by
  by_cases hneg : t < 0
  · rw [ht.lt_iff denotes_zero_literal] at hneg
    obtain ⟨r, hr, _, h0, h1⟩ := (ht.add denotes_one).between denotes_zero_literal denotes_one
      (by linarith) (by linarith)
    rw [if_pos ((ht.lt_iff denotes_zero_literal).2 hneg),
      if_neg (by rw [denotes_one.lt_iff hr]; exact not_lt.2 h1)]
    exact ⟨r, hr, h0, h1⟩
  · rw [if_neg hneg]
    rw [ht.lt_iff denotes_zero_literal, not_lt] at hneg
    split
    · rename_i habove
      rw [denotes_one.lt_iff ht] at habove
      obtain ⟨r, hr, _, h0, h1⟩ := (ht.sub denotes_one).between denotes_zero_literal denotes_one
        (by linarith) (by linarith)
      exact ⟨r, hr, h0, h1⟩
    · rename_i hbelow
      rw [denotes_one.lt_iff ht, not_lt] at hbelow
      exact ⟨τ, ht, hneg, hbelow⟩

theorem Extremes.isChannel_hue (h : Extremes p q d b) {t : Float} {τ : ℚ} (ht : Denotes t τ)
    (hlow : -1 ≤ τ) (hhigh : τ ≤ 2) : IsChannel (Css.hueChannel p q t) := by
  obtain ⟨θ, hθ, h0, h1⟩ := denotes_turned ht hlow hhigh
  rw [Css.hueChannel]
  generalize (if 1 < (if t < 0 then t + 1 else t) then (if t < 0 then t + 1 else t) - 1
    else if t < 0 then t + 1 else t) = u at hθ ⊢
  split
  · rename_i hsixth
    rw [hθ.lt_iff denotes_sixth] at hsixth
    have hscale := mul_le_of_lt_sixth hθ h0 hsixth
    exact h.isChannel_scaled denotes_six hθ (by norm_num) le_rfl h0 (by linarith) hscale
  split
  · exact ⟨b, h.high, h.high_nonneg, h.high_le_one⟩
  rename_i hhalf
  rw [hθ.lt_iff denotes_half, not_lt] at hhalf
  split
  · rename_i hthird
    rw [hθ.lt_iff denotes_twoThirds] at hthird
    obtain ⟨w, hw, hrounds, hw0, hw1⟩ := (denotes_twoThirds.sub hθ).between denotes_zero_literal
      denotes_one (by linarith) (by norm_num; linarith)
    -- six times the distance that is left from a half on is below 1
    have hdistance : w ≤ 1501199875790165 / 2 ^ 53 := by
      refine hrounds.le ⟨1501199875790165, -53, by norm_num, by norm_num, by norm_num⟩ ?_
      norm_num
      linarith
    exact h.isChannel_scaled hw denotes_six hw0 (by linarith) (by norm_num) le_rfl (by
      norm_num at hdistance ⊢
      linarith)
  · exact ⟨d, h.low, h.low_nonneg, h.low_le_one⟩

end Hue

/-! ## Hues -/

theorem denotes_360 : Denotes 360 360 :=
  ⟨⟨false, 45 * 2 ^ 47, -44⟩, by decide, by norm_num [Binary.value]⟩

theorem denotes_720 : Denotes 720 720 :=
  ⟨⟨false, 45 * 2 ^ 47, -43⟩, by decide, by norm_num [Binary.value]⟩

theorem denotes_third : Denotes (1.0 / 3.0) (6004799503160661 / 2 ^ 54) :=
  ⟨⟨false, 6004799503160661, -54⟩, by decide +kernel, by norm_num [Binary.value]⟩

theorem Color.isValid_mk {r g b a : Float} (hr : IsChannel r) (hg : IsChannel g) (hb : IsChannel b)
    (ha : IsChannel a) : Color.isValid ⟨r, g, b, a⟩ = true := by
  rw [Color.isValid_iff]
  simp only [Color.channels, List.forall_mem_cons]
  exact ⟨hr, hg, hb, ha, List.forall_mem_nil _⟩

namespace Css

theorem isChannel_turn {hue : Float} (h : hue.isFinite = true) :
    IsChannel (remainder (remainder hue 360 + 360) 360 / 360) := by
  obtain ⟨q, hq⟩ := Denotes.of_isFinite h
  obtain ⟨r, hr, hr₁, hr₂, _⟩ := remainder_bounds hq denotes_360 (by norm_num)
  obtain ⟨w, hw, _, hw0, _⟩ := (hr.add denotes_360).between denotes_zero_literal denotes_720
    (by linarith) (by linarith)
  obtain ⟨v, hv, _, hv₁, hv0⟩ := remainder_bounds hw denotes_360 (by norm_num)
  exact isChannel_div hv denotes_360 (hv0 hw0) hv₁ (by norm_num)

theorem isValid_ofHsl {hue saturation lightness alpha : Float} (hhue : hue.isFinite = true)
    (hsaturation : saturation.isFinite = true) (hlightness : lightness.isFinite = true)
    (halpha : IsChannel alpha) : (ofHsl hue saturation lightness alpha).isValid = true := by
  obtain ⟨_, hs⟩ := Denotes.of_isFinite hsaturation
  obtain ⟨_, hl⟩ := Denotes.of_isFinite hlightness
  obtain ⟨s, hs, hs0, hs1⟩ := denotes_clamp denotes_zero_literal denotes_one zero_le_one hs
  obtain ⟨l, hl, hl0, hl1⟩ := denotes_clamp denotes_zero_literal denotes_one zero_le_one hl
  obtain ⟨h, hh, hh0, hh1⟩ := isChannel_turn hhue
  rw [ofHsl]
  generalize clamp 0 1 saturation = y at hs ⊢
  generalize clamp 0 1 lightness = x at hl ⊢
  generalize remainder (remainder hue 360 + 360) 360 / 360 = t at hh ⊢
  have hlightness : IsChannel x := ⟨l, hl, hl0, hl1⟩
  split
  · exact Color.isValid_mk hlightness hlightness hlightness halpha
  -- the three hues are a third of a turn apart
  obtain ⟨u, hu, _, hu₁, hu₂⟩ := (hh.add denotes_third).between denotes_zero_literal denotes_two
    (by positivity) (by norm_num; linarith)
  obtain ⟨w, hw, _, hw₁, hw₂⟩ := (hh.sub denotes_third).between denotes_one.neg denotes_one
    (by norm_num; linarith) (by norm_num; linarith)
  have hvalid : ∀ {p q : Float} {d b : ℚ}, Extremes p q d b →
      Color.isValid ⟨hueChannel p q (t + 1.0 / 3.0), hueChannel p q t,
        hueChannel p q (t - 1.0 / 3.0), alpha⟩ = true := fun hextremes =>
    Color.isValid_mk (hextremes.isChannel_hue hu (by linarith) hu₂)
      (hextremes.isChannel_hue hh (by linarith) (by linarith))
      (hextremes.isChannel_hue hw hw₁ (by linarith)) halpha
  split
  · rename_i hdark
    rw [hl.lt_iff denotes_half_literal] at hdark
    obtain ⟨d, b, hextremes⟩ := extremes_dark hl hs hl0 hdark.le hs0 hs1
    exact hvalid hextremes
  · rename_i hlight
    rw [hl.lt_iff denotes_half_literal, not_lt] at hlight
    obtain ⟨d, b, hextremes⟩ := extremes_light hl hs hlight hl1 hs0 hs1
    exact hvalid hextremes

/-! ## Texts -/

theorem isChannel_byte (b : UInt8) : IsChannel (b.toFloat / 255) := by
  have hall : ∀ n < 256, ((UInt8.ofNat n).toFloat / 255).isFinite &&
      inRange 0 1 ((UInt8.ofNat n).toFloat / 255) := by decide +kernel
  have hb := hall b.toNat b.toNat_lt
  rw [UInt8.ofNat_toNat] at hb
  exact IsChannel.iff.2 hb

theorem isValid_ofBytes (r g b : UInt8) {a : Float} (ha : IsChannel a) :
    (Color.ofBytes r g b a).isValid = true :=
  Color.isValid_mk (isChannel_byte r) (isChannel_byte g) (isChannel_byte b) ha

theorem isChannel_one : IsChannel 1 := ⟨1, denotes_one, zero_le_one, le_rfl⟩

variable {c : Color}

theorem isValid_of_hex? {cs : List Char} (h : hex? cs = some c) : c.isValid = true := by
  have halpha : ∀ a, IsChannel (alphaOfByte a) := isChannel_byte
  unfold hex? at h
  split at h
  all_goals
    simp only [Option.bind_eq_bind, Option.bind_eq_some_iff, Option.pure_def,
      Option.some_inj, reduceCtorEq] at h
  · obtain ⟨r, _, g, _, b, _, rfl⟩ := h
    exact isValid_ofBytes r g b isChannel_one
  · obtain ⟨r, _, g, _, b, _, a, _, rfl⟩ := h
    exact isValid_ofBytes r g b (halpha a)
  · obtain ⟨r, _, g, _, b, _, rfl⟩ := h
    exact isValid_ofBytes r g b isChannel_one
  · obtain ⟨r, _, g, _, b, _, a, _, rfl⟩ := h
    exact isValid_ofBytes r g b (halpha a)

theorem isValid_of_named? {cs : List Char} (h : named? cs = some c) : c.isValid = true := by
  simp only [named?] at h
  split at h
  · cases h
    exact by decide
  · obtain ⟨⟨r, g, b⟩, _, rfl⟩ := Option.map_eq_some_iff.1 h
    exact isValid_ofBytes r g b isChannel_one

theorem isFinite_component? {whole x : Float} {cs : List Char} (h : component? whole cs = some x) :
    x.isFinite = true := by
  rw [component?] at h
  split at h
  · exact (Option.filter_eq_some_iff.1 h).2
  · exact (Option.filter_eq_some_iff.1 h).2

theorem isChannel_of_alpha? {args : List (List Char)} {a : Float} (h : alpha? args = some a) :
    IsChannel a := by
  cases args with
  | nil =>
      cases h
      exact isChannel_one
  | cons arg args =>
      obtain ⟨x, hx, rfl⟩ := Option.map_eq_some_iff.1 h
      obtain ⟨_, hx⟩ := Denotes.of_isFinite (isFinite_component? hx)
      obtain ⟨v, hv, hv0, hv1⟩ := denotes_clamp denotes_zero_literal denotes_one zero_le_one hx
      exact ⟨v, hv, hv0, hv1⟩

theorem isChannel_of_rgbChannel? {cs : List Char} {x : Float} (h : rgbChannel? cs = some x) :
    IsChannel x := by
  obtain ⟨y, hy, rfl⟩ := Option.map_eq_some_iff.1 h
  obtain ⟨_, hy⟩ := Denotes.of_isFinite (isFinite_component? hy)
  obtain ⟨v, hv, hv0, hv1⟩ := denotes_clamp denotes_zero_literal denotes_255 (by norm_num) hy
  exact isChannel_div hv denotes_255 hv0 hv1 (by norm_num)

theorem isValid_of_rgb? {args : List (List Char)} (h : rgb? args = some c) : c.isValid = true := by
  unfold rgb? at h
  split at h
  · split at h
    · cases h
    · simp only [Option.bind_eq_bind, Option.bind_eq_some_iff, Option.pure_def,
        Option.some_inj] at h
      obtain ⟨r, hr, g, hg, b, hb, a, ha, rfl⟩ := h
      exact Color.isValid_mk (isChannel_of_rgbChannel? hr) (isChannel_of_rgbChannel? hg)
        (isChannel_of_rgbChannel? hb) (isChannel_of_alpha? ha)
  · cases h

theorem isValid_of_hsl? {args : List (List Char)} (h : hsl? args = some c) : c.isValid = true := by
  unfold hsl? at h
  split at h
  · split at h
    · cases h
    · simp only [Option.bind_eq_bind, Option.bind_eq_some_iff, Option.pure_def,
        Option.some_inj] at h
      obtain ⟨hue, hhue, s, hs, l, hl, a, ha, rfl⟩ := h
      exact isValid_ofHsl (Option.filter_eq_some_iff.1 hhue).2 (isFinite_component? hs)
        (isFinite_component? hl) (isChannel_of_alpha? ha)
  · cases h

theorem isValid_of_color? {s : String} (h : color? s = some c) : c.isValid = true := by
  simp only [color?] at h
  split at h
  · exact isValid_of_hex? h
  split at h
  · exact isValid_of_rgb? h
  split at h
  · exact isValid_of_hsl? h
  · exact isValid_of_named? h

end Css

/-! ## The wire scale -/

theorem IsChannel.inRange_wire {x : Float} (h : IsChannel x) :
    inRange 0 255 (unsigned (x * 255)) = true := by
  obtain ⟨q, hq, h0, h1⟩ := h
  obtain ⟨r, hr, _, hr0, hr1⟩ := (hq.mul denotes_255).between denotes_zero_literal denotes_255
    (by linarith) (by linarith)
  exact (denotes_zero_literal.inRange_iff denotes_255 hr.unsigned).2 ⟨hr0, hr1⟩

/-- The color that the wire channels of a color are read as; they are written without the sign of
zero. -/
def Color.rewired (c : Color) : Color :=
  ⟨unsigned (c.r * 255) / 255, unsigned (c.g * 255) / 255, unsigned (c.b * 255) / 255,
    unsigned c.a⟩

/-- The wire channels of a valid color are those of a color. -/
theorem Color.ofWire_wire {c : Color} (h : c.isValid = true) :
    ofWire (unsigned (c.r * 255)) (unsigned (c.g * 255)) (unsigned (c.b * 255))
        (some (unsigned c.a)) = .ok c.rewired := by
  rw [isValid_iff] at h
  simp only [channels, List.forall_mem_cons] at h
  obtain ⟨hr, hg, hb, ha, _⟩ := h
  have halpha : inRange 0 1 (unsigned c.a) = true := by
    rw [inRange_unsigned]
    exact (Bool.and_eq_true_iff.1 (IsChannel.iff.1 ha)).2
  simp only [ofWire, Option.getD_some, hr.inRange_wire, hg.inRange_wire, hb.inRange_wire, halpha,
    Bool.and_self, Bool.not_true, Bool.false_eq_true, if_false]
  rfl

end MapStyle

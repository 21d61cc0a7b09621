/-
# `MapStyle.Proofs.Decimal.NumberText` — which doubles are written like a whole number

A label is looked up by its text.  A number label is whole and at most 53 bits long, and is written
as the integer that it is; only a double that is this integer is written so
(`numberText_eq_toString`).  Looking numbers up by their texts is therefore comparing them
(`numberText_eq_iff`).
-/
import MapStyle.Proofs.Decimal.Shortest

namespace MapStyle

/-! ## Texts of digits -/

/-- A text without anything but digits. -/
def Numeric (s : String) : Prop := ∀ c ∈ s.toList, c.isDigit = true

theorem toList_toString (n : ℕ) : (toString n).toList = Nat.toDigits 10 n := Nat.toList_repr

theorem numeric_toString (n : ℕ) : Numeric (toString n) := by
  intro c hc
  rw [toList_toString] at hc
  exact Nat.isDigit_of_mem_toDigits (by norm_num) (by norm_num) hc

theorem toDigits_mul_pow {a : ℕ} (ha : a ≠ 0) (g : ℕ) :
    Nat.toDigits 10 (a * 10 ^ g) = Nat.toDigits 10 a ++ List.replicate g '0' := by
  induction g with
  | zero => simp
  | succ g ih =>
      have hpos : 0 < a * 10 ^ g := by positivity
      have hzero : Nat.toDigits 10 0 = ['0'] := by decide
      have hlast := Nat.toDigits_append_toDigits (b := 10) (d := 0) (by norm_num) hpos (by norm_num)
      rw [hzero, ih, List.append_assoc, ← List.replicate_succ'] at hlast
      rw [hlast]
      congr 1
      ring

/-- Final zeros of a number are zeros behind the text of the rest. -/
theorem toString_mul_pow {a : ℕ} (ha : a ≠ 0) (g : ℕ) :
    toString a ++ Layout.zeros g = toString (a * 10 ^ g) := by
  apply String.toList_injective
  rw [String.toList_append, toList_toString, toList_toString, toDigits_mul_pow ha, Layout.zeros,
    String.toList_ofList]

theorem length_toString_pos (n : ℕ) : 0 < (toString n).length := by
  rw [← String.length_toList, toList_toString]
  exact List.length_pos_of_ne_nil Nat.toDigits_ne_nil

namespace Layout

/-- Digits of a whole number below `10 ^ 21` are written out with their zeros. -/
theorem digitsText_of_whole {d : Digits} {g : ℕ} (hg : d.exponent = g) (hd : d.digits ≠ 0)
    (hlt : d.digits * 10 ^ g < 10 ^ 21) : label.digitsText d = toString (d.digits * 10 ^ g) := by
  have hlength : (toString d.digits).length + g ≤ 21 := by
    have hle : (d.digits * 10 ^ g).repr.length ≤ 21 := Nat.repr_length _ _ (by norm_num) hlt
    have hsplit := congrArg String.length (toString_mul_pow hd g)
    rw [String.length_append, zeros, String.length_ofList, List.length_replicate] at hsplit
    exact hsplit.le.trans hle
  have hpos := length_toString_pos d.digits
  have hpoint : label.positional = some (-6, 20) := rfl
  rw [digitsText]
  simp only [hpoint, hg]
  rw [if_pos (by omega), positionalText, if_neg (by omega), if_neg (by omega), if_neg nofun,
    String.append_empty, ← toString_mul_pow hd g]
  congr 2
  omega

theorem not_numeric_scientificText (ds : String) (power : ℤ) :
    ¬ Numeric (scientificText ds power) := by
  intro h
  have hmem : 'e' ∈ (scientificText ds power).toList := by simp [scientificText]
  exact absurd (h 'e' hmem) (by decide)

/-- Positional text is just digits only where the point is behind all of them. -/
theorem le_point_of_numeric {ds : String} {point : ℤ}
    (h : Numeric (label.positionalText ds point)) : 0 < point ∧ ds.length ≤ point := by
  have hpoint : '.' ∉ (label.positionalText ds point).toList := by
    intro hmem
    exact absurd (h '.' hmem) (by decide)
  rw [positionalText] at hpoint
  split at hpoint
  · exact absurd (by simp) hpoint
  · split at hpoint
    · exact absurd (by simp) hpoint
    · omega

theorem whole_of_digitsText {d : Digits} (hd : d.digits ≠ 0) {n : ℕ}
    (h : label.digitsText d = toString n) : ∃ g : ℕ, d.exponent = g ∧ d.digits * 10 ^ g = n := by
  have hnumeric : Numeric (label.digitsText d) := h ▸ numeric_toString n
  have hpositional : label.positional = some (-6, 20) := rfl
  rw [digitsText] at h hnumeric
  simp only [hpositional] at h hnumeric
  split at h
  · rename_i hrange
    rw [if_pos hrange] at hnumeric
    obtain ⟨hpos, hlength⟩ := le_point_of_numeric hnumeric
    obtain ⟨g, hg⟩ := Int.eq_ofNat_of_zero_le (show 0 ≤ d.exponent by omega)
    refine ⟨g, hg, ?_⟩
    rw [positionalText, if_neg (by omega), if_neg (by omega), if_neg nofun, String.append_empty, hg,
      show ((toString d.digits).length + (g : ℤ)).toNat - (toString d.digits).length = g by omega,
      toString_mul_pow hd] at h
    exact Nat.repr_inj.1 h
  · rename_i hrange
    rw [if_neg hrange] at hnumeric
    exact absurd hnumeric (not_numeric_scientificText _ _)

theorem head?_positionalText {ds : String} {c : Char} {cs : List Char} (hds : ds.toList = c :: cs)
    (point : ℤ) : (label.positionalText ds point).toList.head? = some '0' ∨
      (label.positionalText ds point).toList.head? = some c := by
  rw [positionalText]
  split
  · exact .inl (by simp)
  · obtain ⟨k, hk⟩ : ∃ k, point.toNat = k + 1 := ⟨point.toNat - 1, by omega⟩
    split
    · exact .inr (by simp [hds, hk])
    · exact .inr (by simp [hds])

theorem head?_scientificText {ds : String} {c : Char} {cs : List Char} (hds : ds.toList = c :: cs)
    (power : ℤ) : (scientificText ds power).toList.head? = some c := by
  rw [scientificText, hds]
  cases cs <;> simp

theorem digitsText_ne_minus (d : Digits) (s : String) : label.digitsText d ≠ "-" ++ s := by
  obtain ⟨c, cs, hds⟩ := List.exists_cons_of_length_pos (l := (toString d.digits).toList) (by
    rw [String.length_toList]
    exact length_toString_pos d.digits)
  have hc : c ≠ '-' := by
    rintro rfl
    have hdigit := numeric_toString d.digits '-' (hds ▸ List.mem_cons_self)
    exact absurd hdigit (by decide)
  have hpositional : label.positional = some (-6, 20) := rfl
  intro h
  have hhead : (label.digitsText d).toList.head? = some '-' := by
    rw [h]
    simp
  rw [digitsText] at hhead
  simp only [hpositional] at hhead
  split at hhead
  · rcases head?_positionalText hds ((toString d.digits).length + d.exponent) with hzero | hfirst
    · rw [hzero] at hhead
      exact absurd (Option.some.inj hhead) (by decide)
    · rw [hfirst] at hhead
      exact hc (Option.some.inj hhead)
  · rw [head?_scientificText hds] at hhead
    exact hc (Option.some.inj hhead)

end Layout

/-! ## Texts of doubles -/

namespace Digits

theorem digits_shortest_ne_zero {mantissa : ℕ} (hm : mantissa ≠ 0) (tie : Tie) (exponent : ℤ) :
    (shortest tie mantissa exponent).digits ≠ 0 := by
  intro hzero
  obtain ⟨hleast, _⟩ := contains_shortest tie mantissa exponent
  have hlower := Binary.le_least mantissa exponent
  rw [value, hzero, Nat.cast_zero, zero_mul] at hleast
  have hpos : (0 : ℚ) < 2 ^ (exponent - 2) := by positivity
  have hle : ((Interval.ofBinary mantissa exponent).least : ℚ) ≤ 0 := by
    by_contra hlt
    have := mul_pos (not_le.1 hlt) hpos
    linarith
  have hle : (Interval.ofBinary mantissa exponent).least ≤ 0 := by exact_mod_cast hle
  omega

end Digits

namespace Binary

/-- A positive double is written like a whole number of at most 53 bits just when it is that
number. -/
theorem digitsText_eq_toString {b : Binary} (h : Normal b.mantissa b.exponent)
    (hm : b.mantissa ≠ 0) {n : ℕ} (hn : n < 2 ^ 53) :
    Layout.label.digitsText (Digits.shortest Layout.label.tie b.mantissa b.exponent) =
      toString n ↔ b.whole? = some n := by
  have hdigits := Digits.digits_shortest_ne_zero hm Layout.label.tie b.exponent
  constructor
  · intro htext
    obtain ⟨g, hg, hvalue⟩ := Layout.whole_of_digitsText hdigits htext
    have hpos : n ≠ 0 := by
      rw [← hvalue]
      exact Nat.mul_ne_zero hdigits (by positivity)
    refine whole?_of_contains h hpos hn ?_
    have hcontains := Digits.contains_shortest Layout.label.tie b.mantissa b.exponent
    rw [Digits.value, hg, zpow_natCast] at hcontains
    rw [← hvalue]
    push_cast
    exact hcontains
  · intro hwhole
    have hpos : n ≠ 0 := fun hzero => hm ((mantissa_eq_zero_iff hwhole).2 hzero)
    obtain ⟨g, hg, hvalue⟩ :=
      Digits.shortest_of_whole Layout.label.tie h hpos hn (whole?_eq_some hwhole)
    rw [Layout.digitsText_of_whole hg hdigits (by omega), hvalue]

end Binary

/-- An integer is written with digits behind a sign. -/
theorem isDigit_or_minus {z : ℤ} {c : Char} (hc : c ∈ (toString z).toList) :
    c.isDigit = true ∨ c = '-' := by
  cases z with
  | ofNat n => exact .inl (numeric_toString n c hc)
  | negSucc k =>
      replace hc : c ∈ ("-" ++ toString (k + 1)).toList := hc
      rw [String.toList_append] at hc
      rcases List.mem_append.1 hc with hc | hc
      · exact .inr (List.mem_singleton.1 hc)
      · exact .inl (numeric_toString _ c hc)

/-- The text of a double without an exact form is a word. -/
theorem numberText_ne_toString {x : Float} (h : Binary.ofFloat? x = none) (z : ℤ) :
    numberText x ≠ toString z := by
  have hletter : ∃ c ∈ (numberText x).toList, c.isDigit = false ∧ c ≠ '-' := by
    simp only [numberText, h]
    split
    · exact ⟨'N', by decide, by decide, by decide⟩
    · split
      · exact ⟨'I', by decide, by decide, by decide⟩
      · exact ⟨'I', by decide, by decide, by decide⟩
  intro htext
  obtain ⟨c, hc, hdigit, hminus⟩ := hletter
  rw [htext] at hc
  rcases isDigit_or_minus hc with h | h
  · rw [hdigit] at h
    cases h
  · exact hminus h

/-- A text behind a sign is that of an integer when sign and magnitude are. -/
theorem signed_eq_toString {negative : Bool} {s : String} (hs : ∀ r, s ≠ "-" ++ r) (z : ℤ) :
    (if negative then "-" else "") ++ s = toString z ↔
      s = toString z.natAbs ∧ negative = decide (z < 0) := by
  cases z with
  | ofNat n =>
      cases negative with
      | true =>
          refine iff_of_false (fun h => ?_) fun h =>
            absurd (of_decide_eq_true h.2.symm) (Int.not_lt.2 (Int.natCast_nonneg n))
          have hmem : '-' ∈ (toString n).toList := by
            rw [show toString n = toString (Int.ofNat n) from rfl, ← h]
            simp
          exact absurd (numeric_toString n '-' hmem) (by decide)
      | false => exact (and_iff_left (by simp)).symm
  | negSucc k =>
      cases negative with
      | true =>
          refine Iff.trans ?_ (and_iff_left (by simp)).symm
          show "-" ++ s = "-" ++ toString (k + 1) ↔ s = toString (k + 1)
          constructor
          · intro h
            have hlist := congrArg String.toList h
            rw [String.toList_append, String.toList_append] at hlist
            exact String.toList_injective (List.append_cancel_left hlist)
          · rintro rfl
            rfl
      | false => exact iff_of_false (hs _) (fun h => by simp at h)

theorem wholeNumber?_eq_some {x : Float} {b : Binary} (hb : Binary.ofFloat? x = some b)
    (hm : b.mantissa ≠ 0) (z : ℤ) :
    wholeNumber? x = some z ↔ b.whole? = some z.natAbs ∧ b.negative = decide (z < 0) := by
  have hpos : ∀ n, b.whole? = some n → n ≠ 0 := fun n hn hzero =>
    hm ((Binary.mantissa_eq_zero_iff hn).2 hzero)
  simp only [wholeNumber?, hb, Option.bind_eq_bind, Option.bind_some]
  cases hwhole : b.whole? with
  | none => simp
  | some n =>
      have hn := hpos n hwhole
      simp only [Option.bind_some, Option.pure_def, Option.some_inj]
      cases b.negative with
      | true =>
          simp only [if_true]
          constructor
          · rintro rfl
            exact ⟨by omega, by simp; omega⟩
          · rintro ⟨rfl, hz⟩
            have := of_decide_eq_true hz.symm
            omega
      | false =>
          simp only [Bool.false_eq_true, if_false]
          constructor
          · rintro rfl
            exact ⟨by omega, by simp⟩
          · rintro ⟨rfl, hz⟩
            have := of_decide_eq_false hz.symm
            omega

/-- A double is written like an integer of at most 53 bits just when it is that integer. -/
theorem numberText_eq_toString {x : Float} {z : ℤ} (hz : z.natAbs < 2 ^ 53) :
    numberText x = toString z ↔ wholeNumber? x = some z := by
  cases hb : Binary.ofFloat? x with
  | none => exact iff_of_false (numberText_ne_toString hb z) (by simp [wholeNumber?, hb])
  | some b =>
      by_cases hm : b.mantissa = 0
      · have hzero : numberText x = toString (0 : ℤ) := by
          simp only [numberText, hb, if_pos hm]
          rfl
        rw [hzero, wholeNumber?_of_mantissa hb hm, Option.some_inj]
        exact Int.repr_inj
      · have hmagnitude := Binary.digitsText_eq_toString (Binary.normal_of_ofFloat? hb) hm hz
        rw [wholeNumber?_eq_some hb hm, ← hmagnitude,
          ← signed_eq_toString (Layout.digitsText_ne_minus _)]
        simp only [numberText, hb, if_neg hm, Layout.binaryText]

/-! ## Comparison by text -/

/-- An integer of at most 53 bits is zero or the double nearest to it. -/
theorem eq_nearestFinite_of_whole {x : Float} {z : ℤ} (hz : z.natAbs < 2 ^ 53)
    (hx : wholeNumber? x = some z) :
    (z = 0 ∧ (x == 0) = true) ∨
      (z ≠ 0 ∧ x = Binary.nearestFinite (decide (z < 0)) z.natAbs 1) := by
  obtain ⟨b, hb, _⟩ := Option.bind_eq_some_iff.1 hx
  by_cases hm : b.mantissa = 0
  · rw [wholeNumber?_of_mantissa hb hm] at hx
    exact .inl ⟨(Option.some.inj hx).symm, (Binary.beq_zero_iff hb).2 hm⟩
  · obtain ⟨hwhole, hsign⟩ := (wholeNumber?_eq_some hb hm z).1 hx
    have hpos : z.natAbs ≠ 0 := fun hzero => hm ((Binary.mantissa_eq_zero_iff hwhole).2 hzero)
    rw [← hsign]
    exact .inr ⟨Int.natAbs_ne_zero.1 hpos, (Binary.nearestFinite_whole hb hwhole hpos hz).symm⟩

theorem beq_of_whole {x l : Float} {z : ℤ} (hz : z.natAbs < 2 ^ 53)
    (hx : wholeNumber? x = some z) (hl : wholeNumber? l = some z) : (x == l) = true := by
  rcases eq_nearestFinite_of_whole hz hx with ⟨hzero, hx0⟩ | ⟨hne, hxeq⟩
  · rcases eq_nearestFinite_of_whole hz hl with ⟨_, hl0⟩ | ⟨hne, _⟩
    · obtain ⟨a, ha, ha0⟩ := beq_iff_rank.1 hx0
      obtain ⟨b, hb, hb0⟩ := beq_iff_rank.1 hl0
      rw [ha0] at hb0
      cases hb0
      exact beq_iff_rank.2 ⟨a, ha, hb⟩
    · exact absurd hzero hne
  · rcases eq_nearestFinite_of_whole hz hl with ⟨hzero, _⟩ | ⟨_, hleq⟩
    · exact absurd hzero hne
    · have hfinite : x.isFinite = true := by
        rw [hxeq]
        exact Binary.isFinite_nearestFinite _ _ _
      rw [hleq, ← hxeq]
      exact Float.beq_refl hfinite

/-- A number label is one of the integers that the doubles have all of. -/
theorem wholeNumber?_of_label {l : Float} (hwhole : isWhole l = true)
    (hsmall : ¬ maxSafeInteger < l.abs) :
    ∃ z : ℤ, wholeNumber? l = some z ∧ z.natAbs < 2 ^ 53 := by
  obtain ⟨z, hz⟩ := Option.isSome_iff_exists.1 hwhole
  refine ⟨z, hz, ?_⟩
  obtain ⟨b, hb, _⟩ := Option.bind_eq_some_iff.1 hz
  by_cases hm : b.mantissa = 0
  · rw [wholeNumber?_of_mantissa hb hm] at hz
    cases hz
    norm_num
  obtain ⟨hwhole, _⟩ := (wholeNumber?_eq_some hb hm z).1 hz
  have hmax : rank? maxSafeInteger = some (toLex (1, toLex (0, 2 ^ 53 - 1))) := by
    rw [rank?, unpack_of_ofFloat? (b := ⟨false, 2 ^ 53 - 1, 0⟩) (by decide)]
    rfl
  have hexponent : b.exponent ≤ 0 := by
    by_contra hpos
    refine hsmall (lt_iff_rank.2 ⟨_, _, hmax, Binary.rank?_abs hb hm, ?_⟩)
    rw [Prod.Lex.toLex_lt_toLex]
    exact .inr ⟨rfl, Prod.Lex.toLex_lt_toLex.2 (.inl (not_le.1 hpos))⟩
  have hvalue := Binary.whole?_eq_some hwhole
  have hlt := (Binary.normal_of_ofFloat? hb).lt
  rw [Int.toNat_of_nonpos hexponent, pow_zero, mul_one] at hvalue
  exact lt_of_le_of_lt (Nat.le_mul_of_pos_right _ (by positivity)) (hvalue ▸ hlt)

/-- A number has the text of a number label just when it equals the label. -/
theorem numberText_eq_iff {x l : Float} (hwhole : isWhole l = true)
    (hsmall : ¬ maxSafeInteger < l.abs) : numberText x = numberText l ↔ (x == l) = true := by
  obtain ⟨z, hz, hlt⟩ := wholeNumber?_of_label hwhole hsmall
  rw [(numberText_eq_toString hlt).2 hz, numberText_eq_toString hlt]
  constructor
  · exact fun hx => beq_of_whole hlt hx hz
  · intro h
    rw [← wholeNumber?_unsigned, unsigned_eq_of_beq h, wholeNumber?_unsigned]
    exact hz

end MapStyle

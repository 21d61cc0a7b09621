/-
# `MapStyle.Proofs.Value.NumberTexts` — a number and its text

A number that was written as a text is read back from it, with blanks around the text or not
(`Value.toNumber_numberText`).  The zeros are written alike, so the number is the same only up to
their signs; NaN has a text as well, but not one of a number.

The reader looks for the word for infinity, and for letters that no numeral has, before it reads
the numeral.  Three facts about numerals carry it past these: they begin with a digit, the mark of
the power is their only letter, and none of their characters is blank.
-/
import MapStyle.Proofs.Decimal.ReadBack
import MapStyle.Proofs.Decimal.Spelling
import MapStyle.Value.Coerce

namespace MapStyle

open Text

/-! ## Blanks -/

/-- Blanks around a text do not matter to the reader. -/
theorem parseNumber?_between {before s after : String} (hbefore : Blank before.toList)
    (hafter : Blank after.toList) (hs : Trimmed s.toList) :
    Value.parseNumber? (before ++ s ++ after) = Value.parseNumber? s := by
  have hbetween : trim (before ++ s ++ after).toList = s.toList := by
    rw [String.toList_append, String.toList_append]
    exact trim_between hbefore hafter hs
  rw [Value.parseNumber?, Value.parseNumber?, hbetween, hs.trim_eq]

/-! ## Numerals -/

namespace Numeral

variable {s : String} {d : Digits}

theorem toList_signed (negative : Bool) (s : String) :
    ((if negative then "-" else "") ++ s).toList = (if negative then ['-'] else []) ++ s.toList := by
  rw [String.toList_append]
  cases negative <;> rfl

theorem Spells.trimmed (h : Spells s.toList d) (negative : Bool) :
    Trimmed ((if negative then "-" else "") ++ s).toList := by
  obtain ⟨c, hhead, _⟩ := h.head
  rw [toList_signed]
  refine .of_forall ?_ fun c hc => ?_
  · exact List.append_ne_nil_of_right_ne_nil _ (List.ne_nil_of_mem (List.mem_of_head? hhead))
  · rcases List.mem_append.1 hc with hc | hc
    · cases negative with
      | true =>
          rw [List.mem_singleton.1 hc]
          rfl
      | false => cases hc
    · rcases h.mem hc with hdigit | hmark
      · exact isBlank_of_isDigit hdigit
      · simp only [List.mem_cons, List.not_mem_nil, or_false] at hmark
        rcases hmark with rfl | rfl | rfl | rfl <;> rfl

/-- A numeral is read as the number that it spells. -/
theorem parseNumber?_of_spells (h : Spells s.toList d) (negative : Bool) :
    Value.parseNumber? ((if negative then "-" else "") ++ s) =
      some (nearestDecimal negative d.digits d.exponent) := by
  obtain ⟨c, hhead, hc⟩ := h.head
  have hne : (if negative then ['-'] else []) ++ s.toList ≠ [] :=
    List.append_ne_nil_of_right_ne_nil _ (List.ne_nil_of_mem (List.mem_of_head? hhead))
  have hword : s.toList ≠ "Infinity".toList := by
    intro heq
    rw [heq] at hhead
    cases hhead
    cases hc
  have hletters : s.toList.any (fun c => c.isAlpha && c ≠ 'e' && c ≠ 'E') = false := by
    rw [List.any_eq_false]
    intro c hc hletter
    simp only [Bool.and_eq_true, decide_eq_true_eq] at hletter
    exact hletter.1.2 (h.eq_mark_of_isAlpha hc hletter.1.1)
  rw [Value.parseNumber?, (h.trimmed negative).trim_eq, toList_signed]
  simp only [h.sign_eq, hne, hword, hletters, if_false, Bool.false_eq_true]
  exact numeral?_of_spells h negative

end Numeral

/-! ## Doubles -/

/-- A finite double is written as a numeral that reads as the same number. -/
theorem exists_spelling {x : Float} {b : Binary} (hb : Binary.ofFloat? x = some b) :
    ∃ negative s d, numberText x = (if negative then "-" else "") ++ s ∧
      Numeral.Spells s.toList d ∧
      Denotes (nearestDecimal negative d.digits d.exponent) b.value := by
  by_cases hm : b.mantissa = 0
  · -- both zeros are written without a sign
    refine ⟨false, "0", ⟨0, 0⟩, ?_, .positional (.whole (digitRun_toDigits 0)), ?_⟩
    · simp only [numberText, hb, if_pos hm]
      rfl
    · have hvalue : b.value = 0 := by simp [Binary.value, hm]
      rw [hvalue]
      exact denotes_zero_literal
  · obtain ⟨d, hspells, hvalue⟩ := Layout.label.spells_digitsText
      (Digits.shortest Layout.label.tie b.mantissa b.exponent)
    refine ⟨b.negative, _, d, ?_, hspells, denotes_nearestDecimal hb hm ?_⟩
    · simp only [numberText, hb, if_neg hm, Layout.binaryText]
    · rw [hvalue]
      exact Digits.inside_shortest Layout.label.tie b.mantissa b.exponent

/-- An infinite double is written as a word with its sign. -/
theorem exists_infinity {x : Float} (hinfinite : Binary.ofFloat? x = none)
    (hx : x.isNaN = false) :
    ∃ negative, numberText x = (if negative then "-Infinity" else "Infinity") ∧
      (Binary.withSign negative Binary.infinityBits == x) = true := by
  have hrank : rank? x = some (toLex (-2, toLex (0, 0))) ∨
      rank? x = some (toLex (2, toLex (0, 0))) := by
    have hfinite : x.toModel.unpack.isFinite ≠ true := fun h => by
      obtain ⟨b, hb⟩ := isFinite_iff.1 h
      rw [hinfinite] at hb
      cases hb
    replace hx : x.toModel.unpack.isNaN = false := hx
    rw [rank?]
    cases hunpack : x.toModel.unpack with
    | infinity sign =>
        cases sign with
        | negative => exact .inl rfl
        | positive => exact .inr rfl
    | notANumber =>
        rw [hunpack] at hx
        cases hx
    | zero sign => exact absurd (by rw [hunpack]; rfl) hfinite
    | finite sign m e hm => exact absurd (by rw [hunpack]; rfl) hfinite
  have hzero : rank? 0 = some (toLex (0, toLex (0, 0))) := by decide
  rcases hrank with hrank | hrank
  · have hneg : x < 0 := lt_iff_rank.2 ⟨_, _, hrank, hzero, by decide⟩
    refine ⟨true, ?_, beq_iff_rank.2 ⟨_, by decide, hrank⟩⟩
    simp only [numberText, hinfinite, hx, hneg, Bool.false_eq_true, if_false, if_true]
  · have hpos : ¬ x < 0 := by
      rintro hneg
      obtain ⟨a, c, ha, hc, hlt⟩ := lt_iff_rank.1 hneg
      cases hrank.symm.trans ha
      cases hzero.symm.trans hc
      exact absurd hlt (by decide)
    refine ⟨false, ?_, beq_iff_rank.2 ⟨_, by decide, hrank⟩⟩
    simp only [numberText, hinfinite, hx, hpos, Bool.false_eq_true, if_false]

/-- What is written of a number is trimmed, and is read as a number that equals it. -/
theorem exists_parseNumber? {x : Float} (hx : x.isNaN = false) :
    Trimmed (numberText x).toList ∧
      ∃ y, Value.parseNumber? (numberText x) = some y ∧ (y == x) = true := by
  cases hb : Binary.ofFloat? x with
  | some b =>
      obtain ⟨negative, s, d, htext, hspells, hread⟩ := exists_spelling hb
      rw [htext]
      exact ⟨hspells.trimmed negative, _, Numeral.parseNumber?_of_spells hspells negative,
        hread.beq ⟨b, hb, rfl⟩⟩
  | none =>
      obtain ⟨negative, htext, heq⟩ := exists_infinity hb hx
      rw [htext]
      cases negative with
      | true => exact ⟨⟨⟨'-', rfl, rfl⟩, ⟨'y', rfl, rfl⟩⟩, _, rfl, heq⟩
      | false => exact ⟨⟨⟨'I', rfl, rfl⟩, ⟨'y', rfl, rfl⟩⟩, _, rfl, heq⟩

/-- The text of a number, with blanks around it, is read as a number that equals it; the text of NaN
is refused. -/
theorem Value.toNumber_numberText (x : Float) {before after : String}
    (hbefore : Blank before.toList) (hafter : Blank after.toList) :
    (x.isNaN = false →
      ∃ y, (string (before ++ numberText x ++ after)).toNumber = .ok y ∧ (y == x) = true) ∧
    (x.isNaN = true →
      (string (before ++ numberText x ++ after)).toNumber =
        .error (.notNumeric (string (before ++ numberText x ++ after)))) := by
  constructor
  · intro hx
    obtain ⟨htrimmed, y, hread, heq⟩ := exists_parseNumber? hx
    have hy : y.isNaN = false := by
      obtain ⟨a, ha, _⟩ := beq_iff_rank.1 heq
      rw [Bool.eq_false_iff, ne_eq, isNaN_iff_rank, ha]
      nofun
    refine ⟨y, ?_, heq⟩
    rw [toNumber, numeric?, parseNumber?_between hbefore hafter htrimmed, hread,
      Option.filter_some_pos (by rw [hy]; rfl)]
    rfl
  · intro hx
    have htext : numberText x = "NaN" := by
      cases hb : Binary.ofFloat? x with
      | some b =>
          obtain ⟨a, ha⟩ := rank?_of_isFinite (isFinite_iff.2 ⟨b, hb⟩)
          rw [isNaN_iff_rank, ha] at hx
          cases hx
      | none => simp only [numberText, hb, hx, if_true]
    have hread : parseNumber? (before ++ numberText x ++ after) = none := by
      rw [htext, parseNumber?_between hbefore hafter ⟨⟨'N', rfl, rfl⟩, ⟨'N', rfl, rfl⟩⟩]
      rfl
    rw [toNumber, numeric?, hread]
    rfl

/-- The negative double next to zero has a power of ten in its text. -/
theorem Value.toNumber_numberText_least :
    Blank "\u3000".toList ∧ Blank "\t\n".toList ∧
      (numberText (-5e-324) = "-5e-324" ∧ (-5e-324 : Float).isNaN = false ∧
        ∃ y, (string ("\u3000" ++ numberText (-5e-324) ++ "\t\n")).toNumber = .ok y ∧
          (y == -5e-324) = true) ∧
      (0 / 0 : Float).isNaN = true ∧
        (string ("\u3000" ++ numberText (0 / 0) ++ "\t\n")).toNumber =
          .error (.notNumeric (string ("\u3000" ++ numberText (0 / 0) ++ "\t\n"))) := by
  have hbefore : Blank "\u3000".toList := List.all_eq_true.1 rfl
  have hafter : Blank "\t\n".toList := List.all_eq_true.1 rfl
  have hnumber : (-5e-324 : Float).isNaN = false := by decide +kernel
  have hnan : (0 / 0 : Float).isNaN = true := by decide +kernel
  exact ⟨hbefore, hafter,
    ⟨by decide +kernel, hnumber, (toNumber_numberText _ hbefore hafter).1 hnumber⟩,
    hnan, (toNumber_numberText _ hbefore hafter).2 hnan⟩

end MapStyle

/-
# `MapStyle.Proofs.Decimal.Spelling` — the numerals that are written

`Spells` is the grammar of the numerals without a sign: digits, a point among them or not, a power
of ten behind them or not.  Whatever the layout, digits are written as such a numeral, of the same
number (`Layout.spells_digitsText`), and the reader takes the numeral apart as the grammar does
(`numeral?_of_spells`).

The numeral need not have the digits that it was made of: a large number is filled up with zeros.
-/
import MapStyle.Decimal.Numeral
import MapStyle.Proofs.Decimal.NumberText
import MapStyle.Proofs.Text.Runs

namespace MapStyle

open Text

namespace Numeral

/-! ## The grammar -/

/-- Digits, or digits around a point, and the number that they write. -/
inductive Positional : List Char → Digits → Prop
  | whole {ds : List Char} : DigitRun ds → Positional ds ⟨Nat.ofDigitChars 10 ds 0, 0⟩
  | point {ds fs : List Char} : DigitRun ds → DigitRun fs →
      Positional (ds ++ '.' :: fs) ⟨Nat.ofDigitChars 10 (ds ++ fs) 0, -fs.length⟩

/-- Numerals without a sign, and the numbers that they write. -/
inductive Spells : List Char → Digits → Prop
  | positional {cs : List Char} {d : Digits} : Positional cs d → Spells cs d
  | scientific {cs ps : List Char} {d : Digits} (negative : Bool) : Positional cs d → DigitRun ps →
      Spells (cs ++ 'e' :: (if negative then '-' else '+') :: ps)
        ⟨d.digits, (if negative then -(Nat.ofDigitChars 10 ps 0 : ℤ) else Nat.ofDigitChars 10 ps 0) +
          d.exponent⟩

/-! ## Reading -/

/-- The reader takes a numeral apart at the point and at the end of the digits. -/
theorem unsigned?_of_positional {cs tail : List Char} {d : Digits} (h : Positional cs d)
    (htail : ∀ c ∈ tail.head?, c.isDigit = false ∧ c ≠ '.') (negative : Bool) :
    unsigned? negative (cs ++ tail) =
      (exponent? tail).map fun e => nearestDecimal negative d.digits (e + d.exponent) := by
  have hend : ∀ c ∈ tail.head?, c.isDigit = false := fun c hc => (htail c hc).1
  cases h with
  | @whole ds hds =>
      obtain ⟨htake, hdrop⟩ := takeWhile_digits hds.digits hend
      have hpoint : ∀ more, tail ≠ '.' :: more := by
        rintro more rfl
        exact (htail '.' rfl).2 rfl
      rw [unsigned?]
      -- by `hpoint` the text is not split, and all of the digits are before the point
      simp only [htake, hdrop]
      rw [if_neg fun hnil => hds.ne_nil hnil.1]
      simp only [List.length_nil, Nat.cast_zero, sub_zero, add_zero]
      rfl
  | @point ds fs hds hfs =>
      have hmark : ∀ c ∈ ('.' :: (fs ++ tail)).head?, c.isDigit = false := by
        intro c hc
        cases hc
        decide
      obtain ⟨htake, hdrop⟩ := takeWhile_digits hds.digits hmark
      obtain ⟨htake', hdrop'⟩ := takeWhile_digits hfs.digits hend
      rw [unsigned?, List.append_assoc, List.cons_append]
      simp only [htake, hdrop, htake', hdrop']
      rw [if_neg fun hnil => hds.ne_nil hnil.1, Nat.ofDigitChars_append]
      rfl

theorem unsigned?_of_spells {cs : List Char} {d : Digits} (h : Spells cs d) (negative : Bool) :
    unsigned? negative cs = some (nearestDecimal negative d.digits d.exponent) := by
  cases h with
  | positional h =>
      have hend : ∀ c ∈ ([] : List Char).head?, c.isDigit = false ∧ c ≠ '.' := nofun
      have hread := unsigned?_of_positional h hend negative
      rw [List.append_nil] at hread
      simpa [exponent?] using hread
  | @scientific cs ps d minus h hps =>
      have hsign : sign ((if minus then '-' else '+') :: ps) = (minus, ps) := by
        cases minus <;> rfl
      have hmark : ∀ c ∈ ('e' :: (if minus then '-' else '+') :: ps).head?,
          c.isDigit = false ∧ c ≠ '.' := by
        intro c hc
        cases hc
        decide
      rw [unsigned?_of_positional h hmark, exponent?, if_pos (.inl rfl)]
      simp only [hsign]
      rw [if_pos ⟨hps.ne_nil, List.all_eq_true.2 hps.digits⟩]
      cases minus <;> rfl

/-! ## Characters -/

theorem Positional.head_append {cs : List Char} {d : Digits} (h : Positional cs d)
    (tail : List Char) : ∃ c, (cs ++ tail).head? = some c ∧ c.isDigit = true := by
  cases h with
  | whole hds => exact hds.head_append tail
  | point hds _ =>
      rw [List.append_assoc]
      exact hds.head_append _

theorem Spells.head {cs : List Char} {d : Digits} (h : Spells cs d) :
    ∃ c, cs.head? = some c ∧ c.isDigit = true := by
  cases h with
  | positional h =>
      have hhead := h.head_append []
      rwa [List.append_nil] at hhead
  | scientific _ h _ => exact h.head_append _

theorem Positional.mem {cs : List Char} {d : Digits} (h : Positional cs d) {c : Char}
    (hc : c ∈ cs) : c.isDigit = true ∨ c = '.' := by
  cases h with
  | whole hds => exact .inl (hds.digits c hc)
  | point hds hfs =>
      rcases List.mem_append.1 hc with hc | hc
      · exact .inl (hds.digits c hc)
      · exact (List.mem_cons.1 hc).symm.imp_left (hfs.digits c)

theorem Spells.mem {cs : List Char} {d : Digits} (h : Spells cs d) {c : Char} (hc : c ∈ cs) :
    c.isDigit = true ∨ c ∈ ['.', 'e', '+', '-'] := by
  cases h with
  | positional h => exact (h.mem hc).imp_right fun hpoint => by simp [hpoint]
  | scientific minus h hps =>
      simp only [List.mem_append, List.mem_cons] at hc
      rcases hc with hc | rfl | rfl | hc
      · exact (h.mem hc).imp_right fun hpoint => by simp [hpoint]
      · exact .inr (by simp)
      · exact .inr (by cases minus <;> simp)
      · exact .inl (hps.digits c hc)

/-- No character of a numeral is a letter but the mark of the power. -/
theorem Spells.eq_mark_of_isAlpha {cs : List Char} {d : Digits} (h : Spells cs d) {c : Char}
    (hc : c ∈ cs) (halpha : c.isAlpha = true) : c = 'e' := by
  rcases h.mem hc with hdigit | hmem
  · rw [isDigit_of_isAlpha halpha] at hdigit
    cases hdigit
  · simp only [List.mem_cons, List.not_mem_nil, or_false] at hmem
    rcases hmem with rfl | rfl | rfl | rfl
    · cases halpha
    · rfl
    · cases halpha
    · cases halpha

/-- A sign before a numeral is told from the numeral. -/
theorem Spells.sign_eq {cs : List Char} {d : Digits} (h : Spells cs d) (negative : Bool) :
    sign ((if negative then ['-'] else []) ++ cs) = (negative, cs) := by
  cases negative with
  | true => rfl
  | false =>
      show sign cs = (false, cs)
      obtain ⟨c, hhead, hc⟩ := h.head
      obtain ⟨rest, rfl⟩ := List.head?_eq_some_iff.1 hhead
      unfold sign
      split
      · rename_i heq
        cases heq
        cases hc
      · rename_i heq
        cases heq
        cases hc
      · rfl

theorem Spells.word?_eq_none {cs : List Char} {d : Digits} (h : Spells cs d) (negative : Bool) :
    word? negative cs = none := by
  obtain ⟨c, hhead, hc⟩ := h.head
  obtain ⟨rest, rfl⟩ := List.head?_eq_some_iff.1 hhead
  have hword : ∀ w : String, w.toList.head?.any Char.isDigit = false →
      String.ofList ((c :: rest).map Char.toLower) ≠ w := by
    rintro w hw rfl
    rw [String.toList_ofList, List.map_cons, toLower_of_isDigit hc, List.head?_cons, Option.any_some,
      hc] at hw
    cases hw
  rw [word?]
  simp only [hword "inf" rfl, hword "infinity" rfl, hword "nan" rfl, or_self, if_false]

/-- The reader takes a numeral as the number that it spells, behind a minus or not. -/
theorem numeral?_of_spells {cs : List Char} {d : Digits} (h : Spells cs d) (negative : Bool) :
    numeral? ((if negative then ['-'] else []) ++ cs) =
      some (nearestDecimal negative d.digits d.exponent) := by
  rw [numeral?]
  simp only [h.sign_eq]
  rw [h.word?_eq_none, unsigned?_of_spells h, Option.none_or]

/-! ## Positional numerals -/

section Positional

variable (n k : ℕ)

theorem isDigit_of_zeros {c : Char} (hc : c ∈ List.replicate k '0') : c.isDigit = true := by
  rw [List.eq_of_mem_replicate hc]
  rfl

theorem run_append_zeros : DigitRun (Nat.toDigits 10 n ++ List.replicate k '0') :=
  (digitRun_toDigits n).append fun _ => isDigit_of_zeros k

/-- A number below 1, with zeros behind the point. -/
theorem positional_zeros_before :
    Positional (['0'] ++ '.' :: (List.replicate k '0' ++ Nat.toDigits 10 n))
      ⟨n, -(k + (Nat.toDigits 10 n).length)⟩ := by
  have hzero : DigitRun ['0'] := digitRun_toDigits 0
  have hrun : DigitRun (List.replicate k '0' ++ Nat.toDigits 10 n) :=
    ⟨List.append_ne_nil_of_right_ne_nil _ Nat.toDigits_ne_nil, fun c hc =>
      (List.mem_append.1 hc).elim (isDigit_of_zeros k) ((digitRun_toDigits n).digits c)⟩
  have hvalue : Nat.ofDigitChars 10 (['0'] ++ (List.replicate k '0' ++ Nat.toDigits 10 n)) 0 = n := by
    simp [Nat.ofDigitChars_cons, Nat.ofDigitChars_append]
  have hpositional := Positional.point hzero hrun
  rw [hvalue, List.length_append, List.length_replicate, Nat.cast_add] at hpositional
  exact hpositional

/-- A whole number, with zeros behind its digits. -/
theorem positional_zeros_behind :
    Positional (Nat.toDigits 10 n ++ List.replicate k '0') ⟨10 ^ k * n, 0⟩ := by
  have hpositional := Positional.whole (run_append_zeros n k)
  rw [Nat.ofDigitChars_append, Nat.ofDigitChars_replicate_zero, Nat.ofDigitChars_ten_toDigits]
    at hpositional
  exact hpositional

/-- A whole number that shows a fraction. -/
theorem positional_zeros_fraction :
    Positional (Nat.toDigits 10 n ++ List.replicate k '0' ++ ['.', '0']) ⟨10 ^ (k + 1) * n, -1⟩ := by
  have hpositional := Positional.point (run_append_zeros n k) (digitRun_toDigits 0)
  have hzero : Nat.toDigits 10 0 = List.replicate 1 '0' := rfl
  rw [hzero, Nat.ofDigitChars_append, Nat.ofDigitChars_append, Nat.ofDigitChars_replicate_zero,
    Nat.ofDigitChars_replicate_zero, Nat.ofDigitChars_ten_toDigits, ← mul_assoc, ← pow_add,
    add_comm 1 k] at hpositional
  exact hpositional

variable {n k}

/-- A number with the point among its digits. -/
theorem positional_point_among (hpos : 0 < k) (hk : k < (Nat.toDigits 10 n).length) :
    Positional ((Nat.toDigits 10 n).take k ++ '.' :: (Nat.toDigits 10 n).drop k)
      ⟨n, k - (Nat.toDigits 10 n).length⟩ := by
  have hrun := digitRun_toDigits n
  have hwhole : DigitRun ((Nat.toDigits 10 n).take k) :=
    ⟨List.ne_nil_of_length_pos (by rw [List.length_take]; omega),
      fun c hc => hrun.digits c (List.mem_of_mem_take hc)⟩
  have hfraction : DigitRun ((Nat.toDigits 10 n).drop k) :=
    ⟨List.ne_nil_of_length_pos (by rw [List.length_drop]; omega),
      fun c hc => hrun.digits c (List.mem_of_mem_drop hc)⟩
  have hpositional := Positional.point hwhole hfraction
  rw [List.take_append_drop, Nat.ofDigitChars_ten_toDigits, List.length_drop, Nat.cast_sub hk.le,
    neg_sub] at hpositional
  exact hpositional

end Positional
end Numeral

/-! ## Writing -/

namespace Layout

open Numeral

theorem length_toString (n : ℕ) : (toString n).length = (Nat.toDigits 10 n).length := by
  rw [← toList_toString, String.length_toList]

variable (layout : Layout)

/-- Digits around a point are a numeral, with zeros on either side where these are needed. -/
theorem positional_positionalText (n : ℕ) (point : ℤ) :
    ∃ d, Positional (layout.positionalText (toString n) point).toList d ∧
      d.value = n * 10 ^ (point - (toString n).length) := by
  rw [positionalText, length_toString]
  split
  · rename_i hpoint
    have htext : ("0." ++ zeros (-point).toNat ++ toString n).toList =
        ['0'] ++ '.' :: (List.replicate (-point).toNat '0' ++ Nat.toDigits 10 n) := by
      simp [zeros]
    refine ⟨_, htext ▸ positional_zeros_before n (-point).toNat, ?_⟩
    rw [Digits.value]
    dsimp only
    congr 2
    omega
  split
  · rename_i hpoint hlt
    have htext : (String.ofList ((toString n).toList.take point.toNat) ++ "." ++
          String.ofList ((toString n).toList.drop point.toNat)).toList =
        (Nat.toDigits 10 n).take point.toNat ++ '.' :: (Nat.toDigits 10 n).drop point.toNat := by
      simp
    refine ⟨_, htext ▸ positional_point_among (by omega) (by omega), ?_⟩
    rw [Digits.value]
    dsimp only
    congr 2
    omega
  · rename_i hpoint hge
    obtain ⟨k, rfl⟩ : ∃ k : ℕ, point = (Nat.toDigits 10 n).length + k :=
      ⟨(point - (Nat.toDigits 10 n).length).toNat, by omega⟩
    have hzeros : (((Nat.toDigits 10 n).length + k : ℤ)).toNat - (Nat.toDigits 10 n).length = k := by
      omega
    rw [add_sub_cancel_left, zpow_natCast, hzeros]
    split
    · have htext : (toString n ++ zeros k ++ ".0").toList =
          Nat.toDigits 10 n ++ List.replicate k '0' ++ ['.', '0'] := by
        simp [zeros]
      refine ⟨_, htext ▸ positional_zeros_fraction n k, ?_⟩
      rw [Digits.value]
      push_cast
      rw [pow_succ, zpow_neg_one]
      field_simp
    · have htext : (toString n ++ zeros k ++ "").toList =
          Nat.toDigits 10 n ++ List.replicate k '0' := by
        simp [zeros]
      refine ⟨_, htext ▸ positional_zeros_behind n k, ?_⟩
      rw [Digits.value]
      push_cast
      ring

/-- In front of a power of ten, the point is behind the first of the digits. -/
theorem toList_scientificText (n : ℕ) (power : ℤ) :
    ∃ cs, Positional cs ⟨n, 1 - (Nat.toDigits 10 n).length⟩ ∧
      (scientificText (toString n) power).toList =
        cs ++ 'e' :: (if decide (power < 0) then '-' else '+') :: Nat.toDigits 10 power.natAbs := by
  have hsign : (if power < 0 then "-" else "+").toList =
      [if decide (power < 0) then '-' else '+'] := by
    by_cases hneg : power < 0 <;> simp [hneg]
  cases hdigits : Nat.toDigits 10 n with
  | nil => exact absurd hdigits Nat.toDigits_ne_nil
  | cons c rest =>
      cases rest with
      | nil =>
          have hone := Positional.whole (digitRun_toDigits n)
          rw [Nat.ofDigitChars_ten_toDigits, hdigits] at hone
          exact ⟨_, hone, by simp [scientificText, hdigits, hsign]⟩
      | cons c' rest =>
          have hmore := positional_point_among (n := n) one_pos (by simp [hdigits])
          rw [hdigits] at hmore
          exact ⟨[c] ++ '.' :: c' :: rest, hmore, by simp [scientificText, hdigits, hsign]⟩

theorem spells_scientificText (n : ℕ) (power : ℤ) :
    Spells (scientificText (toString n) power).toList
      ⟨n, power + (1 - (Nat.toDigits 10 n).length)⟩ := by
  obtain ⟨cs, hcs, htext⟩ := toList_scientificText n power
  have h := Spells.scientific (decide (power < 0)) hcs (digitRun_toDigits power.natAbs)
  have hpower : (if decide (power < 0) then -(power.natAbs : ℤ) else power.natAbs) = power := by
    by_cases hneg : power < 0
    · rw [if_pos (decide_eq_true hneg)]
      omega
    · rw [if_neg (by simpa using hneg)]
      omega
  rw [Nat.ofDigitChars_ten_toDigits, hpower, ← htext] at h
  exact h

/-- Whatever the layout, digits are written as a numeral of the same number. -/
theorem spells_digitsText (d : Digits) :
    ∃ d', Spells (layout.digitsText d).toList d' ∧ d'.value = d.value := by
  have hpositional : ∃ d', Spells (layout.positionalText (toString d.digits)
      ((toString d.digits).length + d.exponent)).toList d' ∧ d'.value = d.value := by
    obtain ⟨d', h, hvalue⟩ := layout.positional_positionalText d.digits
      ((toString d.digits).length + d.exponent)
    refine ⟨d', .positional h, ?_⟩
    rw [hvalue, add_sub_cancel_left, Digits.value]
  rw [digitsText]
  split
  · exact hpositional
  · split
    · exact hpositional
    · have h := spells_scientificText d.digits ((toString d.digits).length + d.exponent - 1)
      refine ⟨_, h, ?_⟩
      rw [Digits.value, Digits.value]
      dsimp only
      rw [length_toString]
      congr 2
      omega

end Layout
end MapStyle

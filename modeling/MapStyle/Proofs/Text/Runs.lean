/-
# `MapStyle.Proofs.Text.Runs` — runs of blanks and of digits

Trimming takes blanks off both ends of a text and nothing else (`exists_blank_trim`), and a text
that neither begins nor ends in a blank is what is left of it between any blanks
(`trim_between`).  A run of digits is such a text, and ends where the next character is no digit
(`takeWhile_digits`).
-/
import Mathlib
import MapStyle.Text.Blank

namespace MapStyle.Text

/-! ## Blanks -/

/-- A text of nothing but blanks. -/
def Blank (cs : List Char) : Prop := ∀ c ∈ cs, isBlank c = true

theorem blank_nil : Blank [] := List.forall_mem_nil _

/-- A text that has a first and a last character, neither of them blank. -/
structure Trimmed (cs : List Char) : Prop where
  head : ∃ c, cs.head? = some c ∧ isBlank c = false
  last : ∃ c, cs.getLast? = some c ∧ isBlank c = false

theorem Trimmed.of_forall {cs : List Char} (hne : cs ≠ []) (h : ∀ c ∈ cs, isBlank c = false) :
    Trimmed cs :=
  ⟨⟨_, List.head?_eq_some_head hne, h _ (List.head_mem hne)⟩,
    ⟨_, List.getLast?_eq_some_getLast hne, h _ (List.getLast_mem hne)⟩⟩

theorem exists_blank_dropWhile (cs : List Char) :
    ∃ before, Blank before ∧ cs = before ++ cs.dropWhile isBlank :=
  ⟨cs.takeWhile isBlank, fun _ hc => List.mem_takeWhile_imp hc, List.takeWhile_append_dropWhile.symm⟩

/-- A text is what trimming leaves of it, between blanks. -/
theorem exists_blank_trim (cs : List Char) :
    ∃ before after, Blank before ∧ Blank after ∧ cs = before ++ trim cs ++ after := by
  obtain ⟨before, hbefore, hcs⟩ := exists_blank_dropWhile cs
  obtain ⟨after, hafter, hrest⟩ := exists_blank_dropWhile (cs.dropWhile isBlank).reverse
  refine ⟨before, after.reverse, hbefore, fun c hc => hafter c (List.mem_reverse.1 hc), ?_⟩
  have hrest := congrArg List.reverse hrest
  rw [List.reverse_reverse, List.reverse_append] at hrest
  rw [List.append_assoc]
  exact hcs.trans (congrArg (before ++ ·) hrest)

theorem dropWhile_between {before body : List Char} (hbefore : Blank before) {c : Char}
    (hhead : body.head? = some c) (hc : isBlank c = false) (after : List Char) :
    (before ++ (body ++ after)).dropWhile isBlank = body ++ after := by
  rw [List.dropWhile_append_of_pos hbefore]
  obtain ⟨rest, rfl⟩ := List.head?_eq_some_iff.1 hhead
  rw [List.cons_append, List.dropWhile_cons_of_neg (by simp [hc])]

theorem trim_between {before body after : List Char} (hbefore : Blank before)
    (hafter : Blank after) (hbody : Trimmed body) : trim (before ++ body ++ after) = body := by
  obtain ⟨⟨c, hhead, hc⟩, ⟨d, hlast, hd⟩⟩ := hbody
  have hreverse : Blank after.reverse := fun x hx => hafter x (List.mem_reverse.1 hx)
  have hback := dropWhile_between hreverse (List.head?_reverse.trans hlast) hd []
  rw [List.append_nil] at hback
  rw [trim, trimStart, List.append_assoc, dropWhile_between hbefore hhead hc, trimEnd,
    List.reverse_append, hback, List.reverse_reverse]

theorem Trimmed.trim_eq {cs : List Char} (h : Trimmed cs) : trim cs = cs := by
  have hbetween := trim_between blank_nil blank_nil h
  rwa [List.nil_append, List.append_nil] at hbetween

/-! ## Digits -/

theorem isBlank_of_isDigit {c : Char} (h : c.isDigit = true) : isBlank c = false := by
  have hrange : 48 ≤ c.toNat ∧ c.toNat ≤ 57 := by
    simp only [Char.isDigit, Bool.and_eq_true, decide_eq_true_eq] at h
    exact h
  simp only [isBlank, Bool.or_eq_false_iff, Bool.and_eq_false_iff, decide_eq_false_iff_not,
    beq_eq_false_iff_ne]
  omega

theorem lt_upper_of_isDigit {c : Char} (h : c.isDigit = true) : c.toNat < 'A'.toNat :=
  Nat.lt_of_le_of_lt (Char.isDigit_iff_toNat.1 h).2 (by decide)

theorem isDigit_of_isAlpha {c : Char} (h : c.isAlpha = true) : c.isDigit = false := by
  simp only [Char.isAlpha, Char.isUpper, Char.isLower, Bool.or_eq_true, Bool.and_eq_true,
    decide_eq_true_eq, UInt32.le_iff_toNat_le, ge_iff_le] at h
  change 65 ≤ c.toNat ∧ c.toNat ≤ 90 ∨ 97 ≤ c.toNat ∧ c.toNat ≤ 122 at h
  by_contra hdigit
  have hlt : c.toNat < 65 := lt_upper_of_isDigit (by simpa using hdigit)
  omega

theorem toLower_of_isDigit {c : Char} (h : c.isDigit = true) : c.toLower = c := by
  rw [Char.toLower, dif_neg]
  exact fun hle => absurd (UInt32.le_iff_toNat_le.1 hle.1) (not_le.2 (lt_upper_of_isDigit h))

theorem takeWhile_digits {ds tail : List Char} (hds : ∀ c ∈ ds, c.isDigit = true)
    (htail : ∀ c ∈ tail.head?, c.isDigit = false) :
    (ds ++ tail).takeWhile Char.isDigit = ds ∧ (ds ++ tail).dropWhile Char.isDigit = tail := by
  rw [List.takeWhile_append_of_pos hds, List.dropWhile_append_of_pos hds]
  cases tail with
  | nil => simp
  | cons c tail =>
      have hc := htail c rfl
      rw [List.takeWhile_cons_of_neg (by simp [hc]), List.dropWhile_cons_of_neg (by simp [hc]),
        List.append_nil]
      exact ⟨rfl, rfl⟩

/-- A text of at least one digit and of nothing else. -/
structure DigitRun (ds : List Char) : Prop where
  ne_nil : ds ≠ []
  digits : ∀ c ∈ ds, c.isDigit = true

theorem DigitRun.append {ds es : List Char} (hds : DigitRun ds) (hes : ∀ c ∈ es, c.isDigit = true) :
    DigitRun (ds ++ es) where
  ne_nil := List.append_ne_nil_of_left_ne_nil hds.ne_nil es
  digits c hc := (List.mem_append.1 hc).elim (hds.digits c) (hes c)

theorem digitRun_toDigits (n : ℕ) : DigitRun (Nat.toDigits 10 n) where
  ne_nil := Nat.toDigits_ne_nil
  digits _ hc := Nat.isDigit_of_mem_toDigits (by decide) (by decide) hc

theorem DigitRun.head_append {ds : List Char} (h : DigitRun ds) (tail : List Char) :
    ∃ c, (ds ++ tail).head? = some c ∧ c.isDigit = true := by
  refine ⟨ds.head h.ne_nil, ?_, h.digits _ (List.head_mem h.ne_nil)⟩
  rw [List.head?_append_of_ne_nil ds h.ne_nil, List.head?_eq_some_head h.ne_nil]

theorem DigitRun.trimmed {ds : List Char} (h : DigitRun ds) : Trimmed ds :=
  .of_forall h.ne_nil fun c hc => isBlank_of_isDigit (h.digits c hc)

end MapStyle.Text

/-
# `MapStyle.Proofs.Typing.Branches` — the table of a `match`

Checking a `match` gathers a table from the texts of the labels to the indices of their branches.
Labels of equal text are refused, so the table is what the branches say: a text has the index of the
branch that has it as the text of a label (`LabelsSeen.get?_addBranches`).  All labels have one type
(`LabelsSeen.ty_of_addBranches`), and a value of that type has the text of a label just when it
equals what the label was written as (`labelOf?_text`).
-/
import MapStyle.Proofs.Decimal.NumberText
import MapStyle.Proofs.Eval.Values

namespace MapStyle

open Typing

theorem Label.ty_cases (l : Label) : l.ty = .number ∨ l.ty = .string := by
  cases l with
  | number x => exact .inl rfl
  | string s => exact .inr rfl

namespace Typing.LabelsSeen

variable {k : Nat} {seen : LabelsSeen} {ls : List Label} {branches : List (List Label)}

/-- Whether a text is that of one of some labels. -/
def Names (text : String) (ls : List Label) : Bool := ls.any fun l => l.text == text

/-! ## The table -/

theorem has_foldl_add {text : String} (h : seen.table.has text = true) (ls : List Label) :
    (ls.foldl (add k) seen).table.has text = true := by
  induction ls generalizing seen with
  | nil => exact h
  | cons l ls ih =>
      refine ih ?_
      rw [add, Dict.has]
      by_cases htext : text = l.text
      · rw [htext, Dict.get?_insert_self]
        rfl
      · rw [Dict.get?_insert_of_ne htext]
        exact h

/-- Labels that may follow do not have a text that was seen before. -/
theorem TakesAll.names_eq_false {text : String} (h : seen.TakesAll k ls)
    (htext : seen.table.has text = true) : Names text ls = false := by
  induction ls generalizing seen with
  | nil => rfl
  | cons l ls ih =>
      obtain ⟨⟨_, hfresh⟩, hls⟩ := h
      have hne : l.text ≠ text := by
        rintro rfl
        rw [htext] at hfresh
        cases hfresh
      have hseen : (seen.add k l).table.has text = true := has_foldl_add htext [l]
      rw [Names, List.any_cons, beq_eq_false_iff_ne.2 hne, Bool.false_or]
      exact ih hls hseen

theorem TakesBranches.findIdx?_eq_none {text : String} (h : seen.TakesBranches k branches)
    (htext : seen.table.has text = true) : branches.findIdx? (Names text) = none := by
  induction branches generalizing k seen with
  | nil => rfl
  | cons ls branches ih =>
      obtain ⟨_, _, hls, hbranches⟩ := h
      rw [List.findIdx?_cons, hls.names_eq_false htext, ih hbranches (has_foldl_add htext ls)]
      rfl

theorem get?_foldl_add (k : Nat) (seen : LabelsSeen) (ls : List Label) (text : String) :
    (ls.foldl (add k) seen).table.get? text =
      if Names text ls then some k else seen.table.get? text := by
  induction ls generalizing seen with
  | nil => rfl
  | cons l ls ih =>
      rw [List.foldl_cons, ih, Names, Names, List.any_cons, add]
      by_cases htext : text = l.text
      · rw [htext, Dict.get?_insert_self]
        simp
      · rw [Dict.get?_insert_of_ne htext, beq_eq_false_iff_ne.2 (Ne.symm htext), Bool.false_or]

theorem has_foldl_add_of_names {text : String} (h : Names text ls = true) (k : Nat)
    (seen : LabelsSeen) : (ls.foldl (add k) seen).table.has text = true := by
  rw [Dict.has, get?_foldl_add, if_pos h]
  rfl

theorem get?_addBranches (h : seen.TakesBranches k branches) (text : String) :
    (addBranches k seen branches).table.get? text =
      ((branches.findIdx? (Names text)).map (k + ·)).or (seen.table.get? text) := by
  induction branches generalizing k seen with
  | nil => rfl
  | cons ls branches ih =>
      obtain ⟨_, _, _, hbranches⟩ := h
      rw [addBranches, ih hbranches, get?_foldl_add, List.findIdx?_cons]
      cases hnames : Names text ls with
      | true =>
          rw [hbranches.findIdx?_eq_none (has_foldl_add_of_names hnames k seen)]
          rfl
      | false =>
          cases branches.findIdx? (Names text) with
          | none => rfl
          | some i =>
              simp only [Bool.false_eq_true, if_false, Option.map_some, Option.some_or,
                Option.some_inj]
              omega

/-- A branch that names a text is the first one that does. -/
theorem TakesBranches.findIdx?_eq_some {text : String} (h : seen.TakesBranches k branches) {i : Nat}
    (hi : branches[i]? = some ls) (hnames : Names text ls = true) :
    branches.findIdx? (Names text) = some i := by
  induction branches generalizing k seen i with
  | nil => cases hi
  | cons first branches ih =>
      obtain ⟨_, _, _, hbranches⟩ := h
      rw [List.findIdx?_cons]
      cases i with
      | zero =>
          cases hi
          rw [hnames]
          rfl
      | succ i =>
          cases hfirst : Names text first with
          | false =>
              rw [ih hbranches hi]
              rfl
          | true =>
              -- then the text was seen when the later branch came, which could not name it
              have hseen := has_foldl_add_of_names hfirst k seen
              have hnone := List.findIdx?_eq_none_iff.1 (hbranches.findIdx?_eq_none hseen)
              rw [hnone ls (List.mem_of_getElem? hi)] at hnames
              cases hnames

section Whole

variable {t : Ty} {table : Dict Nat} (h : TakesBranches 0 ⟨none, []⟩ branches)
  (hadd : addBranches 0 ⟨none, []⟩ branches = ⟨some t, table⟩)

include h hadd

/-- The table of all branches has the index of the branch that names a text. -/
theorem get?_table (text : String) : table.get? text = branches.findIdx? (Names text) := by
  have hget := get?_addBranches h text
  rw [hadd] at hget
  rw [hget]
  show ((branches.findIdx? (Names text)).map (0 + ·)).or none = _
  cases branches.findIdx? (Names text) with
  | none => rfl
  | some i => rw [Option.map_some, Nat.zero_add, Option.or_none]

theorem lt_of_get? {text : String} (hk : table.get? text = some k) : k < branches.length := by
  rw [get?_table h hadd] at hk
  obtain ⟨hlt, _⟩ := List.findIdx?_eq_some_iff_findIdx_eq.1 hk
  exact hlt

end Whole

/-! ## The type of the labels -/

theorem ty_of_foldl_add {t : Ty} (h : seen.TakesAll k ls)
    (ht : ∀ u, (ls.foldl (add k) seen).ty = some u → u = t) :
    (∀ u, seen.ty = some u → u = t) ∧ ∀ l ∈ ls, l.ty = t := by
  induction ls generalizing seen with
  | nil => exact ⟨ht, fun _ hl => nomatch hl⟩
  | cons l ls ih =>
      obtain ⟨⟨hty, _⟩, hls⟩ := h
      obtain ⟨hseen, hrest⟩ := ih hls ht
      have hl : l.ty = t := hseen _ rfl
      refine ⟨fun u hu => ?_, List.forall_mem_cons.2 ⟨hl, hrest⟩⟩
      rw [hu] at hty
      exact hty.trans hl

theorem ty_of_addBranches {t : Ty} (h : seen.TakesBranches k branches)
    (ht : ∀ u, (addBranches k seen branches).ty = some u → u = t) :
    (∀ u, seen.ty = some u → u = t) ∧ ∀ ls ∈ branches, ∀ l ∈ ls, l.ty = t := by
  induction branches generalizing k seen with
  | nil => exact ⟨ht, fun _ hls => nomatch hls⟩
  | cons ls branches ih =>
      obtain ⟨_, _, hls, hbranches⟩ := h
      obtain ⟨hseen, hrest⟩ := ih hbranches ht
      obtain ⟨hfirst, hlabels⟩ := ty_of_foldl_add hls hseen
      exact ⟨hfirst, List.forall_mem_cons.2 ⟨hlabels, hrest⟩⟩

/-- The labels of branches have one type, that of numbers or that of strings. -/
theorem ty_of_table {t : Ty} {table : Dict Nat} (h : TakesBranches 0 ⟨none, []⟩ branches)
    (hadd : addBranches 0 ⟨none, []⟩ branches = ⟨some t, table⟩) :
    (t = .number ∨ t = .string) ∧ ∀ ls ∈ branches, ∀ l ∈ ls, l.ty = t := by
  have hlabels := (ty_of_addBranches (t := t) h fun u hu => by
    rw [hadd] at hu
    exact (Option.some.inj hu).symm).2
  refine ⟨?_, hlabels⟩
  cases branches with
  | nil => cases hadd
  | cons ls branches =>
      obtain ⟨l, hl⟩ := List.exists_mem_of_ne_nil ls h.1
      rw [← hlabels ls List.mem_cons_self l hl]
      exact l.ty_cases

end Typing.LabelsSeen

/-! ## Labels and values -/

namespace Typing

theorem toText_of_inhabits {labelTy : Ty} (h : labelTy = .number ∨ labelTy = .string) {v : Value}
    (hv : v.Inhabits labelTy) : ∃ text, v.toText = .ok text := by
  rcases h with rfl | rfl
  · obtain ⟨x, rfl⟩ := hv
    exact ⟨_, rfl⟩
  · obtain ⟨s, rfl⟩ := hv
    exact ⟨_, rfl⟩

theorem labelOf?_num {n : Number} {l : Label} (h : labelOf? (.num n) = some l) :
    l = .number n.toFloat := by
  simp only [labelOf?] at h
  split at h
  · cases h
  · split at h
    · exact (Option.some.inj h).symm
    · cases h

/-- Values of the types of labels are always valid. -/
theorem asType_of_typeOf {labelTy : Ty} (h : labelTy = .number ∨ labelTy = .string) {v : Value}
    (hv : v.typeOf = labelTy) : v.asType labelTy = .ok v := by
  have hinhabits : v.Inhabits labelTy := hv ▸ Value.inhabits_typeOf v
  rcases h with rfl | rfl
  · obtain ⟨x, rfl⟩ := hinhabits
    rfl
  · obtain ⟨s, rfl⟩ := hinhabits
    rfl

theorem typeOf_of_same {j : Json} {l : Label} (hl : labelOf? j = some l) {v : Value}
    (h : (Value.ofJson j).same v = true) : v.typeOf = l.ty := by
  cases j with
  | str s =>
      cases hl
      cases v with
      | string s' => rfl
      | _ => cases h
  | num n =>
      cases labelOf?_num hl
      cases v with
      | number x => rfl
      | _ => cases h
  | _ => cases hl

theorem asType_of_same {j : Json} {l : Label} (hl : labelOf? j = some l) {v : Value}
    (h : (Value.ofJson j).same v = true) : v.asType l.ty = .ok v :=
  asType_of_typeOf l.ty_cases (typeOf_of_same hl h)

/-- A value that a label can equal has the text of the label just when it equals the label. -/
theorem labelOf?_text {j : Json} {l : Label} (hl : labelOf? j = some l) {v : Value}
    (hv : v.Inhabits l.ty) :
    ∃ text, v.toText = .ok text ∧ ((l.text == text) = (Value.ofJson j).same v) := by
  have hwell := wellFormed_labelOf? hl
  cases j with
  | str s =>
      cases hl
      obtain ⟨s', rfl⟩ := hv
      exact ⟨s', rfl, rfl⟩
  | num n =>
      cases labelOf?_num hl
      obtain ⟨x, rfl⟩ := hv
      refine ⟨numberText x, rfl, ?_⟩
      rw [Bool.eq_iff_iff, beq_iff_eq, eq_comm]
      refine (numberText_eq_iff hwell.2 hwell.1).trans ?_
      show (x == n.toFloat) = true ↔ (n.toFloat == x) = true
      rw [Float.beq_comm]
  | _ => cases hl

/-- A value of the type of some labels equals one of them when its text is that of one. -/
theorem any_same_eq_names {js : List Json} {ls : List Label}
    (h : js.map labelOf? = ls.map some) {t : Ty} (hty : ∀ l ∈ ls, l.ty = t) {v : Value}
    (hv : v.Inhabits t) {text : String} (htext : v.toText = .ok text) :
    (js.any fun j => (Value.ofJson j).same v) = LabelsSeen.Names text ls := by
  induction js generalizing ls with
  | nil =>
      cases ls with
      | nil => rfl
      | cons l ls => cases h
  | cons j js ih =>
      cases ls with
      | nil => cases h
      | cons l ls =>
          obtain ⟨hl, hls⟩ := List.cons.inj h
          obtain ⟨hlty, hlsty⟩ := List.forall_mem_cons.1 hty
          obtain ⟨_, htext', hsame⟩ := labelOf?_text hl (hlty ▸ hv)
          cases htext.symm.trans htext'
          rw [List.any_cons, LabelsSeen.Names, List.any_cons, hsame]
          exact congrArg _ (ih hls hlsty)

end Typing

end MapStyle

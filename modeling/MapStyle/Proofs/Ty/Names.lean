/-
# `MapStyle.Proofs.Ty.Names` — the texts that name types

`Names` is the grammar of type names: a word, `Array<…>` around a name, or `Array<…, n>` around a
name and a length, each with blanks around it.  The reader accepts exactly these texts, with the
type that they name, and the written name of a type is one of them unless a length in it is too
large (`Ty.ofName?_eq_some_iff`).

The reader finds the length behind the last comma that is inside no bracket.  In a name all commas
are inside of brackets, and the brackets match; `Nested` says of a piece of text that the search
passes over it, and is kept by putting pieces next to each other and brackets around them.
-/
import MapStyle.Proofs.Text.Runs
import MapStyle.Ty.Reader

namespace MapStyle.Ty

open Text

/-! ## The grammar -/

/-- The words that name types. -/
def words : List (String × Ty) :=
  [("Null", .null), ("Number", .number), ("String", .string), ("Boolean", .boolean),
    ("Color", .color), ("Object", .object), ("Value", .value), ("Array", .anyArray)]

/-- The digits of a length that fits 64 bits. -/
structure LengthDigits (ds : List Char) : Prop extends DigitRun ds where
  fits : Nat.ofDigitChars 10 ds 0 ≤ maxLength

/-- The types that texts name. -/
inductive Names : List Char → Ty → Prop
  | word {before after : List Char} {w : String} {t : Ty} :
      Blank before → Blank after → (w, t) ∈ words → Names (before ++ w.toList ++ after) t
  | items {before after item : List Char} {t : Ty} :
      Blank before → Blank after → Names item t →
      Names (before ++ ("Array<".toList ++ (item ++ ['>'])) ++ after) (.array t none)
  | sized {before after item front back ds : List Char} {t : Ty} :
      Blank before → Blank after → Names item t → Blank front → Blank back → LengthDigits ds →
      Names (before ++ ("Array<".toList ++ ((item ++ ',' :: (front ++ ds ++ back)) ++ ['>'])) ++ after)
        (.array t (some (Nat.ofDigitChars 10 ds 0)))

/-- Every length in a type fits 64 bits. -/
def Fits64 : Ty → Prop
  | .array item len => item.Fits64 ∧ ∀ n ∈ len, n ≤ maxLength
  | _ => True

/-! ## Lengths -/

theorem value_eq_ofDigitChars (ds : List Char) : Numeral.value 0 ds = Nat.ofDigitChars 10 ds 0 := by
  rfl

theorem length?_eq_some_iff {cs : List Char} {n : Nat} :
    length? cs = some n ↔ ∃ front ds back, Blank front ∧ Blank back ∧ LengthDigits ds ∧
      cs = front ++ ds ++ back ∧ n = Nat.ofDigitChars 10 ds 0 := by
  constructor
  · intro h
    simp only [length?, value_eq_ofDigitChars] at h
    split at h
    · rename_i hds
      obtain ⟨hne, hdigits, hfits⟩ := hds
      obtain ⟨front, back, hfront, hback, hcs⟩ := exists_blank_trim cs
      exact ⟨front, trim cs, back, hfront, hback, ⟨⟨hne, List.all_eq_true.1 hdigits⟩, hfits⟩, hcs,
        (Option.some.inj h).symm⟩
    · cases h
  · rintro ⟨front, ds, back, hfront, hback, hds, rfl, rfl⟩
    have hall : ds.all Char.isDigit = true := List.all_eq_true.2 hds.digits
    simp only [length?, value_eq_ofDigitChars, trim_between hfront hback hds.trimmed]
    rw [if_pos ⟨hds.ne_nil, hall, hds.fits⟩]

/-! ## Brackets and commas -/

/-- A piece of text that closes the brackets that it opens and no others, and whose commas are
below `least` brackets or more: what is looked for behind it, is looked for as if it were not
there. -/
structure Nested (least : Nat) (cs : List Char) : Prop where
  balanced : ∀ depth rest, least ≤ depth → balanced depth (cs ++ rest) = balanced depth rest
  split : ∀ depth rest, least ≤ depth → splitLastComma depth (cs ++ rest) =
    (splitLastComma depth rest).map fun found => (cs ++ found.1, found.2)

namespace Nested

variable {least : Nat} {cs ds : List Char}

theorem nil : Nested least [] where
  balanced _ _ _ := rfl
  split _ _ _ := Option.map_id'.symm

theorem append (hcs : Nested least cs) (hds : Nested least ds) : Nested least (cs ++ ds) where
  balanced depth rest h := by
    rw [List.append_assoc, hcs.balanced depth _ h, hds.balanced depth rest h]
  split depth rest h := by
    rw [List.append_assoc, hcs.split depth _ h, hds.split depth rest h, Option.map_map]
    simp only [Function.comp_def, List.append_assoc]

theorem deeper (h : Nested 0 cs) : Nested least cs where
  balanced depth rest _ := h.balanced depth rest (Nat.zero_le depth)
  split depth rest _ := h.split depth rest (Nat.zero_le depth)

theorem char {c : Char} (hopen : c ≠ '<') (hclose : c ≠ '>') (hcomma : c ≠ ',') :
    Nested least [c] where
  balanced depth rest _ := by
    rw [List.singleton_append, Ty.balanced, if_neg hopen, if_neg hclose]
  split depth rest _ := by
    rw [List.singleton_append, splitLastComma, if_neg hopen, if_neg hclose,
      if_neg fun h => hcomma h.1]
    cases splitLastComma depth rest <;> rfl

theorem chars (hopen : '<' ∉ cs) (hclose : '>' ∉ cs) (hcomma : ',' ∉ cs) : Nested least cs := by
  induction cs with
  | nil => exact nil
  | cons c cs ih =>
      obtain ⟨hopen, hopens⟩ := List.ne_and_not_mem_of_not_mem_cons hopen
      obtain ⟨hclose, hcloses⟩ := List.ne_and_not_mem_of_not_mem_cons hclose
      obtain ⟨hcomma, hcommas⟩ := List.ne_and_not_mem_of_not_mem_cons hcomma
      exact (char hopen.symm hclose.symm hcomma.symm).append (ih hopens hcloses hcommas)

/-- Inside of a bracket a comma is not seen. -/
theorem comma : Nested 1 [','] where
  balanced depth rest _ := by
    rw [List.singleton_append, Ty.balanced, if_neg (by decide), if_neg (by decide)]
  split depth rest h := by
    rw [List.singleton_append, splitLastComma, if_neg (by decide), if_neg (by decide),
      if_neg fun h' => by omega]
    cases splitLastComma depth rest <;> rfl

theorem bracketed (h : Nested 1 cs) : Nested least ('<' :: (cs ++ ['>'])) where
  balanced depth rest _ := by
    rw [List.cons_append, Ty.balanced, if_pos rfl, List.append_assoc,
      h.balanced (depth + 1) _ (Nat.le_add_left 1 depth), List.singleton_append, Ty.balanced,
      if_neg (by decide), if_pos rfl]
    simp
  split depth rest _ := by
    have hclose : splitLastComma (depth + 1) (['>'] ++ rest) =
        (splitLastComma depth rest).map fun found => ('>' :: found.1, found.2) := by
      rw [List.singleton_append, splitLastComma, if_neg (by decide), if_pos rfl,
        if_neg (by simp), Nat.add_sub_cancel]
      cases splitLastComma depth rest <;> rfl
    rw [List.cons_append, splitLastComma, if_pos rfl, List.append_assoc,
      h.split (depth + 1) _ (Nat.le_add_left 1 depth), hclose, if_neg (by simp)]
    cases splitLastComma depth rest <;> simp

end Nested

theorem blank_nested {least : Nat} {cs : List Char} (h : Blank cs) : Nested least cs :=
  .chars (fun hc => absurd (h _ hc) (by decide)) (fun hc => absurd (h _ hc) (by decide))
    fun hc => absurd (h _ hc) (by decide)

theorem LengthDigits.nested {least : Nat} {ds : List Char} (h : LengthDigits ds) :
    Nested least ds :=
  .chars (fun hc => absurd (h.digits _ hc) (by decide))
    (fun hc => absurd (h.digits _ hc) (by decide)) fun hc => absurd (h.digits _ hc) (by decide)

theorem lengthText_nested {least : Nat} {front ds back : List Char} (hfront : Blank front)
    (hds : LengthDigits ds) (hback : Blank back) : Nested least (front ++ ds ++ back) :=
  ((blank_nested hfront).append hds.nested).append (blank_nested hback)

theorem word_nested {least : Nat} {p : String × Ty} (h : p ∈ words) : Nested least p.1.toList := by
  have hplain : ∀ p ∈ words, '<' ∉ p.1.toList ∧ '>' ∉ p.1.toList ∧ ',' ∉ p.1.toList := by decide
  obtain ⟨hopen, hclose, hcomma⟩ := hplain p h
  exact .chars hopen hclose hcomma

theorem word_trimmed {p : String × Ty} (h : p ∈ words) : Trimmed p.1.toList := by
  have hwords : ∀ p ∈ words, p.1.toList ≠ [] ∧ p.1.toList.all (fun c => !isBlank c) = true := by
    decide
  obtain ⟨hne, hall⟩ := hwords p h
  exact .of_forall hne fun c hc => by simpa using List.all_eq_true.1 hall c hc

/-- In a name brackets match, and all commas are inside of them. -/
theorem Names.nested {cs : List Char} {t : Ty} (h : Names cs t) : Nested 0 cs := by
  have harray : Nested 0 "Array".toList := .chars (by decide) (by decide) (by decide)
  induction h with
  | word hbefore hafter hw =>
      exact ((blank_nested hbefore).append (word_nested hw)).append (blank_nested hafter)
  | items hbefore hafter _ ih =>
      exact ((blank_nested hbefore).append (harray.append ih.deeper.bracketed)).append
        (blank_nested hafter)
  | sized hbefore hafter _ hfront hback hds ih =>
      have hparameters := ih.deeper.append (Nested.comma.append (lengthText_nested hfront hds hback))
      exact ((blank_nested hbefore).append (harray.append hparameters.bracketed)).append
        (blank_nested hafter)

/-! ## Parameters -/

theorem eq_of_splitLastComma {depth : Nat} {cs item len : List Char}
    (h : splitLastComma depth cs = some (item, len)) : cs = item ++ ',' :: len := by
  induction cs generalizing depth item with
  | nil => cases h
  | cons c cs ih =>
      rw [splitLastComma] at h
      generalize (if c = '<' then depth + 1 else if c = '>' then depth - 1 else depth) = inside at h
      split at h
      · rename_i before after hsplit
        cases h
        rw [ih hsplit, List.cons_append]
      · split at h
        · rename_i hcomma
          cases h
          rw [hcomma.1, List.nil_append]
        · cases h

/-- The parameters are cut at a comma, or not at all. -/
theorem eq_of_parts {inner item : List Char} {len : Option (List Char)}
    (h : parts inner = (item, len)) :
    inner = item ++ (len.map (',' :: ·)).getD [] := by
  rw [parts] at h
  split at h
  · rename_i hsplit
    cases h
    split at hsplit
    · exact eq_of_splitLastComma hsplit
    · cases hsplit
  · cases h
    exact (List.append_nil _).symm

theorem parts_of_nested {item : List Char} (h : Nested 0 item) : parts item = (item, none) := by
  have hsplit := h.split 0 [] le_rfl
  rw [List.append_nil, splitLastComma, Option.map_none] at hsplit
  rw [parts, hsplit, ite_self]

theorem parts_of_sized {item len : List Char} (hitem : Nested 0 item) (hlen : Nested 0 len) :
    parts (item ++ ',' :: len) = (item, some len) := by
  have hcomma : splitLastComma 0 (',' :: len) = some ([], len) := by
    have hsplit := hlen.split 0 [] le_rfl
    rw [List.append_nil, splitLastComma, Option.map_none] at hsplit
    rw [splitLastComma, if_neg (by decide), if_neg (by decide), hsplit]
    rfl
  have hbalanced : Ty.balanced 0 (item ++ ',' :: len) = true := by
    have htail := hlen.balanced 0 [] le_rfl
    rw [List.append_nil, Ty.balanced] at htail
    rw [hitem.balanced 0 _ le_rfl, Ty.balanced, if_neg (by decide), if_neg (by decide), htail]
  rw [parts, if_pos hbalanced, hitem.split 0 _ le_rfl, hcomma, Option.map_some, List.append_nil]

/-! ## Reading -/

theorem find?_word : ∀ p ∈ words,
    plain.find? (fun t => t.name.toList == p.1.toList) = some p.2 := by decide

theorem ofChars?_of_word {cs : List Char} {w : String} {t : Ty} (hw : (w, t) ∈ words)
    (hcs : trim cs = w.toList) : ofChars? cs = some t := by
  rw [ofChars?, hcs, find?_word _ hw]

theorem ofChars?_of_parameters {cs inner : List Char}
    (hcs : trim cs = "Array<".toList ++ (inner ++ ['>'])) :
    ofChars? cs = match (parts inner).2 with
      | none => (ofChars? (parts inner).1).map (array · none)
      | some len =>
        (length? len).bind fun n => (ofChars? (parts inner).1).map (array · (some n)) := by
  have hplain : ∀ t ∈ plain, '<' ∉ t.name.toList := by decide
  have hfind : plain.find? (fun t => t.name.toList == trim cs) = none := by
    refine List.find?_eq_none.2 fun t ht heq => hplain t ht ?_
    rw [beq_iff_eq.1 heq, hcs]
    exact List.mem_append_left _ (by decide)
  have hparameters : parameters? (trim cs) = some inner := by
    rw [parameters?, after?_eq_some_iff.2 hcs, Option.bind_some, before?_eq_some_iff.2 rfl]
  rw [ofChars?, hfind]
  dsimp only
  split
  · rename_i hnone
    rw [hparameters] at hnone
    cases hnone
  · rename_i found hfound
    rw [hparameters] at hfound
    cases hfound
    cases (parts inner).2 <;> rfl

theorem trimmed_of_parameters (inner : List Char) :
    Trimmed ("Array<".toList ++ (inner ++ ['>'])) :=
  ⟨⟨'A', rfl, by decide⟩, ⟨'>', by rw [← List.append_assoc, List.getLast?_concat], by decide⟩⟩

/-- What is read off a name is the type that it names. -/
theorem ofChars?_of_names {cs : List Char} {t : Ty} (h : Names cs t) : ofChars? cs = some t := by
  induction h with
  | word hbefore hafter hw =>
      exact ofChars?_of_word hw (trim_between hbefore hafter (word_trimmed hw))
  | items hbefore hafter hitem ih =>
      rw [ofChars?_of_parameters (trim_between hbefore hafter (trimmed_of_parameters _)),
        parts_of_nested hitem.nested]
      simp only [ih, Option.map_some]
  | sized hbefore hafter hitem hfront hback hds ih =>
      have hread := length?_eq_some_iff.2 ⟨_, _, _, hfront, hback, hds, rfl, rfl⟩
      rw [ofChars?_of_parameters (trim_between hbefore hafter (trimmed_of_parameters _)),
        parts_of_sized hitem.nested (lengthText_nested hfront hds hback)]
      simp only [hread, ih, Option.bind_some, Option.map_some]

theorem names_of_ofChars? {cs : List Char} {t : Ty} (h : ofChars? cs = some t) : Names cs t := by
  have hplain : ∀ t ∈ plain, (t.name, t) ∈ words := by decide
  have hinner : ∀ {cs inner}, parameters? (trim cs) = some inner →
      trim cs = "Array<".toList ++ (inner ++ ['>']) := by
    intro cs inner h
    obtain ⟨rest, hrest, hclose⟩ := Option.bind_eq_some_iff.1 h
    rw [after?_eq_some_iff.1 hrest, before?_eq_some_iff.1 hclose]
  fun_induction ofChars? cs generalizing t with
  | case1 cs found hfind =>
      cases h
      obtain ⟨before, after, hbefore, hafter, hcs⟩ := exists_blank_trim cs
      have hname := List.find?_some hfind
      rw [beq_iff_eq] at hname
      rw [hcs, ← hname]
      exact .word hbefore hafter (hplain found (List.mem_of_find?_eq_some hfind))
  | case2 => cases h
  | case3 cs _ inner hparameters hnone ih =>
      obtain ⟨item, hitem, rfl⟩ := Option.map_eq_some_iff.1 h
      obtain ⟨before, after, hbefore, hafter, hcs⟩ := exists_blank_trim cs
      have hparts := eq_of_parts (Prod.ext rfl hnone : parts inner = ((parts inner).1, none))
      rw [hcs, hinner hparameters, hparts, Option.map_none, Option.getD_none, List.append_nil]
      exact .items hbefore hafter (ih hitem)
  | case4 cs _ inner hparameters len hsome ih =>
      obtain ⟨n, hn, h⟩ := Option.bind_eq_some_iff.1 h
      obtain ⟨item, hitem, rfl⟩ := Option.map_eq_some_iff.1 h
      obtain ⟨front, ds, back, hfront, hback, hds, rfl, rfl⟩ := length?_eq_some_iff.1 hn
      obtain ⟨before, after, hbefore, hafter, hcs⟩ := exists_blank_trim cs
      have hparts := eq_of_parts (Prod.ext rfl hsome : parts inner = ((parts inner).1, some _))
      rw [hcs, hinner hparameters, hparts, Option.map_some, Option.getD_some]
      exact .sized hbefore hafter (ih hitem) hfront hback hds

/-! ## Writing -/

theorem lengthDigits_toDigits {n : Nat} (h : n ≤ maxLength) : LengthDigits (Nat.toDigits 10 n) where
  toDigitRun := digitRun_toDigits n
  fits := by rwa [Nat.ofDigitChars_ten_toDigits]

/-- The written name of a type names it, if its lengths can be read. -/
theorem names_name {t : Ty} (h : t.Fits64) : Names t.name.toList t := by
  have hword : ∀ {t : Ty}, (t.name, t) ∈ words → Names t.name.toList t := fun hw => by
    simpa using Names.word blank_nil blank_nil hw
  induction t with
  | array item len ih =>
      obtain ⟨hitem, hlen⟩ := h
      cases len with
      | none =>
          by_cases hvalue : item = value
          · rw [hvalue]
            exact hword (by decide)
          · have hname := Names.items blank_nil blank_nil (ih hitem)
            rw [name, if_neg hvalue]
            simpa using hname
      | some n =>
          have hdigits := lengthDigits_toDigits (hlen n rfl)
          have hspace : Blank [' '] := List.forall_mem_singleton.2 rfl
          have hname := Names.sized blank_nil blank_nil (ih hitem) hspace blank_nil hdigits
          rw [Nat.ofDigitChars_ten_toDigits] at hname
          rw [name]
          simpa using hname
  | _ => exact hword (by decide)

theorem Names.fits64 {cs : List Char} {t : Ty} (h : Names cs t) : t.Fits64 := by
  have hwords : ∀ p ∈ words, p.2.Fits64 := by simp [words, Fits64, anyArray]
  induction h with
  | word _ _ hw => exact hwords _ hw
  | items _ _ _ ih => exact ⟨ih, nofun⟩
  | sized _ _ _ _ _ hds ih =>
      refine ⟨ih, fun n hn => ?_⟩
      cases hn
      exact hds.fits

/-- A text is read as a type exactly when it names the type; and the name that is written for a
type is read as that type, unless a length in it does not fit 64 bits. -/
theorem ofName?_eq_some_iff (s : String) (t : Ty) :
    (ofName? s = some t ↔ Names s.toList t) ∧ (ofName? t.name = some t ↔ t.Fits64) :=
  ⟨⟨names_of_ofChars?, ofChars?_of_names⟩,
    ⟨fun h => (names_of_ofChars? h).fits64, fun h => ofChars?_of_names (names_name h)⟩⟩

end MapStyle.Ty

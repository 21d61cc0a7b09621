/-
# `MapStyle.Proofs.Typing.Keys` — where diagnostics point

A diagnostic has a path: indices from the root of the document down to what is wrong.  Its key, the
text of the path, can be read back (`Path.ofText?_text`).  Here it is shown that the path of every
diagnostic leads through nested arrays to a part that is there, and that a complaint which quotes
the document quotes just that part (`Typing.located`).  One complaint may point behind the end of an
array: that about the base of an exponential interpolation, if there are no parameters at all.

The proof follows the document.  A form reports about itself, about its arguments as they are
written, and what their checks report; the index that a form gives to an argument has to be the one
at which it stands in the array, which begins with the name.
-/
import MapStyle.Proofs.Typing.Slots
import MapStyle.Proofs.Typing.Verdicts

namespace MapStyle

/-! ## Keys -/

namespace Path

def index? (digits : List Char) : Option Nat :=
  if digits ≠ [] ∧ digits.all Char.isDigit then some (Nat.ofDigitChars 10 digits 0) else none

/-- The path that a key writes: indices with dots between them, or nothing for the root. -/
def ofText? (key : String) : Option Path :=
  if key = "" then some [] else (key.toList.splitOn '.').mapM index?

theorem index?_toDigits (i : Nat) : index? (Nat.toDigits 10 i) = some i := by
  have hdigits : (Nat.toDigits 10 i).all Char.isDigit = true :=
    List.all_eq_true.2 fun _ hc => Nat.isDigit_of_mem_toDigits (by decide) (by decide) hc
  rw [index?, if_pos ⟨Nat.toDigits_ne_nil, hdigits⟩, Nat.ofDigitChars_ten_toDigits]

theorem mapM_index? (path : Path) : (path.map (Nat.toDigits 10)).mapM index? = some path := by
  induction path with
  | nil => rfl
  | cons i below ih =>
      rw [List.map_cons, List.mapM_cons, index?_toDigits, ih]
      rfl

/-- A key is read as the path that it is the text of. -/
theorem ofText?_text (path : Path) : ofText? path.text = some path := by
  have htext : path.text.toList = ['.'].intercalate (path.map (Nat.toDigits 10)) := by
    rw [text, String.toList_intercalate, List.map_map]
    exact congrArg _ (List.map_congr_left fun i _ => Nat.toList_repr)
  have hdots : ∀ digits ∈ path.map (Nat.toDigits 10), '.' ∉ digits := by
    intro digits hdigits hdot
    obtain ⟨i, _, rfl⟩ := List.mem_map.1 hdigits
    exact absurd (Nat.isDigit_of_mem_toDigits (by decide) (by decide) hdot) (by decide)
  cases path with
  | nil => rfl
  | cons i below =>
      have hsplit : (text (i :: below)).toList.splitOn '.' =
          (i :: below).map (Nat.toDigits 10) := by
        rw [htext]
        exact List.splitOn_intercalate '.' hdots (List.cons_ne_nil _ _)
      have hne : text (i :: below) ≠ "" := by
        intro hempty
        rw [hempty] at hsplit
        have hnil : ([] : List Char) = Nat.toDigits 10 i := (List.cons.inj hsplit).1
        exact Nat.toDigits_ne_nil hnil.symm
      rw [ofText?, if_neg hne, hsplit, mapM_index?]

end Path

namespace Json

def item? (j : Json) (i : Nat) : Option Json := j.arr?.bind fun items => items[i]?

/-- The part of a document that a path leads to, through nested arrays. -/
def part? (j : Json) (path : Path) : Option Json := path.foldlM item? j

/-- The part of a document that a key leads to. -/
def partAt? (j : Json) (key : String) : Option Json := (Path.ofText? key).bind j.part?

theorem part?_cons {j item : Json} {i : Nat} (h : j.item? i = some item) (below : Path) :
    j.part? (i :: below) = item.part? below := by
  rw [part?, List.foldlM_cons, h]
  rfl

theorem partAt?_text (j : Json) (path : Path) : j.partAt? path.text = j.part? path := by
  rw [partAt?, Path.ofText?_text]
  rfl

/-- A document is a call with so many arguments. -/
def TakesArgs (j : Json) (count : Nat) : Prop := ∃ name args, j = call name args ∧ args.length = count

end Json

/-! ## Complaints in their places -/

/-- What a complaint quotes is the given part of a document. -/
def Complaint.Quotes (part : Json) : Complaint → Prop
  | .bareObject => part.kind = "object"
  | .emptyArray => part = .arr []
  | .nameNotString kind => part.kind = kind
  | .unknownExpression name => part = .str name
  | .colorText text => part = .str text
  | .noLabels => part = .arr []
  | .unknownInterpolation found => part = found
  | .stopLabelKind kind => part.kind = kind
  | .variableName found => part = found
  | .unknownVariable name => part = .str name
  | .literalArity found => part.TakesArgs found
  | .fewArguments found => part.TakesArgs found
  | .fewBindingArguments found => part.TakesArgs found
  | .varArity found => part.TakesArgs found
  | .arrayArity found => part.TakesArgs found
  | .callArity _ found => part.TakesArgs found
  | _ => True

/-- A complaint is about a place in a document: a part that is there, or the base behind the name of
an exponential interpolation that has none. -/
inductive Complaint.IsAbout (j : Json) (path : Path) : Complaint → Prop
  | part {c : Complaint} {part : Json} : j.part? path = some part → c.Quotes part → IsAbout j path c
  | behind {above : Path} : path = above ++ [1] →
      j.part? above = some (.call "exponential" []) → IsAbout j path .missingBase

theorem Complaint.IsAbout.below {j item : Json} {i : Nat} (hi : j.item? i = some item)
    {path : Path} {c : Complaint} (h : c.IsAbout item path) : c.IsAbout j (i :: path) := by
  cases h with
  | part hpart hquotes => exact .part ((Json.part?_cons hi path).trans hpart) hquotes
  | behind hpath hpart =>
      rename_i above
      exact .behind (congrArg (i :: ·) hpath) ((Json.part?_cons hi above).trans hpart)

/-- A diagnostic is about a part of the document that is checked in a context. -/
def Context.Locates (ctx : Context) (j : Json) (d : Diagnostic) : Prop :=
  ∃ below, d.path = ctx.path ++ below ∧ d.complaint.IsAbout j below

/-- What is located in an item is located in the array. -/
theorem Context.Locates.of_item {ctx below : Context} {j item : Json} {i : Nat}
    (hi : j.item? i = some item) (hpath : below.path = ctx.path ++ [i]) {d : Diagnostic}
    (h : below.Locates item d) : ctx.Locates j d := by
  obtain ⟨path, hd, habout⟩ := h
  refine ⟨i :: path, ?_, habout.below hi⟩
  rw [hd, hpath, List.append_assoc]
  rfl

/-! ## Reports -/

namespace Reporting

variable {α β σ : Type} {ok : Diagnostic → Prop}

/-- All that a computation reports has a property. -/
def Reports (ok : Diagnostic → Prop) (p : Reporting α) : Prop := ∀ d ∈ (p.run []).2, ok d

theorem reports_pure (a : α) : Reports ok (pure a : Reporting α) := fun _ h => nomatch h

theorem Reports.bind {p : Reporting α} {f : α → Reporting β} (hp : Reports ok p)
    (hadds : ∀ a, Adds (f a)) (hf : ∀ a, Reports ok (f a)) : Reports ok (p >>= f) := by
  intro d hd
  rw [run_bind, hadds] at hd
  rcases List.mem_append.1 hd with hd | hd
  · exact hp d hd
  · exact hf _ d hd

theorem Reports.map {p : Reporting α} {f : α → β} (hp : Reports ok p) :
    Reports ok (p >>= fun a => pure (f a)) :=
  hp.bind (fun _ => adds_pure _) fun _ => reports_pure _

section

variable {step : σ → α → Reporting (σ × Option β)} {as : List α}
  (hadds : ∀ a ∈ as, ∀ s, Adds (step s a)) (hstep : ∀ a ∈ as, ∀ s, Reports ok (step s a))

include hadds hstep

theorem reports_along (s : σ) : Reports ok (along step s as) := by
  induction as generalizing s with
  | nil => exact reports_pure _
  | cons a as ih =>
      obtain ⟨_, hrestAdds⟩ := List.forall_mem_cons.1 hadds
      obtain ⟨hfirst, hrest⟩ := List.forall_mem_cons.1 hstep
      exact (hfirst s).bind (fun _ => (adds_along hrestAdds _).bind fun _ => adds_pure _)
        fun _ => (ih hrestAdds hrest _).map

theorem reports_sweep (s : σ) : Reports ok (sweep step s as) := (reports_along hadds hstep s).map

end

end Reporting

open Reporting

namespace Typing

variable {α σ : Type} {ctx : Context} {j item : Json} {i : Nat} {c : Complaint}

theorem reports_reportAt {below : Path} (h : c.IsAbout j below) :
    Reports (ctx.Locates j) (ctx.reportAt (α := α) below c) := by
  intro d hd
  cases List.mem_singleton.1 hd
  exact ⟨below, rfl, h⟩

theorem reports_report (h : c.Quotes j) : Reports (ctx.Locates j) (ctx.report (α := α) c) :=
  reports_reportAt (.part rfl h)

theorem reports_item (item : Json) (hi : j.item? i = some item) (h : c.Quotes item) :
    Reports (ctx.Locates j) (ctx.reportAt (α := α) [i] c) :=
  reports_reportAt (.below hi (.part rfl h))

theorem reports_item_beside (hi : j.item? i = some item) (h : c.Quotes item) (s : σ) :
    Reports (ctx.Locates j) (do pure (s, ← ctx.reportAt (α := α) [i] c)) :=
  (reports_item _ hi h).map

/-- Wherever a document is checked, diagnostics are about its parts. -/
def Located (j : Json) : Prop := ∀ ctx : Context, Reports (ctx.Locates j) (check j ctx)

theorem Located.of_item (h : Located item) (hi : j.item? i = some item) {below : Context}
    (hpath : below.path = ctx.path ++ [i]) : Reports (ctx.Locates j) (check item below) :=
  fun d hd => (h below d hd).of_item hi hpath

/-! ## Items by their indices -/

theorem getElem?_of_mem_args {js : List Json} {k : Nat} {a : Arg × Nat}
    (h : a ∈ (js.map argOf).zipIdx k) : ∃ i j, js[i]? = some j ∧ a = (argOf j, k + i) := by
  obtain ⟨i, hi⟩ := List.mem_iff_getElem?.1 h
  rw [List.getElem?_zipIdx, List.getElem?_map, Option.map_map] at hi
  obtain ⟨j, hj, ha⟩ := Option.map_eq_some_iff.1 hi
  exact ⟨i, j, hj, ha.symm⟩

theorem getElem?_of_mem_argPairs {pairs : List (Json × Json)} {a : (Arg × Arg) × Nat}
    (h : a ∈ (argPairs pairs).zipIdx) :
    ∃ i p, pairs[i]? = some p ∧ a = ((argOf p.1, argOf p.2), i) := by
  obtain ⟨i, hi⟩ := List.mem_iff_getElem?.1 h
  rw [List.getElem?_zipIdx, argPairs, List.getElem?_map, Option.map_map] at hi
  obtain ⟨p, hp, ha⟩ := Option.map_eq_some_iff.1 hi
  refine ⟨i, p, hp, ha.symm.trans ?_⟩
  rw [Function.comp_apply, Nat.zero_add]
  rfl

/-- The items of a pair stand at two indices that follow each other, the first one even. -/
theorem getElem?_pair_of_inPairs {α : Type} : ∀ {as : List α} {pairs : List (α × α)}
    {extra : Option α}, inPairs as = (pairs, extra) → ∀ {k : Nat} {p : α × α},
      pairs[k]? = some p → as[2 * k]? = some p.1 ∧ as[2 * k + 1]? = some p.2
  | [], _, _, h, k, p, hk => by
      cases h
      cases hk
  | [_], _, _, h, k, p, hk => by
      cases h
      cases hk
  | a :: b :: rest, _, _, h, k, p, hk => by
      cases h
      cases k with
      | zero =>
          cases hk
          exact ⟨rfl, rfl⟩
      | succ k => exact getElem?_pair_of_inPairs (rfl : inPairs rest = _) hk

section Steps

variable {ok : Diagnostic → Prop} {β : Type}

theorem reports_of_mem {js : List Json} (ih : ∀ j ∈ js, Located j) {k : Nat}
    {step : σ → Arg × Nat → Reporting (σ × Option β)}
    (h : ∀ i item, js[i]? = some item → Located item →
      ∀ s, Reports ok (step s (argOf item, k + i))) :
    ∀ a ∈ (js.map argOf).zipIdx k, ∀ s, Reports ok (step s a) := by
  intro a ha s
  obtain ⟨i, item, hi, rfl⟩ := getElem?_of_mem_args ha
  exact h i item hi (ih item (List.mem_of_getElem? hi)) s

theorem reports_of_mem_pairs {pairs : List (Json × Json)} (ih : ∀ p ∈ pairs, Located p.2)
    {step : σ → (Arg × Arg) × Nat → Reporting (σ × Option β)}
    (h : ∀ i p, pairs[i]? = some p → Located p.2 →
      ∀ s, Reports ok (step s ((argOf p.1, argOf p.2), i))) :
    ∀ a ∈ (argPairs pairs).zipIdx, ∀ s, Reports ok (step s a) := by
  intro a ha s
  obtain ⟨i, p, hi, rfl⟩ := getElem?_of_mem_argPairs ha
  exact h i p hi (ih p (List.mem_of_getElem? hi)) s

end Steps

/-! ## Parts of forms -/

theorem reports_checkOutput (h : Located item) (hi : j.item? i = some item) (shared : Option Ty) :
    Reports (ctx.Locates j) ((argOf item).checkOutput ctx i shared) := by
  refine Reports.bind (h.of_item hi rfl) (fun r => ?_) fun r => ?_
  · cases r <;> exact adds_pure _
  · cases r <;> exact reports_pure _

theorem reports_checkIn {context : Nat → Context} {k : Nat} (h : Located item)
    (hi : j.item? i = some item) (hpath : (context k).path = ctx.path ++ [i]) :
    Reports (ctx.Locates j) (checkIn context () (argOf item, k)) :=
  Reports.map (h.of_item hi hpath)

theorem reports_literalOf (v : Value) : Reports (ctx.Locates j) (literalOf v ctx) := by
  rw [literalOf]
  split
  · exact reports_pure _
  · exact reports_report trivial

theorem reports_scalar (j : Json) : Reports (ctx.Locates j) (scalar j ctx) := by
  simp only [scalar]
  split
  · split
    · exact reports_literalOf _
    · exact reports_report rfl
  · exact reports_literalOf _

theorem reports_label (hi : j.item? i = some item) (raw : Json) :
    Reports (ctx.Locates j) (label raw i ctx) := by
  unfold label
  split
  · exact reports_pure _
  · dsimp only
    split
    · exact reports_item _ hi trivial
    · split
      · exact reports_pure _
      · exact reports_item _ hi trivial
  · exact reports_item _ hi trivial

theorem reports_nextLabel (hi : j.item? i = some item) (branch : Nat) (seen : LabelsSeen)
    (raw : Json) : Reports (ctx.Locates j) (nextLabel ctx branch i seen raw) := by
  refine (reports_label hi raw).bind (fun r => ?_) fun r => ?_
  · cases r with
    | none => exact adds_pure _
    | some l =>
        dsimp only
        split
        · exact (adds_reportAt _ _ _).bind fun _ => adds_pure _
        · split
          · exact (adds_reportAt _ _ _).bind fun _ => adds_pure _
          · exact adds_pure _
  · cases r with
    | none => exact reports_pure _
    | some l =>
        dsimp only
        split
        · refine reports_item_beside hi ?_ _
          exact trivial
        · split
          · refine reports_item_beside hi ?_ _
            exact trivial
          · exact reports_pure _

theorem reports_nextBranch {labels output : Json} {k : Nat} (h : Located output)
    (hlabels : j.item? (2 * k + 2) = some labels) (houtput : j.item? (2 * k + 3) = some output)
    (seen : BranchesSeen) :
    Reports (ctx.Locates j) (nextBranch ctx seen ((argOf labels, argOf output), k)) := by
  rw [nextBranch]
  dsimp only
  rw [branchLabels_argOf]
  split
  · rename_i hempty
    refine reports_item_beside hlabels ?_ _
    have hnil : labelItems labels = [] := List.isEmpty_iff.1 hempty
    cases labels with
    | arr items => exact congrArg Json.arr hnil
    | _ => cases hnil
  · refine (reports_sweep (fun raw _ s => adds_nextLabel _ _ _ s raw)
      (fun raw _ s => reports_nextLabel hlabels k s raw) _).bind (fun found => ?_) fun found => ?_
    · refine (adds_checkOutput (adds_arg output) _ _ _).bind fun r => ?_
      split <;> exact adds_pure _
    · refine (reports_checkOutput h houtput _).bind (fun r => ?_) fun r => ?_
      · split <;> exact adds_pure _
      · split <;> exact reports_pure _

/-- Only a base that is not there is looked for behind the end of the description. -/
theorem reports_interpolation (description : Json) (hi : j.item? 1 = some description) :
    Reports (ctx.Locates j) (interpolation description ctx) := by
  simp only [interpolation]
  split
  · rename_i name parameters
    simp only [interpolationOf]
    split
    · exact reports_pure _
    · exact reports_pure _
    · rename_i hname
      cases str?_eq_some.1 hname
      split
      · exact reports_pure _
      · cases parameters with
        | nil =>
            have hbehind : ([1, 1] : Path) = [1] ++ [1] := rfl
            exact reports_reportAt (.behind hbehind (Json.part?_cons hi []))
        | cons base rest => exact reports_reportAt (.below hi (.part rfl trivial))
    · generalize (parameters.filterMap Json.num?).filter (inRange 0 1) = points
      split
      · exact reports_pure _
      · exact reports_item _ hi trivial
    · exact reports_reportAt (.below hi (.part rfl rfl))
  · exact reports_item _ hi trivial

theorem reports_nextStop {label output : Json} {k : Nat} (h : Located output)
    (hlabel : j.item? (2 * k + 3) = some label) (houtput : j.item? (2 * k + 4) = some output)
    (seen : StopsSeen) :
    Reports (ctx.Locates j) (nextStop ctx seen ((argOf label, argOf output), k)) := by
  unfold nextStop
  dsimp only
  split
  · refine reports_item_beside hlabel ?_ _
    exact rfl
  · split
    · refine reports_item_beside hlabel ?_ _
      exact trivial
    · split
      · refine reports_item_beside hlabel ?_ _
        exact trivial
      · refine (reports_checkOutput h houtput _).bind (fun r => ?_) fun r => ?_
        · split <;> exact adds_pure _
        · split <;> exact reports_pure _

theorem reports_bindIn {name value : Json} {k : Nat} (h : Located value)
    (hname : j.item? (2 * k + 1) = some name) (hvalue : j.item? (2 * k + 2) = some value) :
    Reports (ctx.Locates j) (bindIn ctx () ((argOf name, argOf value), k)) := by
  have hbinding : Reports (ctx.Locates j) (nextBinding ctx ((argOf name, argOf value), k)) := by
    unfold nextBinding
    dsimp only
    split
    · exact reports_item _ hname rfl
    · exact Reports.map (h.of_item hvalue rfl)
  exact hbinding.map

/-! ## Forms -/

/-- What a form reports is about its call or a part of it, provided that this is so for the documents
below it. -/
def FormLocates (form : Form) : Prop :=
  ∀ (name : String) (js : List Json) (ctx : Context), (∀ j ∈ js, Located j) →
    Reports (ctx.Locates (.call name js)) (form (js.map argOf) ctx)

/-- The number of arguments that a form finds is that of its call. -/
theorem takesArgs (name : String) (js : List Json) :
    (Json.call name js).TakesArgs (js.map argOf).length :=
  ⟨name, js, rfl, (List.length_map _).symm⟩

theorem literal_locates : FormLocates literal := by
  intro name js ctx _
  match js with
  | [] => exact reports_report ⟨name, [], rfl, rfl⟩
  | [j] => exact reports_literalOf _
  | _ :: _ :: _ => exact reports_report (takesArgs name _)

theorem coalesce_locates : FormLocates coalesce := by
  intro name js ctx ih
  refine (reports_sweep (fun a ha _ => ?_) (reports_of_mem ih fun i item hi hitem shared => ?_)
    _).map
  · exact adds_checkOutput (adds_argOf js _ (List.fst_mem_of_mem_zipIdx ha)) _ _ _
  · have hi : (Json.call name js).item? (i + 1) = some item := hi
    rw [Nat.add_comm]
    exact reports_checkOutput hitem hi shared

theorem assertion_locates (ty : Ty) : FormLocates (assertion ty) := by
  intro name js ctx ih
  rw [assertion]
  split
  · exact reports_report trivial
  · have hinputs : Reports (ctx.Locates (.call name js))
        (Reporting.sweep (checkIn fun i => ctx.child i (some .value)) ()
          ((js.map argOf).zipIdx 1)) := by
      refine reports_sweep (adds_checkIn (adds_argOf js) _ 1)
        (reports_of_mem ih fun i item hi hitem _ => ?_) _
      have hi : (Json.call name js).item? (i + 1) = some item := hi
      rw [Nat.add_comm]
      exact reports_checkIn hitem hi rfl
    exact hinputs.map

theorem reports_arrayOf (h : Located item) (hi : j.item? i = some item) (t : Ty)
    (len : Option Nat) : Reports (ctx.Locates j) (arrayOf t len (argOf item) i ctx) :=
  Reports.map (h.of_item hi rfl)

theorem arrayAssertion_locates : FormLocates arrayAssertion := by
  intro name js ctx ih
  match js with
  | [] => exact reports_report ⟨name, [], rfl, rfl⟩
  | [input] => exact reports_arrayOf (ih input (by simp)) rfl _ _
  | [item, input] =>
      simp only [List.map_cons, List.map_nil, arrayAssertion]
      split
      · exact reports_arrayOf (ih input (by simp)) rfl _ _
      · exact reports_item item rfl trivial
  | [item, len, input] =>
      simp only [List.map_cons, List.map_nil, arrayAssertion]
      split
      · exact reports_arrayOf (ih input (by simp)) rfl _ _
      · exact reports_item item rfl trivial
      · exact reports_item len rfl trivial
  | _ :: _ :: _ :: _ :: _ => exact reports_report (takesArgs name _)

theorem var_locates : FormLocates var := by
  intro name js ctx _
  match js with
  | [] => exact reports_report ⟨name, [], rfl, rfl⟩
  | [j] =>
      simp only [List.map_cons, List.map_nil, var, argOf]
      split
      · exact reports_item j rfl trivial
      · rename_i text htext
        cases str?_eq_some.1 htext
        split
        · exact reports_pure _
        · exact reports_item (.str text) rfl rfl
  | _ :: _ :: _ => exact reports_report (takesArgs name _)

/-! ### Calls -/

theorem reports_arguments (ctx : Context) {js : List Json} (ih : ∀ j ∈ js, Located j) (name : String)
    (expected : Nat → Option Ty) :
    Reports (ctx.Locates (.call name js)) (arguments (js.map argOf) expected ctx) := by
  have hchecks : Reports (ctx.Locates (.call name js))
      (Reporting.along (checkIn fun i => ctx.child (i + 1) (expected i)) ()
        (js.map argOf).zipIdx) := by
    refine reports_along (adds_checkIn (adds_argOf js) _ 0)
      (reports_of_mem ih fun i item hi hitem _ => ?_) _
    have hi : (Json.call name js).item? (i + 1) = some item := hi
    rw [Nat.zero_add]
    exact reports_checkIn hitem hi rfl
  exact hchecks.map

/-- A signature that does not fit leaves no report. -/
theorem reports_firstFitting {ok : Diagnostic → Prop} (fn : Builtin) (args : List Arg)
    (ctx : Context) (signatures : List Signature) :
    Reports ok (firstFitting fn args ctx signatures) := by
  induction signatures with
  | nil => exact reports_pure _
  | cons signature rest ih =>
      rw [firstFitting]
      split
      · have hapart : Reports ok (apart (withSignature fn signature args ctx)) := by
          intro d hd
          cases hd
        refine hapart.bind (fun r => ?_) fun r => ?_
        · split
          · exact adds_pure _
          · exact adds_firstFitting _ _ _ _
        · split
          · exact reports_pure _
          · exact ih
      · exact ih

/-- The mistakes of the arguments themselves are reported where they were found. -/
theorem reports_noneFitting {js : List Json} (ih : ∀ j ∈ js, Located j) (fn : Builtin)
    (name : String) : Reports (ctx.Locates (.call name js)) (noneFitting fn (js.map argOf) ctx) := by
  have harguments := reports_arguments ctx ih name fun _ => none
  intro d hd
  rw [noneFitting, run_bind] at hd
  generalize hrun : (apart (arguments (js.map argOf) (fun _ => none) ctx)).run [] = r at hd
  cases hrun
  split at hd
  · refine reports_report (j := .call name js) ?_ d hd
    exact trivial
  · rename_i checked ds _ hfound
    refine harguments d ?_
    have hds : ((arguments (js.map argOf) (fun _ => none) ctx).run []).2 = ds :=
      congrArg Prod.snd hfound
    rw [hds]
    exact hd

theorem call_locates (fn : Builtin) : FormLocates (call fn) := by
  intro name js ctx ih
  rw [call]
  split
  · split
    · exact (reports_arguments ctx ih name _).map
    · exact reports_report (takesArgs name js)
  · refine (reports_firstFitting fn _ _ _).bind (fun r => ?_) fun r => ?_
    · cases r with
      | none => exact adds_noneFitting _ _ _
      | some e => exact adds_pure _
    · cases r with
      | none => exact reports_noneFitting ih fn name
      | some e => exact reports_pure _

/-! ### Arguments in pairs -/

theorem select_locates : FormLocates select := by
  intro name js ctx ih
  simp only [select]
  split
  · exact reports_report (takesArgs name js)
  cases js with
  | nil => exact reports_report trivial
  | cons input rest =>
      simp only [List.map_cons, inPairs_map]
      generalize hpairs : inPairs rest = pairs
      obtain ⟨branches, extra⟩ := pairs
      cases extra with
      | none => exact reports_report trivial
      | some last =>
          obtain ⟨ihinput, ihrest⟩ := List.forall_mem_cons.1 ih
          obtain ⟨hmem, hmemLast⟩ := mem_of_inPairs hpairs
          have hcount := Indexed.length_eq_of_inPairs hpairs
          have hlast : rest[2 * branches.length]? = some last :=
            Indexed.getElem?_of_inPairs hpairs
          have hend : (Json.call name (input :: rest)).item? (rest.length + 1) = some last := by
            rw [hcount]
            exact hlast
          refine (reports_sweep (fun a ha s => ?_) (reports_of_mem_pairs
            (fun p hp => ihrest _ (hmem p hp).2) fun i p hi hp seen => ?_) _).bind
              (fun found => ?_) fun found => ?_
          · exact adds_nextBranch (adds_snd ha) _ _ _ _
          · obtain ⟨hlabels, houtput⟩ := getElem?_pair_of_inPairs hpairs hi
            exact reports_nextBranch (j := .call name (input :: rest)) hp hlabels houtput seen
          · refine (adds_check _ _).bind fun _ => (adds_check _ _).bind fun _ => ?_
            split <;> exact adds_pure _
          · refine Reports.bind (ihinput.of_item (i := 1) rfl rfl) (fun d => ?_) fun d => ?_
            · refine (adds_check _ _).bind fun _ => ?_
              split <;> exact adds_pure _
            · refine Reports.bind ((ihrest _ (hmemLast _ rfl)).of_item hend ?_) (fun o => ?_)
                fun o => ?_
              · simp [Context.child]
              · split <;> exact adds_pure _
              · split <;> exact reports_pure _

theorem curve_locates : FormLocates curve := by
  intro name js ctx ih
  simp only [curve]
  split
  · exact reports_report (takesArgs name js)
  rcases js with _ | ⟨description, _ | ⟨input, rest⟩⟩
  · exact reports_report trivial
  · exact reports_report trivial
  · simp only [List.map_cons, inPairs_map]
    generalize hpairs : inPairs rest = pairs
    obtain ⟨stops, extra⟩ := pairs
    cases extra with
    | some last => exact reports_report trivial
    | none =>
        obtain ⟨_, ih⟩ := List.forall_mem_cons.1 ih
        obtain ⟨ihinput, ihrest⟩ := List.forall_mem_cons.1 ih
        obtain ⟨hmem, _⟩ := mem_of_inPairs hpairs
        have hadds : ∀ a ∈ (argPairs stops).zipIdx, ∀ s, Adds (nextStop ctx s a) :=
          fun a ha s => adds_nextStop (adds_snd ha) _ _ _ _
        have hrest : ∀ (kind : Option Interpolation) (d : Option Expr), Adds _ := fun kind d =>
          (adds_sweep hadds ⟨ctx.expected, none⟩).bind (adds_curveParts ctx kind d)
        refine (reports_interpolation description rfl).bind
          (fun kind => (adds_check _ _).bind (hrest kind)) fun kind => ?_
        refine Reports.bind (ihinput.of_item (i := 2) rfl rfl) (hrest kind) fun d => ?_
        refine (reports_sweep hadds (reports_of_mem_pairs (fun p hp => ihrest _ (hmem p hp).2)
          fun i p hi hp seen => ?_) _).bind (adds_curveParts ctx kind d) fun found => ?_
        · obtain ⟨hlabel, houtput⟩ := getElem?_pair_of_inPairs hpairs hi
          exact reports_nextStop (j := .call name (description :: input :: rest)) hp hlabel houtput
            seen
        · split
          · rw [curveOf]
            split
            · exact reports_pure _
            · exact reports_report trivial
          · exact reports_pure _

theorem letIn_locates : FormLocates letIn := by
  intro name js ctx ih
  rw [letIn, inPairs_map]
  split
  · exact reports_report (takesArgs name js)
  generalize hpairs : inPairs js = pairs
  obtain ⟨bindings, extra⟩ := pairs
  cases extra with
  | none => exact reports_report trivial
  | some last =>
      obtain ⟨hmem, hmemLast⟩ := mem_of_inPairs hpairs
      have hcount := Indexed.length_eq_of_inPairs hpairs
      have hlast : js[2 * bindings.length]? = some last := Indexed.getElem?_of_inPairs hpairs
      have hend : (Json.call name js).item? js.length = some last := by
        rw [hcount]
        exact hlast
      have hbindings : Reports (ctx.Locates (.call name js))
          (Reporting.sweep (bindIn ctx) () (argPairs bindings).zipIdx) := by
        refine reports_sweep (fun a ha _ => ?_) (reports_of_mem_pairs
          (fun p hp => ih _ (hmem p hp).2) fun i p hi hp _ => ?_) _
        · exact (adds_nextBinding (adds_snd ha) _ _ _).bind fun _ => adds_pure _
        · obtain ⟨hname, hvalue⟩ := getElem?_pair_of_inPairs hpairs hi
          exact reports_bindIn (j := .call name js) hp hname hvalue
      refine hbindings.bind (fun found => ?_) fun found => ?_
      · dsimp only
        split
        · exact adds_pure _
        · exact (adds_check _ _).bind fun _ => adds_pure _
      · dsimp only
        split
        · exact reports_pure _
        · refine Reports.map ((ih _ (hmemLast _ rfl)).of_item hend ?_)
          rw [List.length_map]
          rfl

theorem IsForm.locates {form : Form} (h : IsForm form) : FormLocates form := by
  cases h with
  | literal => exact literal_locates
  | coalesce => exact coalesce_locates
  | select => exact select_locates
  | curve => exact curve_locates
  | letIn => exact letIn_locates
  | var => exact var_locates
  | assertion => exact assertion_locates _
  | arrayAssertion => exact arrayAssertion_locates
  | call fn => exact call_locates fn

/-! ## Documents -/

theorem reports_conform (e : Expr) : Reports (ctx.Locates j) (conform e ctx) := by
  rw [conform]
  split
  · exact reports_pure _
  · split
    · exact reports_pure _
    · split
      · exact reports_pure _
      · split
        · exact reports_pure _
        · exact reports_report trivial

theorem reports_settled {p : Context → Reporting (Option Expr)}
    (h : Reports (ctx.Locates j) (p ctx)) : Reports (ctx.Locates j) (settled p ctx) := by
  refine h.bind (fun r => ?_) fun r => ?_
  · cases r with
    | none => exact adds_pure _
    | some e => exact adds_conform e ctx
  · cases r with
    | none => exact reports_pure _
    | some e => exact reports_conform e

theorem reports_applied {items : List Json} (ih : ∀ j ∈ items, Located j) :
    Reports (ctx.Locates (.arr items)) (applied (checks items) ctx) := by
  rw [checks_eq_map]
  cases items with
  | nil => exact reports_report rfl
  | cons head js =>
      simp only [List.map_cons, applied, argOf]
      split
      · exact reports_item head rfl rfl
      · rename_i name hname
        cases str?_eq_some.1 hname
        split
        · exact reports_item (.str name) rfl rfl
        · rename_i form hform
          exact (isForm hform).locates name js ctx fun j hj => ih j (List.mem_cons_of_mem _ hj)

/-- Every diagnostic is about a part of the document. -/
theorem located (j : Json) : Located j := by
  induction j using json_induction with
  | scalar j hj =>
      intro ctx
      cases j with
      | arr => cases hj
      | obj => cases hj
      | _ => exact reports_settled (reports_scalar _)
  | arr items ih => exact fun ctx => reports_settled (reports_applied ih)
  | obj fields => exact fun ctx => reports_report rfl

end Typing

end MapStyle

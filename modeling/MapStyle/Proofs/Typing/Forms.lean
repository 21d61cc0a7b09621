/-
# `MapStyle.Proofs.Typing.Forms` — when a document checks to a tree

`Elaborates ctx j e` says that the document `j` checks to the tree `e` in the context `ctx` and that
nothing is wrong with it.  For every form there is one equivalence that says exactly when this is
so, in terms of the documents that are its arguments.  Whatever is proved about checked trees is
proved from these equivalences; no later proof opens a form.
-/
import MapStyle.Proofs.Typing.Accumulation

namespace MapStyle

open Reporting

namespace Typing

/-- A document checks to a tree, and nothing is wrong with it. -/
def Elaborates (ctx : Context) (j : Json) (e : Expr) : Prop := Clean (check j ctx) (some e)

theorem Elaborates.unique {ctx : Context} {j : Json} {d e : Expr} (hd : Elaborates ctx j d)
    (he : Elaborates ctx j e) : d = e := Option.some.inj (Clean.unique hd he)

/-- A document as the argument of a form. -/
def argOf (j : Json) : Arg := ⟨j, check j⟩

theorem checks_eq_map (js : List Json) : checks js = js.map argOf := by
  induction js with
  | nil => rfl
  | cons j js ih => rw [checks, ih]; rfl

theorem adds_arg (j : Json) : (argOf j).Adds := adds_check j

theorem adds_argOf (js : List Json) : ∀ arg ∈ js.map argOf, arg.Adds := by
  intro arg h
  obtain ⟨j, _, rfl⟩ := List.mem_map.1 h
  exact adds_arg j

theorem exists_of_mem_args {js : List Json} {k : Nat} {a : Arg × Nat}
    (h : a ∈ (js.map argOf).zipIdx k) : ∃ j ∈ js, ∃ i, a = (argOf j, i) := by
  obtain ⟨j, hj, hja⟩ := List.mem_map.1 (List.fst_mem_of_mem_zipIdx h)
  exact ⟨j, hj, a.2, Prod.ext hja.symm rfl⟩

theorem inPairs_map {α β : Type} (f : α → β) : ∀ as : List α,
    inPairs (as.map f) = ((inPairs as).1.map (Prod.map f f), (inPairs as).2.map f)
  | [] => rfl
  | [_] => rfl
  | _ :: _ :: rest => by
      simp only [List.map_cons, inPairs, inPairs_map f rest]
      rfl

/-! ## Results of steps and sequences -/

theorem clean_map {α β : Type} {p : Reporting (Option α)} {f : α → β} {b : β} :
    Clean (p >>= fun r => pure (r.map f)) (some b) ↔ ∃ a, Clean p (some a) ∧ f a = b := by
  rw [clean_bind fun _ => adds_pure _]
  constructor
  · rintro ⟨r, hp, hr⟩
    obtain ⟨a, rfl, hb⟩ := Option.map_eq_some_iff.1 (clean_pure.1 hr)
    exact ⟨a, hp, hb⟩
  · rintro ⟨a, hp, rfl⟩
    exact ⟨some a, hp, clean_pure.2 rfl⟩

theorem clean_checkOutput {arg : Arg} {ctx : Context} {i : Nat} {shared last : Option Ty}
    {e : Expr} : Clean (arg.checkOutput ctx i shared) (last, some e) ↔
      Clean (arg.check (ctx.child i shared)) (some e) ∧ last = learn shared e := by
  rw [Arg.checkOutput, clean_bind fun r => by cases r <;> exact adds_pure _]
  constructor
  · rintro ⟨r, hp, hr⟩
    cases r with
    | none => cases (Prod.mk.inj (clean_pure.1 hr)).2
    | some d =>
        obtain ⟨hlast, hd⟩ := Prod.mk.inj (clean_pure.1 hr)
        cases hd
        exact ⟨hp, hlast.symm⟩
  · rintro ⟨hp, rfl⟩
    exact ⟨some e, hp, clean_pure.2 rfl⟩

/-- Documents that check one by one, the one at `i` against `expected i`. -/
inductive Each (ctx : Context) (expected : Nat → Option Ty) : Nat → List Json → List Expr → Prop
  | nil (i : Nat) : Each ctx expected i [] []
  | cons {i : Nat} {j : Json} {e : Expr} {js : List Json} {es : List Expr} :
      Elaborates (ctx.child (i + 1) (expected i)) j e → Each ctx expected (i + 1) js es →
      Each ctx expected i (j :: js) (e :: es)

theorem clean_checkIn {context : Nat → Context} {j : Json} {i : Nat} {r : Option Expr} :
    Clean (checkIn context () (argOf j, i)) ((), r) ↔ Clean (check j (context i)) r := by
  rw [checkIn, clean_bind fun _ => adds_pure _]
  constructor
  · rintro ⟨r', h, heq⟩
    cases clean_pure.1 heq
    exact h
  · intro h
    exact ⟨r, h, clean_pure.2 rfl⟩

/-- Steps that check one argument each are checks one by one; the arguments are counted from
`shift` on. -/
theorem steps_checkIn {ctx : Context} {expected : Nat → Option Ty} (context : Nat → Context)
    (shift : Nat) (hctx : ∀ i, context (i + shift) = ctx.child (i + 1) (expected i)) :
    ∀ {js : List Json} {i : Nat} {es : List Expr},
      Steps (checkIn context) () ((js.map argOf).zipIdx (i + shift)) () es ↔
        Each ctx expected i js es
  | [], i, es => by
      constructor
      · rintro ⟨⟩
        exact .nil i
      · rintro ⟨⟩
        exact .nil ()
  | j :: js, i, es => by
      have ih := @steps_checkIn ctx expected context shift hctx js (i + 1)
      rw [Nat.add_right_comm] at ih
      constructor
      · rintro (_ | ⟨hj, hjs⟩)
        rw [clean_checkIn, hctx] at hj
        exact .cons hj (ih.1 hjs)
      · rintro (_ | ⟨hj, hjs⟩)
        refine .cons (clean_checkIn.2 ?_) (ih.2 hjs)
        rw [hctx]
        exact hj

/-! ## Literals -/

theorem clean_literalOf {v : Value} {ctx : Context} {e : Expr} :
    Clean (literalOf v ctx) (some e) ↔
      v.isValid = true ∧ e = .literal ctx.path (literalTy ctx.expected v) v := by
  rw [literalOf]
  split
  · rename_i h
    simp [h, eq_comm]
  · rename_i h
    simp [h]

theorem clean_scalar {j : Json} {ctx : Context} {e : Expr} :
    Clean (scalar j ctx) (some e) ↔
      (∃ s c, j = .str s ∧ ctx.expected = some .color ∧ Css.color? s = some c ∧
        Clean (literalOf (.color c) ctx) (some e)) ∨
      ((∀ s, j = .str s → ctx.expected ≠ some .color) ∧
        Clean (literalOf (Value.ofJson j) ctx) (some e)) := by
  simp only [scalar]
  split
  · rename_i s hexp
    split
    · rename_i c hc
      simp [hexp, hc]
    · rename_i hc
      simp [hexp, hc]
  · rename_i hne
    constructor
    · intro h
      exact .inr ⟨fun s hj hexp => hne s hj hexp, h⟩
    · rintro (⟨s, c, hj, hexp, _⟩ | ⟨_, h⟩)
      · exact absurd hexp (hne s hj)
      · exact h

theorem clean_literal {js : List Json} {ctx : Context} {e : Expr} :
    Clean (literal (js.map argOf) ctx) (some e) ↔
      ∃ j, js = [j] ∧ Clean (literalOf (Value.ofJson j) ctx) (some e) := by
  cases js with
  | nil => simp [literal]
  | cons j js =>
      cases js with
      | nil => simp [literal, argOf]
      | cons => simp [literal]

/-! ## Assertions -/

theorem clean_assertion {ty : Ty} {js : List Json} {ctx : Context} {e : Expr} :
    Clean (assertion ty (js.map argOf) ctx) (some e) ↔
      js ≠ [] ∧ ∃ es, Each ctx (fun _ => some .value) 0 js es ∧ e = .assertion ctx.path ty es := by
  rw [assertion]
  cases js with
  | nil => simp
  | cons j js =>
      rw [if_neg (by simp)]
      have hsteps : ∀ r es, Clean (Reporting.sweep (checkIn fun i => ctx.child i (some .value)) ()
          (((j :: js).map argOf).zipIdx 1)) (r, some es) ↔
            Each ctx (fun _ => some .value) 0 (j :: js) es := by
        intro r es
        rw [clean_sweep (adds_checkIn (adds_argOf _) _ 1)]
        exact steps_checkIn (i := 0) _ 1 fun _ => rfl
      refine (clean_bind fun _ => adds_pure _).trans ⟨?_, ?_⟩
      · rintro ⟨⟨_, checked⟩, h, heq⟩
        obtain ⟨es, rfl, rfl⟩ := Option.map_eq_some_iff.1 (clean_pure.1 heq)
        exact ⟨by simp, es, (hsteps _ _).1 h, rfl⟩
      · rintro ⟨_, es, h, rfl⟩
        exact ⟨((), some es), (hsteps _ _).2 h, clean_pure.2 rfl⟩

/-- The item type, the length and the input that an array assertion is written with. -/
def arrayParts? : List Json → Option (Ty × Option Nat × Json)
  | [input] => some (.value, none, input)
  | [item, input] => (itemTy? item).map fun item => (item, none, input)
  | [item, len, input] =>
    (itemTy? item).bind fun item => (length? len).map fun len => (item, some len, input)
  | _ => none

theorem length?_ofNat (n : Nat) : length? (.ofNat n) = if 0 < n then some n else none := by
  simp [length?, Json.ofNat, Number.natural?, Option.filter]

theorem clean_arrayOf {item : Ty} {len : Option Nat} {input : Json} {i : Nat} {ctx : Context}
    {e : Expr} : Clean (arrayOf item len (argOf input) i ctx) (some e) ↔
      ∃ d, Elaborates (ctx.child i (some .value)) input d ∧
        e = .assertion ctx.path (.array item len) [d] := by
  rw [arrayOf, clean_map]
  constructor
  · rintro ⟨d, h, rfl⟩
    exact ⟨d, h, rfl⟩
  · rintro ⟨d, h, rfl⟩
    exact ⟨d, h, rfl⟩

theorem clean_arrayAssertion {js : List Json} {ctx : Context} {e : Expr} :
    Clean (arrayAssertion (js.map argOf) ctx) (some e) ↔
      ∃ item len input, arrayParts? js = some (item, len, input) ∧
        ∃ d, Elaborates (ctx.child js.length (some .value)) input d ∧
          e = .assertion ctx.path (.array item len) [d] := by
  match js with
  | [] => simp [arrayAssertion, arrayParts?]
  | [input] =>
      simp only [List.map_cons, List.map_nil, arrayAssertion, clean_arrayOf, arrayParts?,
        Option.some.injEq, Prod.mk.injEq]
      constructor
      · rintro ⟨d, h⟩
        exact ⟨_, _, _, ⟨rfl, rfl, rfl⟩, d, h⟩
      · rintro ⟨_, _, _, ⟨rfl, rfl, rfl⟩, d, h⟩
        exact ⟨d, h⟩
  | [item, input] =>
      simp only [List.map_cons, List.map_nil, arrayAssertion, arrayParts?, argOf]
      cases itemTy? item with
      | none => simp
      | some item =>
          simp only [Option.map_some, Option.some.injEq, Prod.mk.injEq]
          refine clean_arrayOf.trans ⟨?_, ?_⟩
          · rintro ⟨d, h⟩
            exact ⟨_, _, _, ⟨rfl, rfl, rfl⟩, d, h⟩
          · rintro ⟨_, _, _, ⟨rfl, rfl, rfl⟩, d, h⟩
            exact ⟨d, h⟩
  | [item, len, input] =>
      simp only [List.map_cons, List.map_nil, arrayAssertion, arrayParts?, argOf]
      cases itemTy? item with
      | none => simp
      | some item =>
          cases length? len with
          | none => simp
          | some len =>
              simp only [Option.map_some, Option.bind_some, Option.some.injEq, Prod.mk.injEq]
              refine clean_arrayOf.trans ⟨?_, ?_⟩
              · rintro ⟨d, h⟩
                exact ⟨_, _, _, ⟨rfl, rfl, rfl⟩, d, h⟩
              · rintro ⟨_, _, _, ⟨rfl, rfl, rfl⟩, d, h⟩
                exact ⟨d, h⟩
  | _ :: _ :: _ :: _ :: _ => simp [arrayAssertion, arrayParts?]

/-! ## Calls -/

theorem clean_withSignature {fn : Builtin} {signature : Signature} {js : List Json} {ctx : Context}
    {e : Expr} : Clean (withSignature fn signature (js.map argOf) ctx) (some e) ↔
      ∃ es, Each ctx (fun i => some (signature.param i)) 0 js es ∧ e = callOf fn es ctx := by
  have hsteps : ∀ es, Clean (arguments (js.map argOf) (fun i => some (signature.param i)) ctx)
      (es.map some) ↔ Each ctx (fun i => some (signature.param i)) 0 js es := by
    intro es
    have hadds := adds_checkIn (adds_argOf js)
      (fun i => ctx.child (i + 1) (some (signature.param i))) 0
    refine Iff.trans ?_ (steps_checkIn (i := 0)
      (fun i => ctx.child (i + 1) (some (signature.param i))) 0 fun _ => rfl)
    refine (clean_bind fun _ => adds_pure _).trans ⟨?_, ?_⟩
    · rintro ⟨⟨_, checked⟩, h, heq⟩
      cases clean_pure.1 heq
      exact (clean_along hadds).1 h
    · intro h
      exact ⟨_, (clean_along hadds).2 h, clean_pure.2 rfl⟩
  rw [withSignature, clean_bind fun _ => adds_pure _]
  constructor
  · rintro ⟨checked, h, heq⟩
    obtain ⟨es, hes, rfl⟩ := Option.map_eq_some_iff.1 (clean_pure.1 heq)
    rw [allOf_eq_some.1 hes, hsteps] at h
    exact ⟨es, h, rfl⟩
  · rintro ⟨es, h, rfl⟩
    refine ⟨es.map some, (hsteps es).2 h, ?_⟩
    rw [clean_pure, allOf_eq_some.2 rfl]
    rfl

/-- Arguments check against a signature that takes as many. -/
def FitsSignature (ctx : Context) (js : List Json) (signature : Signature) : Prop :=
  signature.takes js.length = true ∧ ∃ es, Each ctx (fun i => some (signature.param i)) 0 js es

/-- The first signature of a list that arguments check against, with what they check to. -/
def FirstSignature (ctx : Context) (js : List Json) (signatures : List Signature)
    (signature : Signature) (es : List Expr) : Prop :=
  ∃ earlier later, signatures = earlier ++ signature :: later ∧
    (∀ s ∈ earlier, ¬ FitsSignature ctx js s) ∧ signature.takes js.length = true ∧
    Each ctx (fun i => some (signature.param i)) 0 js es

theorem firstSignature_cons {ctx : Context} {js : List Json} {head signature : Signature}
    {signatures : List Signature} {es : List Expr} :
    FirstSignature ctx js (head :: signatures) signature es ↔
      (signature = head ∧ head.takes js.length = true ∧
        Each ctx (fun i => some (head.param i)) 0 js es) ∨
      (¬ FitsSignature ctx js head ∧ FirstSignature ctx js signatures signature es) := by
  constructor
  · rintro ⟨earlier, later, hsplit, hearlier, htakes, heach⟩
    cases earlier with
    | nil =>
        cases hsplit
        exact .inl ⟨rfl, htakes, heach⟩
    | cons s earlier =>
        cases hsplit
        obtain ⟨hhead, hearlier⟩ := List.forall_mem_cons.1 hearlier
        exact .inr ⟨hhead, earlier, later, rfl, hearlier, htakes, heach⟩
  · rintro (⟨rfl, htakes, heach⟩ | ⟨hhead, earlier, later, rfl, hearlier, htakes, heach⟩)
    · exact ⟨[], signatures, rfl, by simp, htakes, heach⟩
    · exact ⟨head :: earlier, later, rfl, List.forall_mem_cons.2 ⟨hhead, hearlier⟩, htakes, heach⟩

theorem clean_firstFitting {fn : Builtin} {js : List Json} {ctx : Context} {e : Expr}
    {signatures : List Signature} :
    Clean (firstFitting fn (js.map argOf) ctx signatures) (some e) ↔
      ∃ signature es, FirstSignature ctx js signatures signature es ∧ e = callOf fn es ctx := by
  induction signatures with
  | nil =>
      constructor
      · intro h
        cases clean_pure.1 h
      · rintro ⟨_, _, ⟨earlier, _, hsplit, _⟩, _⟩
        cases earlier <;> cases hsplit
  | cons head rest ih =>
      rw [firstFitting]
      by_cases htakes : head.takes js.length = true
      · rw [List.length_map, if_pos htakes, clean_bind fun r => by
          split
          · exact adds_pure _
          · exact adds_firstFitting _ _ _ _]
        constructor
        · rintro ⟨r, hr, h⟩
          rw [clean_apart] at hr
          split at h
          · cases clean_pure.1 h
            obtain ⟨es, heach, rfl⟩ := clean_withSignature.1 hr
            exact ⟨head, es, firstSignature_cons.2 (.inl ⟨rfl, htakes, heach⟩), rfl⟩
          · rename_i hne
            obtain ⟨signature, es, hfirst, rfl⟩ := ih.1 h
            refine ⟨signature, es, firstSignature_cons.2 (.inr ⟨?_, hfirst⟩), rfl⟩
            rintro ⟨_, ds, heach⟩
            exact hne _ (hr.symm.trans (clean_withSignature.2 ⟨ds, heach, rfl⟩))
        · rintro ⟨signature, es, hfirst, rfl⟩
          rcases firstSignature_cons.1 hfirst with ⟨rfl, _, heach⟩ | ⟨hhead, hfirst⟩
          · exact ⟨_, clean_apart.2 (clean_withSignature.2 ⟨es, heach, rfl⟩), clean_pure.2 rfl⟩
          · refine ⟨_, clean_apart.2 rfl, ?_⟩
            split
            · rename_i heq
              obtain ⟨ds, heach, _⟩ := clean_withSignature.1 heq
              exact absurd ⟨htakes, ds, heach⟩ hhead
            · exact ih.2 ⟨signature, es, hfirst, rfl⟩
      · rw [List.length_map, if_neg htakes, ih]
        constructor
        · rintro ⟨signature, es, hfirst, rfl⟩
          exact ⟨signature, es, firstSignature_cons.2 (.inr ⟨fun h => htakes h.1, hfirst⟩), rfl⟩
        · rintro ⟨signature, es, hfirst, rfl⟩
          rcases firstSignature_cons.1 hfirst with ⟨_, h, _⟩ | ⟨_, hfirst⟩
          · exact absurd h htakes
          · exact ⟨signature, es, hfirst, rfl⟩

theorem not_clean_noneFitting {fn : Builtin} {args : List Arg} {ctx : Context} {e : Expr} :
    ¬ Clean (noneFitting fn args ctx) (some e) := by
  intro h
  rw [noneFitting, clean_bind fun r => by
    split
    · exact adds_report _ _
    · exact (adds_add _).bind fun _ => adds_pure _] at h
  obtain ⟨r, _, h⟩ := h
  split at h
  · exact not_clean_report h
  · rw [clean_bind fun _ => adds_pure _] at h
    obtain ⟨_, _, h⟩ := h
    cases clean_pure.1 h

/-- A call takes the first signature that its arguments check against. -/
theorem clean_call {fn : Builtin} {js : List Json} {ctx : Context} {e : Expr} :
    Clean (call fn (js.map argOf) ctx) (some e) ↔
      ∃ signature es, FirstSignature ctx js fn.signatures signature es ∧
        e = callOf fn es ctx := by
  rw [call]
  split
  · rename_i only hsignatures
    rw [hsignatures, List.length_map]
    split
    · rename_i htakes
      rw [clean_withSignature]
      constructor
      · rintro ⟨es, heach, rfl⟩
        exact ⟨only, es, firstSignature_cons.2 (.inl ⟨rfl, htakes, heach⟩), rfl⟩
      · rintro ⟨signature, es, hfirst, rfl⟩
        rcases firstSignature_cons.1 hfirst with ⟨_, _, heach⟩ | ⟨_, earlier, _, hsplit, _⟩
        · exact ⟨es, heach, rfl⟩
        · cases earlier <;> cases hsplit
    · rename_i htakes
      refine iff_of_false not_clean_report ?_
      rintro ⟨signature, es, hfirst, rfl⟩
      rcases firstSignature_cons.1 hfirst with ⟨_, h, _⟩ | ⟨_, earlier, _, hsplit, _⟩
      · exact htakes h
      · cases earlier <;> cases hsplit
  · rw [← clean_firstFitting, clean_bind fun r => by
      cases r with
      | none => exact adds_noneFitting _ _ _
      | some e => exact adds_pure _]
    constructor
    · rintro ⟨r, hr, h⟩
      cases r with
      | none => exact absurd h not_clean_noneFitting
      | some d =>
          cases clean_pure.1 h
          exact hr
    · intro h
      exact ⟨some e, h, clean_pure.2 rfl⟩

/-! ## Outputs that share a type -/

theorem clean_coalesce {js : List Json} {ctx : Context} {e : Expr} :
    Clean (coalesce (js.map argOf) ctx) (some e) ↔
      ∃ shared es, Steps (fun shared (arg, i) => Arg.checkOutput arg ctx i shared) ctx.expected
        ((js.map argOf).zipIdx 1) shared es ∧ e = .coalesce ctx.path (shared.getD .null) es := by
  have hadds : ∀ a ∈ (js.map argOf).zipIdx 1, ∀ shared,
      Adds (Arg.checkOutput a.1 ctx a.2 shared) := fun a ha shared =>
    adds_checkOutput (adds_argOf js _ (List.fst_mem_of_mem_zipIdx ha)) _ _ _
  refine (clean_bind fun _ => adds_pure _).trans ⟨?_, ?_⟩
  · rintro ⟨⟨shared, checked⟩, h, heq⟩
    obtain ⟨es, rfl, rfl⟩ := Option.map_eq_some_iff.1 (clean_pure.1 heq)
    exact ⟨shared, es, (clean_sweep hadds).1 h, rfl⟩
  · rintro ⟨shared, es, h, rfl⟩
    exact ⟨(shared, some es), (clean_sweep hadds).2 h, clean_pure.2 rfl⟩

/-! ## Branches -/

/-- The label that a document writes. -/
def labelOf? : Json → Option Label
  | .str s => some (.string s)
  | .num n =>
    if maxSafeInteger < n.toFloat.abs then none
    else if isWhole n.toFloat then some (.number n.toFloat)
    else none
  | _ => none

theorem clean_label {j : Json} {i : Nat} {ctx : Context} {l : Label} :
    Clean (label j i ctx) (some l) ↔ labelOf? j = some l := by
  unfold label labelOf?
  split
  · simp
  · dsimp only
    split
    · simp
    · split <;> simp
  · simp

/-- The labels of a branch: the items of an array, or a single one. -/
def labelItems : Json → List Json
  | .arr items => items
  | j => [j]

theorem branchLabels_argOf (j : Json) : branchLabels (argOf j) = labelItems j := by
  cases j <;> rfl

/-- A label is of the type of the earlier ones and none of them has its text. -/
def LabelsSeen.Takes (seen : LabelsSeen) (l : Label) : Prop :=
  seen.ty.getD l.ty = l.ty ∧ seen.table.has l.text = false

/-- What is known of the labels after one more, of the branch `branch`. -/
def LabelsSeen.add (branch : Nat) (seen : LabelsSeen) (l : Label) : LabelsSeen :=
  ⟨some l.ty, seen.table.insert l.text branch⟩

/-- Labels may all follow one another in the branch `branch`. -/
def LabelsSeen.TakesAll (branch : Nat) : LabelsSeen → List Label → Prop
  | _, [] => True
  | seen, l :: ls => seen.Takes l ∧ TakesAll branch (seen.add branch l) ls

theorem clean_nextLabel {ctx : Context} {branch i : Nat} {seen last : LabelsSeen} {j : Json}
    {l : Label} : Clean (nextLabel ctx branch i seen j) (last, some l) ↔
      labelOf? j = some l ∧ seen.Takes l ∧ last = seen.add branch l := by
  have hreport : ∀ (s : LabelsSeen) (c : Complaint),
      ¬ Clean (do pure (s, ← ctx.reportAt (α := Label) [i] c)) (last, some l) := by
    intro s c h
    obtain ⟨_, h, _⟩ := (clean_bind fun _ => adds_pure _).1 h
    exact not_clean_reportAt h
  refine (clean_bind fun r => ?_).trans ⟨?_, ?_⟩
  · cases r with
    | none => exact adds_pure _
    | some m =>
        dsimp only
        split
        · exact (adds_reportAt _ _ _).bind fun _ => adds_pure _
        · split
          · exact (adds_reportAt _ _ _).bind fun _ => adds_pure _
          · exact adds_pure _
  · rintro ⟨r, hr, h⟩
    cases r with
    | none => cases (Prod.mk.inj (clean_pure.1 h)).2
    | some m =>
        dsimp only at h
        split at h
        · exact absurd h (hreport _ _)
        · rename_i hty
          split at h
          · exact absurd h (hreport _ _)
          · rename_i htext
            obtain ⟨hlast, hm⟩ := Prod.mk.inj (clean_pure.1 h)
            obtain rfl := Option.some.inj hm
            have hty : seen.ty.getD m.ty = m.ty := Decidable.not_not.1 hty
            rw [hty] at hlast
            exact ⟨clean_label.1 hr, ⟨hty, Bool.not_eq_true _ ▸ htext⟩, hlast.symm⟩
  · rintro ⟨hj, ⟨hty, htext⟩, rfl⟩
    refine ⟨some l, clean_label.2 hj, ?_⟩
    simp [hty, htext, LabelsSeen.add]

theorem steps_nextLabel {ctx : Context} {branch i : Nat} {last : LabelsSeen} :
    ∀ {js : List Json} {seen : LabelsSeen} {ls : List Label},
      Steps (nextLabel ctx branch i) seen js last ls ↔
        js.map labelOf? = ls.map some ∧ seen.TakesAll branch ls ∧
          last = ls.foldl (LabelsSeen.add branch) seen
  | [], seen, ls => by
      constructor
      · rintro ⟨⟩
        exact ⟨rfl, trivial, rfl⟩
      · rintro ⟨h, _, rfl⟩
        cases ls with
        | nil => exact .nil _
        | cons => cases h
  | j :: js, seen, ls => by
      constructor
      · rintro (_ | ⟨hj, hjs⟩)
        obtain ⟨hlabel, htakes, rfl⟩ := clean_nextLabel.1 hj
        obtain ⟨hlabels, hall, rfl⟩ := steps_nextLabel.1 hjs
        refine ⟨?_, ⟨htakes, hall⟩, rfl⟩
        rw [List.map_cons, List.map_cons, hlabel, hlabels]
      · rintro ⟨h, hall, rfl⟩
        cases ls with
        | nil => cases h
        | cons l ls =>
            obtain ⟨hj, hjs⟩ := List.cons.inj h
            exact .cons (clean_nextLabel.2 ⟨hj, hall.1, rfl⟩)
              (steps_nextLabel.2 ⟨hjs, hall.2, rfl⟩)

theorem clean_nextBranch {ctx : Context} {seen last : BranchesSeen} {labels output : Json}
    {k : Nat} {ls : List Label} {e : Expr} :
    Clean (nextBranch ctx seen ((argOf labels, argOf output), k)) (last, some (ls, e)) ↔
      labelItems labels ≠ [] ∧ (labelItems labels).map labelOf? = ls.map some ∧
        seen.labels.TakesAll k ls ∧ Elaborates (ctx.child (2 * k + 3) seen.shared) output e ∧
        last = ⟨ls.foldl (LabelsSeen.add k) seen.labels, learn seen.shared e⟩ := by
  have hlabels : ∀ j ∈ labelItems labels, ∀ s, Adds (nextLabel ctx k (2 * k + 2) s j) :=
    fun j _ s => adds_nextLabel _ _ _ s j
  have hcheck := adds_checkOutput (adds_arg output) ctx (2 * k + 3)
  rw [nextBranch]
  dsimp only
  rw [branchLabels_argOf]
  split
  · rename_i hempty
    refine iff_of_false ?_ fun h => h.1 (List.isEmpty_iff.1 hempty)
    intro h
    obtain ⟨_, h, _⟩ := (clean_bind fun _ => adds_pure _).1 h
    exact not_clean_reportAt h
  · rename_i hempty
    have hne : labelItems labels ≠ [] := fun h => hempty (List.isEmpty_iff.2 h)
    refine (clean_bind₂ (fun _ => hcheck _) fun found checked => ?_).trans ⟨?_, ?_⟩
    · split <;> exact adds_pure _
    · rintro ⟨⟨known, r⟩, ⟨shared, s⟩, hls, he, h⟩
      dsimp only at h
      split at h
      · obtain ⟨hlast, heq⟩ := Prod.mk.inj (clean_pure.1 h)
        cases heq
        obtain ⟨hj, hall, rfl⟩ := steps_nextLabel.1 ((clean_sweep hlabels).1 hls)
        obtain ⟨helaborates, rfl⟩ := clean_checkOutput.1 he
        exact ⟨hne, hj, hall, helaborates, hlast.symm⟩
      · cases (Prod.mk.inj (clean_pure.1 h)).2
    · rintro ⟨_, hj, hall, he, rfl⟩
      exact ⟨(_, some ls), (_, some e),
        (clean_sweep hlabels).2 (steps_nextLabel.2 ⟨hj, hall, rfl⟩),
        clean_checkOutput.2 ⟨he, rfl⟩, clean_pure.2 rfl⟩

def argPairs (pairs : List (Json × Json)) : List (Arg × Arg) := pairs.map (Prod.map argOf argOf)

theorem exists_of_mem_argPairs {pairs : List (Json × Json)} {k : Nat} {a : (Arg × Arg) × Nat}
    (h : a ∈ (argPairs pairs).zipIdx k) :
    ∃ p ∈ pairs, ∃ i, a = ((argOf p.1, argOf p.2), i) := by
  obtain ⟨p, hp, hpa⟩ := List.mem_map.1 (List.fst_mem_of_mem_zipIdx h)
  exact ⟨p, hp, a.2, Prod.ext hpa.symm rfl⟩

/-- The second parts of pairs of documents only add. -/
theorem adds_snd {pairs : List (Json × Json)} {k : Nat} {a : (Arg × Arg) × Nat}
    (h : a ∈ (argPairs pairs).zipIdx k) : a.1.2.Adds := by
  obtain ⟨p, _, hp⟩ := List.mem_map.1 (List.fst_mem_of_mem_zipIdx h)
  rw [← hp]
  exact adds_arg p.2

theorem clean_select {js : List Json} {ctx : Context} {e : Expr} :
    Clean (select (js.map argOf) ctx) (some e) ↔
      4 ≤ js.length ∧ ∃ input rest branches last, js = input :: rest ∧
        inPairs rest = (branches, some last) ∧ ∃ seen checked d otherwise inputTy,
          Steps (nextBranch ctx) ⟨⟨none, []⟩, ctx.expected⟩ (argPairs branches).zipIdx seen
            checked ∧
          seen.labels.ty = some inputTy ∧
          Elaborates (ctx.child 1 (some inputTy)) input d ∧
          Elaborates (ctx.child js.length seen.shared) last otherwise ∧
          e = .select ctx.path (seen.shared.getD otherwise.ty) inputTy d seen.labels.table
            (checked.map (·.1)) (checked.map (·.2)) otherwise := by
  simp only [select]
  rw [List.length_map]
  by_cases hlen : js.length < 4
  · rw [if_pos hlen]
    exact iff_of_false not_clean_report fun h => by omega
  · rw [if_neg hlen]
    cases js with
    | nil => exact absurd (by decide) hlen
    | cons input rest =>
        simp only [List.map_cons, inPairs_map]
        generalize hpairs : inPairs rest = pairs
        obtain ⟨branches, extra⟩ := pairs
        cases extra with
        | none =>
            refine iff_of_false not_clean_report ?_
            rintro ⟨_, _, _, _, _, heq, h, _⟩
            cases heq
            rw [hpairs] at h
            cases h
        | some last =>
            have hsteps : ∀ a ∈ (argPairs branches).zipIdx, ∀ s, Adds (nextBranch ctx s a) :=
              fun a ha s => adds_nextBranch (adds_snd ha) _ _ _ _
            have hlast : ∀ c, Adds (check last c) := adds_check last
            have hinput : ∀ c, Adds (check input c) := adds_check input
            refine (clean_bind₃ (fun _ => hinput _) (fun _ _ => hlast _) fun found d o => ?_).trans
              ⟨?_, ?_⟩
            · split <;> exact adds_pure _
            · rintro ⟨⟨seen, checked⟩, d, o, hbranches, hd, ho, h⟩
              dsimp only at hd ho h
              split at h
              · rename_i hty
                rw [hty] at hd
                cases clean_pure.1 h
                exact ⟨by omega, input, rest, branches, last, rfl, hpairs, seen, _, _, _, _,
                  (clean_sweep hsteps).1 hbranches, hty, hd, ho, rfl⟩
              · cases clean_pure.1 h
            · rintro ⟨_, _, _, branches', last', heq, hp, seen, checked, d, o, inputTy, hbranches,
                hty, hd, ho, rfl⟩
              cases heq
              rw [hpairs] at hp
              cases hp
              refine ⟨(seen, some checked), some d, some o, (clean_sweep hsteps).2 hbranches, ?_,
                ho, ?_⟩
              · dsimp only
                rw [hty]
                exact hd
              · simp only [hty, clean_pure]

/-! ## Stops -/

/-- A document describes an interpolation. -/
inductive Describes : Json → Interpolation → Prop
  | step (parameters : List Json) : Describes (.arr (.str "step" :: parameters)) .step
  | linear (parameters : List Json) : Describes (.arr (.str "linear" :: parameters)) .linear
  | exponential {parameters : List Json} {base : Float} :
      parameters.head?.bind Json.num? = some base →
      Describes (.arr (.str "exponential" :: parameters)) (.exponential base)
  | cubicBezier {a b c d : Json} {x1 y1 x2 y2 : Float} :
      ([a, b, c, d].filterMap Json.num?).filter (inRange 0 1) = [x1, y1, x2, y2] →
      Describes (.arr [.str "cubic-bezier", a, b, c, d]) (.cubicBezier ⟨x1, y1, x2, y2⟩)

theorem str?_eq_some {j : Json} {s : String} : j.str? = some s ↔ j = .str s := by
  cases j <;> simp [Json.str?]

theorem clean_interpolation {j : Json} {ctx : Context} {kind : Interpolation} :
    Clean (interpolation j ctx) (some kind) ↔ Describes j kind := by
  constructor
  · intro h
    simp only [interpolation] at h
    split at h
    · rename_i name parameters
      simp only [interpolationOf] at h
      split at h
      · rename_i hname
        cases clean_pure.1 h
        cases str?_eq_some.1 hname
        exact .step _
      · rename_i hname
        cases clean_pure.1 h
        cases str?_eq_some.1 hname
        exact .linear _
      · rename_i hname
        cases str?_eq_some.1 hname
        split at h
        · rename_i hbase
          cases clean_pure.1 h
          exact .exponential hbase
        · exact absurd h not_clean_reportAt
      · rename_i hname
        cases str?_eq_some.1 hname
        generalize hpoints : (parameters.filterMap Json.num?).filter (inRange 0 1) = points at h
        split at h
        · cases clean_pure.1 h
          exact .cubicBezier hpoints
        · exact absurd h not_clean_reportAt
      · exact absurd h not_clean_reportAt
    · exact absurd h not_clean_reportAt
  · intro h
    cases h with
    | step => exact clean_pure.2 rfl
    | linear => exact clean_pure.2 rfl
    | exponential hbase =>
        simp only [interpolation, interpolationOf, Json.str?, hbase]
        exact clean_pure.2 rfl
    | cubicBezier hpoints =>
        simp only [interpolation, interpolationOf, Json.str?, hpoints]
        exact clean_pure.2 rfl

theorem Describes.unique {j : Json} {kind kind' : Interpolation} (h : Describes j kind)
    (h' : Describes j kind') : kind = kind' := by
  have hclean : Clean (interpolation j (.root none .standard)) (some kind) :=
    clean_interpolation.2 h
  exact Option.some.inj (hclean.unique (clean_interpolation.2 h'))

/-- A number can be the label of a stop: it is no larger than the safe integers, and above the
label before it. -/
def StopFollows (before : Option Float) (x : Float) : Prop :=
  ¬ maxSafeInteger < x.abs ∧ before.any (fun last => x ≤ last) = false

theorem clean_nextStop {ctx : Context} {seen last : StopsSeen} {label output : Json} {k : Nat}
    {x : Float} {e : Expr} :
    Clean (nextStop ctx seen ((argOf label, argOf output), k)) (last, some (x, e)) ↔
      label.num? = some x ∧ StopFollows seen.last x ∧
        Elaborates (ctx.child (2 * k + 4) seen.shared) output e ∧
        last = ⟨learn seen.shared e, some x⟩ := by
  have hreport : ∀ (s : StopsSeen) (c : Complaint),
      ¬ Clean (do pure (s, ← ctx.reportAt (α := Float × Expr) [2 * k + 3] c))
        (last, some (x, e)) := by
    intro s c h
    obtain ⟨_, h, _⟩ := (clean_bind fun _ => adds_pure _).1 h
    exact not_clean_reportAt h
  rw [nextStop, StopFollows]
  dsimp only [argOf]
  cases label.num? with
  | none => exact iff_of_false (hreport _ _) (fun h => by cases h.1)
  | some y =>
      dsimp only
      split
      · rename_i hlarge
        refine iff_of_false (hreport _ _) ?_
        rintro ⟨heq, ⟨hsmall, _⟩, _⟩
        cases heq
        exact hsmall hlarge
      · rename_i hsmall
        split
        · rename_i hbefore
          refine iff_of_false (hreport _ _) ?_
          rintro ⟨heq, ⟨_, habove⟩, _⟩
          cases heq
          rw [habove] at hbefore
          cases hbefore
        · rename_i habove
          rw [clean_bind fun r => by
            obtain ⟨shared, r⟩ := r
            cases r <;> exact adds_pure _]
          constructor
          · rintro ⟨⟨shared, r⟩, hr, h⟩
            cases r with
            | none => cases (Prod.mk.inj (clean_pure.1 h)).2
            | some d =>
                obtain ⟨hlast, heq⟩ := Prod.mk.inj (clean_pure.1 h)
                cases heq
                obtain ⟨hd, rfl⟩ := clean_checkOutput.1 hr
                exact ⟨rfl, ⟨hsmall, Bool.not_eq_true _ ▸ habove⟩, hd, hlast.symm⟩
          · rintro ⟨heq, _, he, rfl⟩
            cases heq
            exact ⟨(_, some e), clean_checkOutput.2 ⟨he, rfl⟩, clean_pure.2 rfl⟩

theorem clean_curveOf {ctx : Context} {kind : Interpolation} {input e : Expr} {ty : Ty}
    {stops : List (Float × Expr)} : Clean (curveOf ctx kind input ty stops) (some e) ↔
      (kind.isStep || ctx.interpolators.supports ty) = true ∧
        e = .curve ctx.path ty kind input (stops.map (·.1)) (stops.map (·.2)) := by
  rw [curveOf]
  split
  · rename_i h
    simp [h, eq_comm]
  · rename_i h
    simp [h]

theorem clean_curve {js : List Json} {ctx : Context} {e : Expr} :
    Clean (curve (js.map argOf) ctx) (some e) ↔
      4 ≤ js.length ∧ ∃ description input rest stops, js = description :: input :: rest ∧
        inPairs rest = (stops, none) ∧ ∃ kind d seen checked, Describes description kind ∧
          Elaborates (ctx.child 2 (some .number)) input d ∧
          Steps (nextStop ctx) ⟨ctx.expected, none⟩ (argPairs stops).zipIdx seen checked ∧
          (kind.isStep || ctx.interpolators.supports (seen.shared.getD .null)) = true ∧
          e = .curve ctx.path (seen.shared.getD .null) kind d (checked.map (·.1))
            (checked.map (·.2)) := by
  simp only [curve]
  rw [List.length_map]
  by_cases hlen : js.length < 4
  · rw [if_pos hlen]
    exact iff_of_false not_clean_report fun h => by omega
  · rw [if_neg hlen]
    match js with
    | [] => exact absurd (by decide) hlen
    | [_] => exact absurd (by simp) hlen
    | description :: input :: rest =>
        simp only [List.map_cons, inPairs_map]
        generalize hpairs : inPairs rest = pairs
        obtain ⟨stops, extra⟩ := pairs
        cases extra with
        | some last =>
            refine iff_of_false not_clean_report ?_
            rintro ⟨_, _, _, _, _, heq, h, _⟩
            cases heq
            rw [hpairs] at h
            cases h
        | none =>
            have hsteps : ∀ a ∈ (argPairs stops).zipIdx, ∀ s, Adds (nextStop ctx s a) :=
              fun a ha s => adds_nextStop (adds_snd ha) _ _ _ _
            have hinput : ∀ c, Adds (check input c) := adds_check input
            refine (clean_bind₃ (fun _ => hinput _) (fun _ _ => adds_sweep hsteps _)
              fun kind d found => ?_).trans ⟨?_, ?_⟩
            · split
              · exact adds_curveOf _ _ _ _ _
              · exact adds_pure _
            · rintro ⟨kind, d, ⟨seen, checked⟩, hkind, hd, hstops, h⟩
              dsimp only at h
              split at h
              · obtain ⟨hblend, rfl⟩ := clean_curveOf.1 h
                exact ⟨by omega, description, input, rest, stops, rfl, hpairs, _, _, seen, _,
                  clean_interpolation.1 hkind, hd, (clean_sweep hsteps).1 hstops, hblend, rfl⟩
              · cases clean_pure.1 h
            · rintro ⟨_, _, _, _, stops', heq, hp, kind, d, seen, checked, hkind, hd, hstops,
                hblend, rfl⟩
              cases heq
              rw [hpairs] at hp
              cases hp
              exact ⟨some kind, some d, (seen, some checked), clean_interpolation.2 hkind, hd,
                (clean_sweep hsteps).2 hstops, clean_curveOf.2 ⟨hblend, rfl⟩⟩

/-! ## Names -/

theorem clean_nextBinding {ctx : Context} {name value : Json} {k : Nat} {n : String} {e : Expr} :
    Clean (nextBinding ctx ((argOf name, argOf value), k)) (some (n, e)) ↔
      name = .str n ∧ isIdentifier n = true ∧
        Elaborates (ctx.child (2 * k + 2) none) value e := by
  rw [nextBinding]
  dsimp only [argOf]
  split
  · rename_i hname
    refine iff_of_false not_clean_reportAt ?_
    rintro ⟨rfl, hn, _⟩
    simp [Json.str?, hn] at hname
  · rename_i m hname
    obtain ⟨hstr, hm⟩ := Option.filter_eq_some_iff.1 hname
    cases str?_eq_some.1 hstr
    rw [clean_map]
    constructor
    · rintro ⟨d, hd, heq⟩
      cases heq
      exact ⟨rfl, hm, hd⟩
    · rintro ⟨heq, _, he⟩
      cases heq
      exact ⟨e, he, rfl⟩

/-- The step that checks a binding and learns nothing. -/
def bindIn (ctx : Context) (_ : Unit) (binding : (Arg × Arg) × Nat) :
    Reporting (Unit × Option (String × Expr)) := do pure ((), ← nextBinding ctx binding)

theorem clean_bindIn {ctx : Context} {name value : Json} {k : Nat} {n : String} {e : Expr} :
    Clean (bindIn ctx () ((argOf name, argOf value), k)) ((), some (n, e)) ↔
      name = .str n ∧ isIdentifier n = true ∧
        Elaborates (ctx.child (2 * k + 2) none) value e := by
  rw [← clean_nextBinding, bindIn, clean_bind fun _ => adds_pure _]
  constructor
  · rintro ⟨r, h, heq⟩
    cases clean_pure.1 heq
    exact h
  · intro h
    exact ⟨_, h, clean_pure.2 rfl⟩

theorem clean_letIn {js : List Json} {ctx : Context} {e : Expr} :
    Clean (letIn (js.map argOf) ctx) (some e) ↔
      3 ≤ js.length ∧ ∃ bindings last, inPairs js = (bindings, some last) ∧ ∃ bound body,
        Steps (bindIn ctx) () (argPairs bindings).zipIdx () bound ∧
        Elaborates (ctx.childWith js.length (bound.map fun (name, e) => (name, e.ty))) last body ∧
        e = .letIn ctx.path (bound.map (·.1)) (bound.map (·.2)) body := by
  rw [letIn]
  rw [List.length_map, inPairs_map]
  by_cases hlen : js.length < 3
  · rw [if_pos hlen]
    exact iff_of_false not_clean_report fun h => by omega
  · rw [if_neg hlen]
    generalize hpairs : inPairs js = pairs
    obtain ⟨bindings, extra⟩ := pairs
    cases extra with
    | none =>
        refine iff_of_false not_clean_report ?_
        rintro ⟨_, _, _, h, _⟩
        cases h
    | some last =>
        have hsteps : ∀ a ∈ (argPairs bindings).zipIdx, ∀ s, Adds (bindIn ctx s a) :=
          fun a ha _ => (adds_nextBinding (adds_snd ha) _ _ _).bind fun _ => adds_pure _
        refine (clean_bind fun found => ?_).trans ⟨?_, ?_⟩
        · dsimp only
          split
          · exact adds_pure _
          · exact (adds_check _ _).bind fun _ => adds_pure _
        · rintro ⟨⟨_, checked⟩, hbound, h⟩
          cases checked with
          | none => cases clean_pure.1 h
          | some bound =>
              obtain ⟨body, hbody, rfl⟩ := clean_map.1 h
              exact ⟨by omega, bindings, last, rfl, bound, body, (clean_sweep hsteps).1 hbound,
                hbody, rfl⟩
        · rintro ⟨_, _, _, heq, bound, body, hbound, hbody, rfl⟩
          cases heq
          exact ⟨((), some bound), (clean_sweep hsteps).2 hbound, clean_map.2 ⟨body, hbody, rfl⟩⟩

theorem clean_var {js : List Json} {ctx : Context} {e : Expr} :
    Clean (var (js.map argOf) ctx) (some e) ↔
      ∃ name ty, js = [.str name] ∧ ctx.scope.lookup name = some ty ∧
        e = .var ctx.path ty name := by
  match js with
  | [] => simp [var]
  | [j] =>
      simp only [List.map_cons, List.map_nil, var, argOf]
      cases hname : j.str? with
      | none =>
          refine iff_of_false not_clean_reportAt ?_
          rintro ⟨name, _, heq, _⟩
          cases heq
          cases hname
      | some name =>
          cases str?_eq_some.1 hname
          cases hty : ctx.scope.lookup name with
          | none => simp [hty]
          | some ty => simp [hty, eq_comm]
  | _ :: _ :: _ => simp [var]

/-! ## Documents -/

/-- A type is right where another one, or nothing, is expected. -/
def Admits (expected : Option Ty) (t : Ty) : Prop :=
  ∀ wanted, expected = some wanted → t = .null ∨ wanted.accepts t = true

/-- A tree is brought in line with an expected type: kept if its type is right, else read as a color
or asserted to be of the type. -/
inductive Conforms (expected : Option Ty) (d : Expr) : Expr → Prop
  | kept : Admits expected d.ty → Conforms expected d d
  | colored : expected = some .color → ¬ Admits expected d.ty → d.ty = .value ∨ d.ty = .string →
      Conforms expected d (.call d.path .color .toColor [d])
  | asserted {wanted : Ty} : expected = some wanted → ¬ Admits expected d.ty → wanted ≠ .null →
      wanted ≠ .color → d.ty.accepts wanted = true →
      Conforms expected d (.assertion d.path wanted [d])

@[simp] theorem admits_none (t : Ty) : Admits none t := by
  intro wanted h
  cases h

@[simp] theorem admits_some {wanted t : Ty} :
    Admits (some wanted) t ↔ t = .null ∨ wanted.accepts t = true := by
  simp [Admits]

theorem conforms_of_clean {d e : Expr} {ctx : Context} (h : Clean (conform d ctx) (some e)) :
    Conforms ctx.expected d e := by
  rw [conform] at h
  revert h
  generalize ctx.expected = expected
  intro h
  cases expected with
  | none =>
      cases clean_pure.1 h
      exact .kept (admits_none _)
  | some t =>
      dsimp only at h
      by_cases hfit : d.ty = .null ∨ t.accepts d.ty = true
      · rw [if_pos hfit] at h
        cases clean_pure.1 h
        exact .kept (admits_some.2 hfit)
      · have hnot : ¬ Admits (some t) d.ty := fun h => hfit (admits_some.1 h)
        rw [if_neg hfit] at h
        by_cases hcolor : t = .color ∧ (d.ty = .value ∨ d.ty = .string)
        · rw [if_pos hcolor] at h
          cases clean_pure.1 h
          exact .colored (by rw [hcolor.1]) hnot hcolor.2
        · rw [if_neg hcolor] at h
          by_cases hassert : t ≠ .null ∧ t ≠ .color ∧ d.ty.accepts t = true
          · rw [if_pos hassert] at h
            cases clean_pure.1 h
            exact .asserted rfl hnot hassert.1 hassert.2.1 hassert.2.2
          · rw [if_neg hassert] at h
            exact absurd h not_clean_report

theorem clean_of_conforms {d e : Expr} {ctx : Context} (h : Conforms ctx.expected d e) :
    Clean (conform d ctx) (some e) := by
  rw [conform]
  revert h
  generalize ctx.expected = expected
  intro h
  cases h with
  | kept hadmits =>
      cases expected with
      | none => exact clean_pure.2 rfl
      | some t =>
          dsimp only
          rw [if_pos (admits_some.1 hadmits)]
          exact clean_pure.2 rfl
  | colored hcolor hnot hty =>
      subst hcolor
      dsimp only
      rw [if_neg fun h => hnot (admits_some.2 h), if_pos ⟨rfl, hty⟩]
      exact clean_pure.2 rfl
  | asserted hwanted hnot hnull hne haccepts =>
      subst hwanted
      dsimp only
      rw [if_neg fun h => hnot (admits_some.2 h), if_neg fun h => hne h.1,
        if_pos ⟨hnull, hne, haccepts⟩]
      exact clean_pure.2 rfl

theorem clean_conform {d e : Expr} {ctx : Context} :
    Clean (conform d ctx) (some e) ↔ Conforms ctx.expected d e :=
  ⟨conforms_of_clean, clean_of_conforms⟩

theorem clean_settled {p : Context → Reporting (Option Expr)} {ctx : Context} {e : Expr} :
    Clean (settled p ctx) (some e) ↔
      ∃ d, Clean (p ctx) (some d) ∧ Conforms ctx.expected d e := by
  refine (clean_bind fun r => ?_).trans ⟨?_, ?_⟩
  · cases r with
    | none => exact adds_pure _
    | some d => exact adds_conform d ctx
  · rintro ⟨r, hr, h⟩
    cases r with
    | none => cases clean_pure.1 h
    | some d => exact ⟨d, hr, clean_conform.1 h⟩
  · rintro ⟨d, hd, h⟩
    exact ⟨some d, hd, clean_conform.2 h⟩

/-- A document other than an array or an object is checked as a scalar. -/
def IsScalar : Json → Prop
  | .arr _ => False
  | .obj _ => False
  | _ => True

theorem elaborates_scalar {j : Json} (hj : IsScalar j) {ctx : Context} {e : Expr} :
    Elaborates ctx j e ↔ ∃ d, Clean (scalar j ctx) (some d) ∧ Conforms ctx.expected d e := by
  cases j with
  | null => exact clean_settled
  | bool b => exact clean_settled
  | num n => exact clean_settled
  | str s => exact clean_settled
  | arr items => cases hj
  | obj fields => cases hj

/-- The forms that names begin. -/
inductive IsForm : Form → Prop
  | literal : IsForm literal
  | coalesce : IsForm coalesce
  | select : IsForm select
  | curve : IsForm curve
  | letIn : IsForm letIn
  | var : IsForm var
  | assertion {ty : Ty} : ty = .number ∨ ty = .string ∨ ty = .boolean ∨ ty = .object →
      IsForm (assertion ty)
  | arrayAssertion : IsForm arrayAssertion
  | call (fn : Builtin) : IsForm (call fn)

theorem isForm {name : String} {form : Form} (h : form? name = some form) : IsForm form := by
  simp only [form?] at h
  split at h
  · exact Option.some.inj h ▸ .literal
  · exact Option.some.inj h ▸ .coalesce
  · exact Option.some.inj h ▸ .select
  · exact Option.some.inj h ▸ .curve
  · exact Option.some.inj h ▸ .letIn
  · exact Option.some.inj h ▸ .var
  · exact Option.some.inj h ▸ .assertion (.inl rfl)
  · exact Option.some.inj h ▸ .assertion (.inr (.inl rfl))
  · exact Option.some.inj h ▸ .assertion (.inr (.inr (.inl rfl)))
  · exact Option.some.inj h ▸ .assertion (.inr (.inr (.inr rfl)))
  · exact Option.some.inj h ▸ .arrayAssertion
  · obtain ⟨fn, _, rfl⟩ := Option.map_eq_some_iff.1 h
    exact .call fn

theorem elaborates_arr {items : List Json} {ctx : Context} {e : Expr} :
    Elaborates ctx (.arr items) e ↔
      ∃ name js form d, items = .str name :: js ∧ form? name = some form ∧
        Clean (form (js.map argOf) ctx) (some d) ∧ Conforms ctx.expected d e := by
  have happlied : ∀ d, Clean (applied (checks items) ctx) (some d) ↔
      ∃ name js form, items = .str name :: js ∧ form? name = some form ∧
        Clean (form (js.map argOf) ctx) (some d) := by
    intro d
    rw [checks_eq_map]
    simp only [applied]
    cases items with
    | nil => exact iff_of_false not_clean_report (by rintro ⟨_, _, _, h, _⟩; cases h)
    | cons j js =>
        simp only [List.map_cons, argOf]
        cases hname : j.str? with
        | none =>
            refine iff_of_false not_clean_reportAt ?_
            rintro ⟨_, _, _, h, _⟩
            cases h
            cases hname
        | some name =>
            cases str?_eq_some.1 hname
            dsimp only
            cases hform : form? name with
            | none =>
                refine iff_of_false not_clean_reportAt ?_
                rintro ⟨_, _, _, h, hsome, _⟩
                cases h
                rw [hform] at hsome
                cases hsome
            | some form =>
                constructor
                · intro h
                  exact ⟨name, js, form, rfl, hform, h⟩
                · rintro ⟨_, _, _, h, hsome, hclean⟩
                  cases h
                  rw [hform] at hsome
                  cases hsome
                  exact hclean
  refine (clean_settled (p := applied (checks items))).trans ⟨?_, ?_⟩
  · rintro ⟨d, hd, h⟩
    obtain ⟨name, js, form, heq, hform, hclean⟩ := (happlied d).1 hd
    exact ⟨name, js, form, d, heq, hform, hclean, h⟩
  · rintro ⟨name, js, form, d, heq, hform, hclean, h⟩
    exact ⟨d, (happlied d).2 ⟨name, js, form, heq, hform, hclean⟩, h⟩

/-- A document that begins with the name of a form checks by that form. -/
theorem elaborates_named {name : String} {form : Form} (hform : form? name = some form)
    {js : List Json} {ctx : Context} {e : Expr} :
    Elaborates ctx (.call name js) e ↔
      ∃ d, Clean (form (js.map argOf) ctx) (some d) ∧ Conforms ctx.expected d e := by
  refine elaborates_arr.trans ⟨?_, ?_⟩
  · rintro ⟨_, _, _, d, heq, hsome, h⟩
    cases heq
    rw [hform] at hsome
    cases hsome
    exact ⟨d, h⟩
  · rintro ⟨d, h⟩
    exact ⟨name, js, form, d, rfl, hform, h⟩

/-- Every built-in function has a name of its own, which no other form begins with. -/
theorem form?_name (fn : Builtin) : form? fn.name = some (call fn) := by
  cases fn <;> rfl

theorem not_elaborates_obj {fields : List (String × Json)} {ctx : Context} {e : Expr} :
    ¬ Elaborates ctx (.obj fields) e := not_clean_report

end Typing
end MapStyle

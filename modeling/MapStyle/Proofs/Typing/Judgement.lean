/-
# `MapStyle.Proofs.Typing.Judgement` — what checking guarantees of a tree

`Expr.Formed` is the judgement that a tree stands rightly in a scope and against an expected type.
It speaks of the tree alone, not of the document or the path it came from, and it records everything
that checking ensures: the types of nodes, the order in which outputs learn their shared type, the
conditions on labels and stops, and that a call takes the first signature that its arguments fit.

`Elaborates.formed`: what checks without a diagnostic is formed.

Assertions and color coercions that checking inserts are nodes like any other.  This is sound
because only literals, names, assertions and calls are ever wrapped, and the conditions on these do
not depend on the expected type beyond their own type being right (`Standing.wrapped`).
-/
import MapStyle.Compiled
import MapStyle.Proofs.Typing.Refit
import MapStyle.Proofs.Decimal.Whole

namespace MapStyle

open Reporting Typing

/-! ## Parts of the judgement -/

/-- The shared type after some outputs. -/
def learnAll (shared : Option Ty) (es : List Expr) : Option Ty := es.foldl learn shared

theorem learnAll_some (t : Ty) (es : List Expr) : learnAll (some t) es = some t := by
  induction es with
  | nil => rfl
  | cons e es ih => exact ih

/-- The value of a literal: that of a document, or a valid color where one is expected. -/
def LiteralValue (expected : Option Ty) (v : Value) : Prop :=
  (∃ j, v = Value.ofJson j) ∨ (∃ c, v = .color c ∧ c.isValid = true ∧ expected = some .color)

/-- A number can be a label: it is whole and no larger than the safe integers. -/
def Label.WellFormed : Label → Prop
  | .number x => ¬ maxSafeInteger < x.abs ∧ isWhole x = true
  | .string _ => True

namespace Typing

/-- Branches may all follow one another, the first being the branch `k`. -/
def LabelsSeen.TakesBranches : Nat → LabelsSeen → List (List Label) → Prop
  | _, _, [] => True
  | k, seen, ls :: rest =>
    ls ≠ [] ∧ (∀ l ∈ ls, l.WellFormed) ∧ seen.TakesAll k ls ∧
      TakesBranches (k + 1) (ls.foldl (LabelsSeen.add k) seen) rest

/-- What is known after all labels of some branches. -/
def LabelsSeen.addBranches : Nat → LabelsSeen → List (List Label) → LabelsSeen
  | _, seen, [] => seen
  | k, seen, ls :: rest => addBranches (k + 1) (ls.foldl (LabelsSeen.add k) seen) rest

end Typing

/-- Finite numbers can be the labels of successive stops. -/
def StopsFollow : Option Float → List Float → Prop
  | _, [] => True
  | before, x :: xs => x.isFinite = true ∧ StopFollows before x ∧ StopsFollow (some x) xs

/-- The parameters are finite, and control points lie in the unit square. -/
def Interpolation.WellFormed : Interpolation → Prop
  | .step => True
  | .linear => True
  | .exponential base => base.isFinite = true
  | .cubicBezier p => ∀ x ∈ p.toList, x.isFinite = true ∧ inRange 0 1 x = true

/-- A type can be asserted of a number of inputs: of any but none, of one if it is an array. -/
def Assertable (t : Ty) (inputs : Nat) : Prop :=
  t ≠ .null ∧ t ≠ .color ∧ t ≠ .value ∧ 0 < inputs ∧ ∀ item len, t = .array item len → inputs = 1

/-- The scope of a body: the names with the types of their values, the last one innermost. -/
def bindTypes (names : List String) (values : List Expr) (scope : List (String × Ty)) :
    List (String × Ty) :=
  (names.zip (values.map Expr.ty)).reverse ++ scope

namespace Expr

mutual

/-- A tree stands rightly in a scope and against an expected type. -/
def Formed (interpolators : Interpolators) : Expr → List (String × Ty) → Option Ty → Prop
  | .literal _ t v, _, expected =>
    Admits expected t ∧ t = literalTy expected v ∧ LiteralValue expected v
  | .coalesce _ t args, scope, expected =>
    FormedOutputs interpolators args scope expected ∧ t = (learnAll expected args).getD .null
  | .select _ t inputTy input table labels outputs otherwise, scope, expected =>
    Formed interpolators input scope (some inputTy) ∧
      FormedOutputs interpolators outputs scope expected ∧
      Formed interpolators otherwise scope (learnAll expected outputs) ∧
      t = (learnAll expected outputs).getD otherwise.ty ∧
      labels.length = outputs.length ∧ labels ≠ [] ∧
      LabelsSeen.TakesBranches 0 ⟨none, []⟩ labels ∧
      LabelsSeen.addBranches 0 ⟨none, []⟩ labels = ⟨some inputTy, table⟩
  | .curve _ t kind input labels outputs, scope, expected =>
    Formed interpolators input scope (some .number) ∧
      FormedOutputs interpolators outputs scope expected ∧
      t = (learnAll expected outputs).getD .null ∧
      labels.length = outputs.length ∧ labels ≠ [] ∧ StopsFollow none labels ∧
      kind.WellFormed ∧ (kind.isStep || interpolators.supports t) = true
  | .letIn _ names values body, scope, expected =>
    FormedArgs interpolators values scope (fun _ => none) 0 ∧
      Formed interpolators body (bindTypes names values scope) expected ∧
      names.length = values.length ∧ names ≠ [] ∧ ∀ n ∈ names, isIdentifier n = true
  | .var _ t name, scope, expected => Admits expected t ∧ scope.lookup name = some t
  | .assertion _ t inputs, scope, expected =>
    Admits expected t ∧ Assertable t inputs.length ∧
      FormedArgs interpolators inputs scope (fun _ => some .value) 0
  | .call _ t fn args, scope, expected =>
    Admits expected t ∧ t = fn.result (args.map Expr.ty) ∧
      ∃ earlier signature later, fn.signatures = earlier ++ signature :: later ∧
        signature.takes args.length = true ∧
        FormedArgs interpolators args scope (fun i => some (signature.param i)) 0 ∧
        ∀ s ∈ earlier, s.takes args.length = true → ¬ s.RefitsFrom interpolators 0 args

/-- Outputs stand rightly in turn, each against the type that is shared so far. -/
def FormedOutputs (interpolators : Interpolators) :
    List Expr → List (String × Ty) → Option Ty → Prop
  | [], _, _ => True
  | e :: es, scope, shared =>
    Formed interpolators e scope shared ∧ FormedOutputs interpolators es scope (learn shared e)

/-- Arguments from `i` on stand rightly, each against its own type. -/
def FormedArgs (interpolators : Interpolators) :
    List Expr → List (String × Ty) → (Nat → Option Ty) → Nat → Prop
  | [], _, _, _ => True
  | e :: es, scope, param, i =>
    Formed interpolators e scope (param i) ∧ FormedArgs interpolators es scope param (i + 1)

end

end Expr

/-! ## Types that are right -/

theorem Expr.Formed.admits {interpolators : Interpolators} :
    ∀ {e : Expr} {scope : List (String × Ty)} {expected : Option Ty},
      e.Formed interpolators scope expected → Admits expected e.ty
  | .literal .., _, _, h => h.1
  | .var .., _, _, h => h.1
  | .assertion .., _, _, h => h.1
  | .call .., _, _, h => h.1
  | .letIn _ _ _ body, _, _, h => Formed.admits (e := body) h.2.1
  | .coalesce _ _ args, _, none, _ => admits_none _
  | .coalesce _ _ args, _, some w, ⟨_, hty⟩ => by
      rw [learnAll_some] at hty
      rw [Expr.ty, hty]
      exact admits_self w
  | .select .., _, none, _ => admits_none _
  | .select _ _ _ _ _ _ outputs _, _, some w, ⟨_, _, _, hty, _⟩ => by
      rw [learnAll_some] at hty
      rw [Expr.ty, hty]
      exact admits_self w
  | .curve .., _, none, _ => admits_none _
  | .curve _ _ _ _ _ outputs, _, some w, ⟨_, _, hty, _⟩ => by
      rw [learnAll_some] at hty
      rw [Expr.ty, hty]
      exact admits_self w

theorem Expr.FormedOutputs.each {interpolators : Interpolators} {scope : List (String × Ty)} :
    ∀ {es : List Expr} {shared : Option Ty}, FormedOutputs interpolators es scope shared →
      ∀ e ∈ es, ∃ expected, e.Formed interpolators scope expected
  | [], _, _ => by simp
  | _ :: _, _, h => List.forall_mem_cons.2 ⟨⟨_, h.1⟩, FormedOutputs.each h.2⟩

theorem Expr.FormedArgs.each {interpolators : Interpolators} {scope : List (String × Ty)} :
    ∀ {es : List Expr} {param : Nat → Option Ty} {i : Nat},
      FormedArgs interpolators es scope param i →
      ∀ e ∈ es, ∃ expected, e.Formed interpolators scope expected
  | [], _, _, _ => by simp
  | _ :: _, _, _, h => List.forall_mem_cons.2 ⟨⟨_, h.1⟩, FormedArgs.each h.2⟩

namespace Typing

/-! ## Labels and stops -/

theorem wellFormed_labelOf? {j : Json} {l : Label} (h : labelOf? j = some l) : l.WellFormed := by
  simp only [labelOf?] at h
  split at h
  · cases h
    trivial
  · split at h
    · cases h
    · rename_i hsmall
      split at h
      · rename_i hwhole
        cases h
        exact ⟨hsmall, hwhole⟩
      · cases h
  · cases h

theorem isFinite_num? {j : Json} {x : Float} (h : j.num? = some x) : x.isFinite = true := by
  cases j with
  | num n =>
      cases h
      exact n.isFinite_toFloat
  | _ => cases h

theorem Describes.wellFormed {j : Json} {kind : Interpolation} (h : Describes j kind) :
    kind.WellFormed := by
  cases h with
  | step => trivial
  | linear => trivial
  | exponential hbase =>
      obtain ⟨j, _, hj⟩ := Option.bind_eq_some_iff.1 hbase
      exact isFinite_num? hj
  | cubicBezier hpoints =>
      intro x hx
      rw [ControlPoints.toList, ← hpoints] at hx
      obtain ⟨hx, hrange⟩ := List.mem_filter.1 hx
      obtain ⟨j, _, hj⟩ := List.mem_filterMap.1 hx
      exact ⟨isFinite_num? hj, hrange⟩

/-! ## From steps to the judgement -/

/-- A document whose trees are formed wherever it is checked. -/
def Forms (j : Json) : Prop :=
  ∀ (ctx : Context) (e : Expr), Elaborates ctx j e →
    e.Formed ctx.interpolators ctx.scope ctx.expected

theorem formedArgs_of_each {ctx : Context} {expected : Nat → Option Ty} {i : Nat} {js : List Json}
    {es : List Expr} (h : Each ctx expected i js es) (ih : ∀ j ∈ js, Forms j) :
    Expr.FormedArgs ctx.interpolators es ctx.scope expected i := by
  induction h with
  | nil => trivial
  | cons hj _ hrest =>
      obtain ⟨ihj, ihjs⟩ := List.forall_mem_cons.1 ih
      exact ⟨ihj _ _ hj, hrest ihjs⟩

theorem length_of_each {ctx : Context} {expected : Nat → Option Ty} {i : Nat} {js : List Json}
    {es : List Expr} (h : Each ctx expected i js es) : es.length = js.length := by
  induction h with
  | nil => rfl
  | cons _ _ ih => simp [ih]

theorem formedOutputs_of_steps {ctx : Context} {js : List Json} (ih : ∀ j ∈ js, Forms j) {k : Nat}
    {shared last : Option Ty} {es : List Expr}
    (h : Steps (fun shared (arg, i) => Arg.checkOutput arg ctx i shared) shared
      ((js.map argOf).zipIdx k) last es) :
    Expr.FormedOutputs ctx.interpolators es ctx.scope shared ∧ last = learnAll shared es := by
  induction js generalizing k shared es with
  | nil =>
      cases h
      exact ⟨trivial, rfl⟩
  | cons j js hrest =>
      obtain ⟨ihj, ihjs⟩ := List.forall_mem_cons.1 ih
      rcases h with _ | ⟨hstep, hsteps⟩
      obtain ⟨he, rfl⟩ := clean_checkOutput.1 hstep
      obtain ⟨hes, hlast⟩ := hrest ihjs hsteps
      exact ⟨⟨ihj _ _ he, hes⟩, hlast⟩

theorem formed_of_branches {ctx : Context} {branches : List (Json × Json)}
    (ih : ∀ p ∈ branches, Forms p.2) {k : Nat} {seen last : BranchesSeen}
    {checked : List (List Label × Expr)}
    (h : Steps (nextBranch ctx) seen ((argPairs branches).zipIdx k) last checked) :
    Expr.FormedOutputs ctx.interpolators (checked.map (·.2)) ctx.scope seen.shared ∧
      last.shared = learnAll seen.shared (checked.map (·.2)) ∧
      seen.labels.TakesBranches k (checked.map (·.1)) ∧
      last.labels = seen.labels.addBranches k (checked.map (·.1)) ∧
      checked.length = branches.length := by
  induction branches generalizing k seen checked with
  | nil =>
      cases h
      exact ⟨trivial, rfl, trivial, rfl, rfl⟩
  | cons p branches hrest =>
      obtain ⟨ihp, ihps⟩ := List.forall_mem_cons.1 ih
      rcases h with _ | ⟨hstep, hsteps⟩
      rename_i b _
      obtain ⟨ls, e⟩ := b
      obtain ⟨hne, hls, htakes, he, rfl⟩ := clean_nextBranch.1 hstep
      obtain ⟨hes, hshared, hbranches, hlabels, hlen⟩ := hrest ihps hsteps
      refine ⟨⟨ihp _ _ he, hes⟩, hshared, ⟨?_, ?_, htakes, hbranches⟩, hlabels, by simp [hlen]⟩
      · rintro rfl
        exact hne (List.map_eq_nil_iff.1 hls)
      · intro l hl
        have hmem : some l ∈ (labelItems p.1).map labelOf? := hls ▸ List.mem_map_of_mem hl
        obtain ⟨j, _, hj⟩ := List.mem_map.1 hmem
        exact wellFormed_labelOf? hj

theorem formed_of_stops {ctx : Context} {stops : List (Json × Json)}
    (ih : ∀ p ∈ stops, Forms p.2) {k : Nat} {seen last : StopsSeen}
    {checked : List (Float × Expr)}
    (h : Steps (nextStop ctx) seen ((argPairs stops).zipIdx k) last checked) :
    Expr.FormedOutputs ctx.interpolators (checked.map (·.2)) ctx.scope seen.shared ∧
      last.shared = learnAll seen.shared (checked.map (·.2)) ∧
      StopsFollow seen.last (checked.map (·.1)) ∧ checked.length = stops.length := by
  induction stops generalizing k seen checked with
  | nil =>
      cases h
      exact ⟨trivial, rfl, trivial, rfl⟩
  | cons p stops hrest =>
      obtain ⟨ihp, ihps⟩ := List.forall_mem_cons.1 ih
      rcases h with _ | ⟨hstep, hsteps⟩
      rename_i b _
      obtain ⟨x, e⟩ := b
      obtain ⟨hx, hfollows, he, rfl⟩ := clean_nextStop.1 hstep
      obtain ⟨hes, hshared, hstops, hlen⟩ := hrest ihps hsteps
      exact ⟨⟨ihp _ _ he, hes⟩, hshared, ⟨isFinite_num? hx, hfollows, hstops⟩, by simp [hlen]⟩

theorem formed_of_bindings {ctx : Context} {bindings : List (Json × Json)}
    (ih : ∀ p ∈ bindings, Forms p.2) {k i : Nat} {bound : List (String × Expr)}
    (h : Steps (bindIn ctx) () ((argPairs bindings).zipIdx k) () bound) :
    Expr.FormedArgs ctx.interpolators (bound.map (·.2)) ctx.scope (fun _ => none) i ∧
      (∀ n ∈ bound.map (·.1), isIdentifier n = true) ∧ bound.length = bindings.length := by
  induction bindings generalizing k i bound with
  | nil =>
      cases h
      exact ⟨trivial, by simp, rfl⟩
  | cons p bindings hrest =>
      obtain ⟨ihp, ihps⟩ := List.forall_mem_cons.1 ih
      rcases h with _ | ⟨hstep, hsteps⟩
      rename_i b _
      obtain ⟨n, e⟩ := b
      obtain ⟨_, hn, he⟩ := clean_bindIn.1 hstep
      obtain ⟨hes, hnames, hlen⟩ := hrest ihps hsteps
      exact ⟨⟨ihp _ _ he, hes⟩, List.forall_mem_cons.2 ⟨hn, hnames⟩, by simp [hlen]⟩

/-! ## From forms to the judgement -/

/-- What a form yields before it is brought in line with the expected type: a formed tree, or one
that is formed where any value will do and whose type is not right. -/
def Standing (ctx : Context) (d : Expr) : Prop :=
  d.Formed ctx.interpolators ctx.scope ctx.expected ∨
    (¬ Admits ctx.expected d.ty ∧ d.Formed ctx.interpolators ctx.scope (some .value))

theorem Standing.kept {ctx : Context} {d : Expr} (h : Standing ctx d)
    (hty : Admits ctx.expected d.ty) : d.Formed ctx.interpolators ctx.scope ctx.expected := by
  rcases h with h | ⟨hnot, _⟩
  · exact h
  · exact absurd hty hnot

/-- A tree whose type is not right is formed as an operand that may be any value. -/
theorem Standing.wrapped {ctx : Context} {d : Expr} (h : Standing ctx d)
    (hty : ¬ Admits ctx.expected d.ty) : d.Formed ctx.interpolators ctx.scope (some .value) := by
  rcases h with h | ⟨_, h⟩
  · exact absurd h.admits hty
  · exact h

theorem formed_of_conforms {ctx : Context} {d e : Expr} (hd : Standing ctx d)
    (h : Conforms ctx.expected d e) : e.Formed ctx.interpolators ctx.scope ctx.expected := by
  cases h with
  | kept hty => exact hd.kept hty
  | colored hexp hty =>
      refine ⟨hexp ▸ admits_self .color, rfl, [], .atLeast 1 .value, [], rfl, rfl, ?_, by simp⟩
      exact ⟨hd.wrapped hty, trivial⟩
  | @asserted wanted hexp hty hnull hcolor =>
      refine ⟨hexp ▸ admits_self wanted, ⟨hnull, hcolor, ?_, by simp, fun _ _ _ => rfl⟩,
        hd.wrapped hty, trivial⟩
      rintro rfl
      exact hty (hexp ▸ admits_value d.ty)

theorem standing_of_any {ctx : Context} {d : Expr}
    (h : ∀ expected, Admits expected d.ty → d.Formed ctx.interpolators ctx.scope expected) :
    Standing ctx d := by
  by_cases hty : Admits ctx.expected d.ty
  · exact .inl (h _ hty)
  · exact .inr ⟨hty, h _ (admits_value _)⟩

/-- Only where an array is expected does the type of a literal depend on it. -/
theorem literalTy_of_ne {t : Ty} (h : ∀ item len, t ≠ .array item len) (v : Value) :
    literalTy (some t) v = v.typeOf := by
  simp only [literalTy]
  split
  · rename_i heq
    exact absurd (Option.some.inj heq) (h _ _)
  · rename_i heq
    exact absurd (Option.some.inj heq) (h _ _)
  · rfl

/-- Only a type that takes an expected one on depends on it, and that one is right. -/
theorem literalTy_of_not_admits {expected : Option Ty} {v : Value}
    (h : ¬ Admits expected (literalTy expected v)) : literalTy expected v = v.typeOf := by
  simp only [literalTy] at h ⊢
  split
  · rename_i heq
    rw [heq] at h
    exact absurd (admits_self _) h
  · rename_i heq
    rw [heq] at h
    exact absurd (admits_self _) h
  · rfl

theorem standing_of_data {ctx : Context} {j : Json} {d : Expr}
    (h : Clean (literalOf (Value.ofJson j) ctx) (some d)) : Standing ctx d := by
  obtain ⟨_, rfl⟩ := clean_literalOf.1 h
  by_cases hty : Admits ctx.expected (literalTy ctx.expected (Value.ofJson j))
  · exact .inl ⟨hty, rfl, .inl ⟨j, rfl⟩⟩
  · refine .inr ⟨hty, admits_value _, ?_, .inl ⟨j, rfl⟩⟩
    rw [literalTy_of_not_admits hty, literalTy_of_ne (t := .value) nofun]

theorem standing_of_scalar {ctx : Context} {j : Json} {d : Expr}
    (h : Clean (scalar j ctx) (some d)) : Standing ctx d := by
  rcases clean_scalar.1 h with ⟨_, c, _, hexp, _, hc⟩ | ⟨_, hj⟩
  · obtain ⟨hvalid, rfl⟩ := clean_literalOf.1 hc
    exact .inl ⟨hexp ▸ admits_self .color, rfl, .inr ⟨c, rfl, hvalid, hexp⟩⟩
  · exact standing_of_data hj

/-- A form yields standing trees when the documents below it are formed. -/
def FormStands (form : Form) : Prop :=
  ∀ (js : List Json) (ctx : Context) (d : Expr), (∀ j ∈ js, Forms j) →
    Clean (form (js.map argOf) ctx) (some d) → Standing ctx d

/-- A form yields formed trees when the documents below it are formed: its type is right. -/
def FormForms (form : Form) : Prop :=
  ∀ (js : List Json) (ctx : Context) (d : Expr), (∀ j ∈ js, Forms j) →
    Clean (form (js.map argOf) ctx) (some d) → d.Formed ctx.interpolators ctx.scope ctx.expected

theorem FormForms.stands {form : Form} (h : FormForms form) : FormStands form :=
  fun js ctx d ih hd => .inl (h js ctx d ih hd)

theorem literal_stands : FormStands literal := by
  intro js ctx d _ h
  obtain ⟨j, _, hj⟩ := clean_literal.1 h
  exact standing_of_data hj

theorem coalesce_forms : FormForms coalesce := by
  intro js ctx d ih h
  obtain ⟨shared, es, hsteps, rfl⟩ := clean_coalesce.1 h
  obtain ⟨hes, rfl⟩ := formedOutputs_of_steps ih hsteps
  exact ⟨hes, rfl⟩

/-- Pairs are fewer than two only where there are fewer than four items. -/
theorem pairs_ne_nil {α : Type} {as : List α} {pairs : List (α × α)} {extra : Option α}
    (h : inPairs as = (pairs, extra)) (hlen : 2 ≤ as.length) : pairs ≠ [] := by
  match as, h with
  | [], _ => simp at hlen
  | [_], _ => simp at hlen
  | _ :: _ :: _, h =>
      cases h
      simp

theorem select_forms : FormForms select := by
  intro js ctx d ih h
  obtain ⟨hlen, input, rest, branches, last, rfl, hpairs, seen, checked, input', otherwise, inputTy,
    hbranches, hty, hinput, hotherwise, rfl⟩ := clean_select.1 h
  obtain ⟨hmem, hlast⟩ := mem_of_inPairs hpairs
  obtain ⟨ihinput, ihrest⟩ := List.forall_mem_cons.1 ih
  obtain ⟨hes, hshared, hlabels, hseen, hcount⟩ :=
    formed_of_branches (fun p hp => ihrest _ (hmem p hp).2) hbranches
  have hne : checked ≠ [] := by
    intro h0
    rw [h0] at hcount
    exact pairs_ne_nil hpairs (by simp at hlen; omega) (List.eq_nil_of_length_eq_zero hcount.symm)
  rw [hshared] at hotherwise ⊢
  refine ⟨ihinput _ _ hinput, hes, ihrest _ (hlast _ rfl) _ _ hotherwise, rfl, by simp,
    by simpa using hne, hlabels, ?_⟩
  rw [← hseen, ← hty]

theorem curve_forms : FormForms curve := by
  intro js ctx d ih h
  obtain ⟨hlen, description, input, rest, stops, rfl, hpairs, kind, input', seen, checked, hkind,
    hinput, hstops, hblend, rfl⟩ := clean_curve.1 h
  obtain ⟨hmem, _⟩ := mem_of_inPairs hpairs
  obtain ⟨_, ih⟩ := List.forall_mem_cons.1 ih
  obtain ⟨ihinput, ihrest⟩ := List.forall_mem_cons.1 ih
  obtain ⟨hes, hshared, hfollow, hcount⟩ :=
    formed_of_stops (fun p hp => ihrest _ (hmem p hp).2) hstops
  have hne : checked ≠ [] := by
    intro h0
    rw [h0] at hcount
    exact pairs_ne_nil hpairs (by simp at hlen; omega) (List.eq_nil_of_length_eq_zero hcount.symm)
  rw [hshared] at hblend ⊢
  exact ⟨ihinput _ _ hinput, hes, rfl, by simp, by simpa using hne, hfollow, hkind.wellFormed,
    hblend⟩

theorem bindTypes_bound (bound : List (String × Expr)) (scope : List (String × Ty)) :
    bindTypes (bound.map (·.1)) (bound.map (·.2)) scope =
      (bound.map fun (name, e) => (name, e.ty)).reverse ++ scope := by
  rw [bindTypes]
  congr 2
  induction bound with
  | nil => rfl
  | cons b bound ih => exact congrArg (List.cons _) ih

theorem letIn_forms : FormForms letIn := by
  intro js ctx d ih h
  obtain ⟨hlen, bindings, last, hpairs, bound, body, hbound, hbody, rfl⟩ := clean_letIn.1 h
  obtain ⟨hmem, hlast⟩ := mem_of_inPairs hpairs
  obtain ⟨hvalues, hnames, hcount⟩ :=
    formed_of_bindings (fun p hp => ih _ (hmem p hp).2) hbound
  have hne : bound ≠ [] := by
    intro h0
    rw [h0] at hcount
    exact pairs_ne_nil hpairs (by omega) (List.eq_nil_of_length_eq_zero hcount.symm)
  have hbody := ih _ (hlast _ rfl) _ _ hbody
  refine ⟨hvalues, ?_, by simp, by simpa using hne, hnames⟩
  rw [bindTypes_bound]
  exact hbody

theorem var_stands : FormStands var := by
  intro js ctx d _ h
  obtain ⟨name, ty, _, hlookup, rfl⟩ := clean_var.1 h
  exact standing_of_any fun _ hty => ⟨hty, hlookup⟩

theorem assertion_stands {ty : Ty}
    (hty : ty = .number ∨ ty = .string ∨ ty = .boolean ∨ ty = .object) :
    FormStands (assertion ty) := by
  intro js ctx d ih h
  obtain ⟨hne, es, heach, rfl⟩ := clean_assertion.1 h
  have hlen : 0 < es.length := by
    rw [length_of_each heach]
    exact List.length_pos_iff.2 hne
  have hassertable : Assertable ty es.length := by
    rcases hty with rfl | rfl | rfl | rfl <;> simp [Assertable, hlen]
  exact standing_of_any fun _ hty => ⟨hty, hassertable, formedArgs_of_each heach ih⟩

theorem mem_of_arrayParts? {js : List Json} {item : Ty} {len : Option Nat} {input : Json}
    (h : arrayParts? js = some (item, len, input)) : input ∈ js := by
  simp only [arrayParts?] at h
  split at h
  · cases h
    simp
  · obtain ⟨_, _, heq⟩ := Option.map_eq_some_iff.1 h
    cases heq
    simp
  · obtain ⟨_, _, heq⟩ := Option.bind_eq_some_iff.1 h
    obtain ⟨_, _, heq⟩ := Option.map_eq_some_iff.1 heq
    cases heq
    simp
  · cases h

theorem arrayAssertion_stands : FormStands arrayAssertion := by
  intro js ctx d ih h
  obtain ⟨item, len, input, hparts, input', hinput, rfl⟩ := clean_arrayAssertion.1 h
  exact standing_of_any fun _ hty =>
    ⟨hty, by simp [Assertable], ih input (mem_of_arrayParts? hparts) _ _ hinput, trivial⟩

theorem call_stands (fn : Builtin) : FormStands (call fn) := by
  intro js ctx d ih h
  obtain ⟨signature, es, hfirst, rfl⟩ := clean_call.1 h
  obtain ⟨_, _, _, _, htakes, heach⟩ := id hfirst
  obtain ⟨earlier, later, hsplit, hrefits⟩ := hfirst.not_refits
  rw [← length_of_each heach] at htakes hrefits
  exact standing_of_any fun _ hty =>
    ⟨hty, rfl, earlier, signature, later, hsplit, htakes, formedArgs_of_each heach ih, hrefits⟩

theorem IsForm.stands {form : Form} (h : IsForm form) : FormStands form := by
  cases h with
  | literal => exact literal_stands
  | coalesce => exact coalesce_forms.stands
  | select => exact select_forms.stands
  | curve => exact curve_forms.stands
  | letIn => exact letIn_forms.stands
  | var => exact var_stands
  | assertion hty => exact assertion_stands hty
  | arrayAssertion => exact arrayAssertion_stands
  | call fn => exact call_stands fn

/-- What checks without a diagnostic is formed. -/
theorem Elaborates.formed (j : Json) : Forms j := by
  induction j using json_induction with
  | scalar j hj =>
      intro ctx e h
      obtain ⟨d, hd, hconf⟩ := (elaborates_scalar hj).1 h
      exact formed_of_conforms (standing_of_scalar hd) hconf
  | arr items ih =>
      intro ctx e h
      obtain ⟨name, js, form, d, rfl, hform, hd, hconf⟩ := elaborates_arr.1 h
      have ih : ∀ j ∈ js, Forms j := fun j hj => ih j (List.mem_cons_of_mem _ hj)
      exact formed_of_conforms ((isForm hform).stands _ _ _ ih hd) hconf
  | obj fields =>
      intro ctx e h
      exact absurd h not_elaborates_obj

end Typing

/-- A compiled expression is formed in the empty scope, against the type that was expected. -/
theorem formed_of_compile {j : Json} {expected : Option Ty} {interpolators : Interpolators}
    {c : Compiled} (h : compile j expected interpolators = .ok c) :
    c.interpolators = interpolators ∧ c.root.Formed interpolators [] expected ∧
      Elaborates (.root expected interpolators) j c.root := by
  rw [compile] at h
  split at h
  · rename_i e hclean
    cases h
    exact ⟨rfl, Elaborates.formed j _ _ hclean, hclean⟩
  · cases h

theorem compile_of_elaborates {j : Json} {expected : Option Ty} {interpolators : Interpolators}
    {e : Expr} (h : Elaborates (.root expected interpolators) j e) :
    compile j expected interpolators = .ok ⟨e, interpolators⟩ := by
  rw [compile]
  rw [show (check j (.root expected interpolators)).run [] = (some e, []) from h]

end MapStyle

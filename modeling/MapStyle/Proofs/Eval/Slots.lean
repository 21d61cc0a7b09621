/-
# `MapStyle.Proofs.Eval.Slots` — the entries that evaluation reads by index

Evaluation reads lists by index as well: a rule its operands, a curve its labels, the table of a
`match` the outputs, `at` an array and `to-color` the parts of a text.  Here evaluation is written
once more with reads that yield `none` when nothing is there and end the evaluation for good, so
that no later node can make up for it as `coalesce` does for an error.

For what has compiled no such read is ever made (`evaluateIndexed_eq`).  The reasons are different
ones: the ways to call a function fix what its rule may ask for, the table holds indices of
branches, as many labels as outputs ascend strictly, so that an input that stands after a label
stands before the next one, and `at` compares with the size first.
-/
import MapStyle.Proofs.Eval.Sound
import MapStyle.Proofs.Typing.Slots

namespace MapStyle

open Typing

/-- An evaluation that reads by index, `none` when something is read that is not there. -/
abbrev IndexedEvaluation (α : Type) := EvalState → Option (Outcome α × EvalState)

/-- An evaluation by index that finds all that it reads. -/
def Evaluation.indexed {α : Type} (p : Evaluation α) : IndexedEvaluation α := fun st => some (p st)

/-! ## Rules that read lists -/

namespace Rule

variable {α β : Type}

/-- What a read has found. -/
def found (r : Option α) : OptionT Rule α := OptionT.mk (pure r)

def runIndexed (operands : List (IndexedEvaluation Value)) :
    Rule (Option α) → IndexedEvaluation α
  | done (.ok (some a)), st => some (.ok a, st)
  | done (.ok none), _ => none
  | done (.error e), st => some (.error e, st)
  | ask i next, st => do
    let operand ← operands[i]?
    let (r, after) ← operand st
    runIndexed operands (next r) after
  | ease p next, st =>
    let (easing, easings) := st.easings.easing p
    runIndexed operands (next easing) ⟨st.scope, easings⟩

theorem found_bind {r : Option α} {a : α} (h : r = some a) (f : α → OptionT Rule β) :
    (found r >>= f) = f a := by
  cases h
  rfl

/-- What goes on from a rule, finding all that it reads, is a rule again. -/
theorem lift_bind {rule : Rule α} {f : α → OptionT Rule β} {g : α → Rule β}
    (h : ∀ a, f a = OptionT.lift (g a)) :
    (OptionT.lift rule >>= f) = OptionT.lift (rule >>= g) := by
  obtain rfl : f = fun a => OptionT.lift (g a) := funext h
  induction rule with
  | done r => cases r <;> rfl
  | ask i next ih => exact congrArg (ask i) (funext ih)
  | ease p next ih => exact congrArg (ease p) (funext ih)

/-- A rule asks only for the first `n` operands. -/
abbrev Within (n : Nat) (rule : Rule α) : Prop :=
  rule.Meets n (fun _ => True) (fun _ _ => True) fun _ => True

theorem runIndexed_lift {rule : Rule α} {operands : List (Evaluation Value)}
    (h : rule.Within operands.length) (st : EvalState) :
    runIndexed (operands.map Evaluation.indexed) (OptionT.lift rule).run st =
      some (rule.run operands st) := by
  induction rule generalizing st with
  | done r => cases r <;> rfl
  | ask i next ih =>
      obtain ⟨hi, hnext⟩ := h
      have hoperand := List.getElem?_eq_getElem hi
      show (((operands.map Evaluation.indexed)[i]?) >>= _) = _
      rw [List.getElem?_map, run, hoperand]
      exact ih _ (hnext _ (by cases (operands[i] st).1 <;> trivial)) _
  | ease p next ih => exact ih _ (h _) _

end Rule

open Rule

/-! ## Curves -/

def Curve.valueIndexed (interpolators : Interpolators) (labels : List Float)
    (interpolation : Interpolation) (ty : Ty) (output : Nat → Rule Value) (input : Float) :
    OptionT Rule Value :=
  match labels.head? with
  | none => pure .null
  | some first =>
    if labels.length = 1 ∨ input ≤ first then output 0
    else do
      let last ← found labels[labels.length - 1]?
      if last ≤ input then output (labels.length - 1)
      else
        let i := partitionPoint (· ≤ input) labels - 1
        if interpolation.isStep then output i
        else do
          let lower ← found labels[i]?
          let upper ← found labels[i + 1]?
          let t ← progress interpolation input lower upper
          let a ← output i
          let b ← output (i + 1)
          OptionT.lift (Rule.done (interpolators.blend ty a b t))

/-- The labels of a checked curve are all there, wherever an input stands. -/
theorem Curve.valueIndexed_eq {labels : List Float} (hlabels : StopsFollow none labels)
    (hne : labels ≠ []) (interpolators : Interpolators) (kind : Interpolation) (ty : Ty)
    (output : Nat → Rule Value) (input : Float) :
    valueIndexed interpolators labels kind ty output input =
      OptionT.lift (value interpolators labels kind ty output input) := by
  cases labels with
  | nil => exact absurd rfl hne
  | cons first rest =>
      obtain ⟨last, hlast⟩ : ∃ last, (first :: rest)[rest.length]? = some last :=
        ⟨_, List.getElem?_eq_getElem (Nat.lt_succ_self _)⟩
      have hend : (first :: rest).getLast? = some last := by
        rw [List.getLast?_eq_getElem?, ← hlast]
        rfl
      have hplace := locate_cases hlabels hne input
      rw [value]
      simp only [valueIndexed, List.head?_cons]
      simp only [locate, hend] at hplace ⊢
      by_cases hlow : (rest.isEmpty || decide (input ≤ first)) = true
      · have hlow' : (first :: rest).length = 1 ∨ input ≤ first := by
          simpa [List.length_eq_zero_iff] using hlow
        rw [if_pos hlow', if_pos hlow]
        rfl
      · have hlow' : ¬ ((first :: rest).length = 1 ∨ input ≤ first) := by
          simpa [List.length_eq_zero_iff] using hlow
        rw [if_neg hlow', if_neg hlow]
        rw [if_neg hlow] at hplace
        have hend' : (first :: rest)[(first :: rest).length - 1]? = some last := hlast
        rw [found_bind hend']
        by_cases hhigh : last ≤ input
        · rw [if_pos hhigh, if_pos hhigh]
          rfl
        · rw [if_neg hhigh, if_neg hhigh]
          rw [if_neg hhigh] at hplace
          generalize partitionPoint (· ≤ input) (first :: rest) - 1 = i at hplace ⊢
          obtain ⟨_, _, hat⟩ | ⟨k, hk, hafter⟩ := hplace
          · cases hat
          cases hafter
          dsimp only
          by_cases hstep : kind.isStep = true
          · rw [if_pos hstep, if_pos hstep]
            rfl
          · rw [if_neg hstep, if_neg hstep]
            have hlower := List.getElem?_eq_getElem (Nat.lt_of_succ_lt hk)
            have hupper := List.getElem?_eq_getElem hk
            rw [found_bind hlower, found_bind hupper, label, label, hlower, hupper]
            refine lift_bind fun t => ?_
            refine lift_bind fun a => ?_
            exact lift_bind fun b => rfl

def Expr.curveRuleIndexed (interpolators : Interpolators) (ty : Ty)
    (interpolation : Interpolation) (labels : List Float) : OptionT Rule Value := do
  let input ← Rule.operand 0
  let v ← input.asType .number
  Curve.valueIndexed interpolators labels interpolation ty (fun i => Rule.operand (i + 1))
    (v.number?.getD (0.0 / 0.0))

theorem Expr.curveRuleIndexed_eq {labels : List Float} (hlabels : StopsFollow none labels)
    (hne : labels ≠ []) (interpolators : Interpolators) (kind : Interpolation) (ty : Ty) :
    curveRuleIndexed interpolators ty kind labels =
      OptionT.lift (curveRule interpolators ty kind labels) := by
  refine lift_bind fun input => ?_
  refine lift_bind fun v => ?_
  exact Curve.valueIndexed_eq hlabels hne _ _ _ _ _

/-! ## Built-in functions -/

def Value.itemAtIndexed (index : Float) (items : List Value) : OptionT Rule Value :=
  if 0 ≤ index ∧ index < Binary.nearest false items.length 1 then
    match wholeNumber? index with
    | none => OptionT.lift (Rule.fail (.indexNotWhole index))
    | some i => found items[i.toNat]?
  else OptionT.lift (Rule.fail (.indexOutOfBounds index items.length))

/-- A whole index that is not refused is that of an item. -/
theorem Value.itemAtIndexed_eq (index : Float) (items : List Value) :
    itemAtIndexed index items = OptionT.lift (Rule.done (itemAt index items)) := by
  have hmeets := meets_itemAt (fun _ h => h) index items
  rw [itemAtIndexed]
  unfold itemAt at hmeets ⊢
  dsimp only at hmeets ⊢
  split
  · rename_i hrange
    rw [if_pos hrange] at hmeets
    cases hwhole : wholeNumber? index with
    | none => rfl
    | some i =>
        rw [hwhole] at hmeets
        dsimp only at hmeets ⊢
        cases hitem : items[i.toNat]? with
        | none =>
            rw [hitem] at hmeets
            exact hmeets.elim
        | some v => rfl
  · rfl

def Color.ofValueIndexed : Value → Option (Outcome Color)
  | .string s => do
    match ← Css.colorIndexed? s with
    | some c => some (pure c)
    | none => some (throw (.colorText s))
  | v => some (ofValue v)

theorem Color.ofValueIndexed_eq (v : Value) : ofValueIndexed v = some (ofValue v) := by
  cases v with
  | string s =>
      rw [ofValueIndexed, Css.colorIndexed?_eq, ofValue, ofText]
      cases Css.color? s <;> rfl
  | _ => rfl

def Builtin.Rules.firstConvertedIndexed (convert : Value → Option (Outcome Value)) :
    (count i : Nat) → OptionT Rule Value
  | 0, i => OptionT.lift (Rule.fail (.missingOperand i))
  | 1, i => do
    let v ← Rule.operand i
    let r ← found (convert v)
    OptionT.lift (Rule.done r)
  | count + 2, i => do
    let v ← Rule.operand i
    match ← found (convert v) with
    | .ok w => pure w
    | .error _ => firstConvertedIndexed convert (count + 1) (i + 1)

theorem Builtin.Rules.firstConvertedIndexed_eq {convert : Value → Outcome Value}
    {indexed : Value → Option (Outcome Value)} (h : ∀ v, indexed v = some (convert v))
    (count i : Nat) :
    firstConvertedIndexed indexed count i = OptionT.lift (firstConverted convert count i) := by
  induction count generalizing i with
  | zero => rfl
  | succ count ih =>
      cases count with
      | zero =>
          refine lift_bind fun v => ?_
          rw [found_bind (h v)]
          rfl
      | succ count =>
          refine lift_bind fun v => ?_
          rw [found_bind (h v)]
          cases convert v with
          | ok w => rfl
          | error e => exact ih (i + 1)

def Builtin.ruleIndexed (scene : Scene) (count : Nat) : Builtin → OptionT Rule Value
  | item => do
    let index ← Rule.number 0
    let items ← Rule.array 1
    Value.itemAtIndexed index items
  | toColor =>
    Rules.firstConvertedIndexed (fun v => (Color.ofValueIndexed v).map (.color <$> ·)) count 0
  | fn => OptionT.lift (fn.rule scene count)

theorem Builtin.ruleIndexed_eq (scene : Scene) (count : Nat) (fn : Builtin) :
    fn.ruleIndexed scene count = OptionT.lift (fn.rule scene count) := by
  cases fn with
  | item =>
      refine lift_bind fun index => ?_
      refine lift_bind fun items => ?_
      exact Value.itemAtIndexed_eq index items
  | toColor =>
      refine Rules.firstConvertedIndexed_eq (fun v => ?_) count 0
      rw [Color.ofValueIndexed_eq]
      rfl
  | _ => rfl

/-! ## Trees -/

namespace Expr

def evalInOrderIndexed : List (IndexedEvaluation Value) → IndexedEvaluation (List Value)
  | [], st => some (pure [], st)
  | e :: es, st => do
    match ← e st with
    | (.error err, st) => some (.error err, st)
    | (.ok v, st) =>
      match ← evalInOrderIndexed es st with
      | (.error err, st) => some (.error err, st)
      | (.ok vs, st) => some (.ok (v :: vs), st)

def inScopeIndexed (names : List String) (values : List Value) (body : IndexedEvaluation Value) :
    IndexedEvaluation Value := fun st => do
  let after ← body ⟨bindNames names values st.scope, st.easings⟩
  some (after.1,
    ⟨after.2.scope.drop (after.2.scope.length - st.scope.length), after.2.easings⟩)

mutual

def evalIndexed (scene : Scene) : Expr → IndexedEvaluation Value
  | literal _ _ v => fun st => some (pure v, st)
  | coalesce _ _ args =>
    runIndexed (evalEachIndexed scene args) (OptionT.lift (coalesceRule args.length 0)).run
  | select _ _ inputTy input table _ outputs otherwise =>
    runIndexed
      (evalIndexed scene input :: evalIndexed scene otherwise :: evalEachIndexed scene outputs)
      (OptionT.lift (selectRule inputTy table)).run
  | curve _ ty interpolation input labels outputs =>
    runIndexed (evalIndexed scene input :: evalEachIndexed scene outputs)
      (curveRuleIndexed scene.interpolators ty interpolation labels).run
  | letIn _ names values body => fun st => do
    match ← evalInOrderIndexed (evalEachIndexed scene values) st with
    | (.error e, st) => some (.error e, st)
    | (.ok vs, st) => inScopeIndexed names vs (evalIndexed scene body) st
  | var _ _ name => fun st => some (lookUp name st.scope, st)
  | assertion _ ty inputs =>
    runIndexed (evalEachIndexed scene inputs)
      (OptionT.lift (assertionRule ty inputs.length 0)).run
  | call _ _ fn args =>
    runIndexed (evalEachIndexed scene args) (fn.ruleIndexed scene args.length).run

def evalEachIndexed (scene : Scene) : List Expr → List (IndexedEvaluation Value)
  | [] => []
  | e :: es => evalIndexed scene e :: evalEachIndexed scene es

end

variable {scene : Scene}

theorem evalEachIndexed_eq {es : List Expr}
    (h : ∀ e ∈ es, evalIndexed scene e = (eval scene e).indexed) :
    evalEachIndexed scene es = (evalEach scene es).map Evaluation.indexed := by
  induction es with
  | nil => rfl
  | cons e es ih =>
      obtain ⟨he, hes⟩ := List.forall_mem_cons.1 h
      rw [evalEachIndexed, evalEach, List.map_cons, he, ih hes]

theorem evalInOrderIndexed_eq (ps : List (Evaluation Value)) (st : EvalState) :
    evalInOrderIndexed (ps.map Evaluation.indexed) st = some (evalInOrder ps st) := by
  induction ps generalizing st with
  | nil => rfl
  | cons p ps ih =>
      rw [List.map_cons, evalInOrderIndexed, evalInOrder, Evaluation.indexed]
      rcases p st with ⟨⟨e⟩ | v, mid⟩
      · rfl
      · simp only [Option.bind_eq_bind, Option.bind_some, ih mid]
        rcases evalInOrder ps mid with ⟨⟨e⟩ | vs, after⟩
        · rfl
        · rfl

/-- Wherever a tree is formed, its evaluation reads nothing that is not there. -/
def ReadsWithin (scene : Scene) (e : Expr) : Prop :=
  ∀ {types : List (String × Ty)} {expected : Option Ty},
    e.Formed scene.interpolators types expected → evalIndexed scene e = (eval scene e).indexed

section Cases

variable {p : Path} {t : Ty}

theorem evalEachIndexed_of_readsWithin {es : List Expr} {types : List (String × Ty)}
    (ih : ∀ a ∈ es, ReadsWithin scene a)
    (hformed : ∀ a ∈ es, ∃ expected, a.Formed scene.interpolators types expected) :
    evalEachIndexed scene es = (evalEach scene es).map Evaluation.indexed := by
  refine evalEachIndexed_eq fun a ha => ?_
  obtain ⟨_, h⟩ := hformed a ha
  exact ih a ha h

theorem readsWithin_coalesce {args : List Expr} (ih : ∀ a ∈ args, ReadsWithin scene a) :
    ReadsWithin scene (.coalesce p t args) := by
  intro types expected hformed
  funext st
  rw [evalIndexed, eval, evalEachIndexed_of_readsWithin ih hformed.1.each]
  refine runIndexed_lift (meets_coalesceRule trivial (fun _ _ _ => trivial) ?_) st
  rw [length_evalEach, Nat.zero_add]

theorem readsWithin_select {inputTy : Ty} {input otherwise : Expr} {table : Dict Nat}
    {labels : List (List Label)} {outputs : List Expr} (ihinput : ReadsWithin scene input)
    (ihoutputs : ∀ a ∈ outputs, ReadsWithin scene a) (ihotherwise : ReadsWithin scene otherwise) :
    ReadsWithin scene (.select p t inputTy input table labels outputs otherwise) := by
  intro types expected hformed
  obtain ⟨hinput, houtputs, hotherwise, _, hlength, _, htakes, hadd⟩ := hformed
  funext st
  rw [evalIndexed, eval, ihinput hinput, ihotherwise hotherwise,
    evalEachIndexed_of_readsWithin ihoutputs houtputs.each, ← List.map_cons, ← List.map_cons]
  refine runIndexed_lift (meets_selectRule (fun _ _ => trivial) (fun _ _ _ _ => trivial)
    (LabelsSeen.ty_of_table htakes hadd).1 ?_ ?_) st
  · exact Nat.succ_lt_succ (Nat.succ_pos _)
  · intro text k hk
    have hbranch := LabelsSeen.lt_of_get? htakes hadd hk
    rw [List.length_cons, List.length_cons, length_evalEach]
    omega

theorem readsWithin_curve {kind : Interpolation} {input : Expr} {labels : List Float}
    {outputs : List Expr} (ihinput : ReadsWithin scene input)
    (ihoutputs : ∀ a ∈ outputs, ReadsWithin scene a) :
    ReadsWithin scene (.curve p t kind input labels outputs) := by
  intro types expected hformed
  obtain ⟨hinput, houtputs, _, hlength, hne, hlabels, _⟩ := hformed
  funext st
  rw [evalIndexed, eval, ihinput hinput, evalEachIndexed_of_readsWithin ihoutputs houtputs.each,
    ← List.map_cons, curveRuleIndexed_eq hlabels hne]
  refine runIndexed_lift
    (meets_curveRule (fun _ _ => trivial) (fun _ _ _ _ => trivial) ?_ hlabels hne ?_) st
  · intro _ a b x _ _
    cases scene.interpolators.blend t a b x <;> trivial
  · rw [List.length_cons, length_evalEach, hlength]
    exact Nat.lt_succ_self _

theorem readsWithin_letIn {names : List String} {values : List Expr} {body : Expr}
    (ihvalues : ∀ a ∈ values, ReadsWithin scene a) (ihbody : ReadsWithin scene body) :
    ReadsWithin scene (.letIn p names values body) := by
  intro types expected hformed
  obtain ⟨hvalues, hbody, _⟩ := hformed
  funext st
  simp only [evalIndexed, eval, Evaluation.indexed,
    evalEachIndexed_of_readsWithin ihvalues hvalues.each, evalInOrderIndexed_eq, ihbody hbody]
  rcases evalInOrder (evalEach scene values) st with ⟨⟨e⟩ | vs, mid⟩
  · rfl
  · rfl

theorem readsWithin_assertion {inputs : List Expr} (ih : ∀ a ∈ inputs, ReadsWithin scene a) :
    ReadsWithin scene (.assertion p t inputs) := by
  intro types expected hformed
  obtain ⟨_, _, hinputs⟩ := hformed
  funext st
  rw [evalIndexed, eval, evalEachIndexed_of_readsWithin ih hinputs.each]
  refine runIndexed_lift
    (meets_assertionRule (fun _ _ => trivial) trivial (fun _ _ => trivial) ?_) st
  rw [length_evalEach, Nat.zero_add]

theorem readsWithin_call {fn : Builtin} {args : List Expr}
    (ih : ∀ a ∈ args, ReadsWithin scene a) : ReadsWithin scene (.call p t fn args) := by
  intro types expected hformed
  obtain ⟨_, _, _, signature, _, hfn, htakes, hargs, _⟩ := hformed
  have htakes : fn.Takes args.length :=
    ⟨signature, hfn ▸ List.mem_append_right _ List.mem_cons_self, htakes⟩
  have hnone : ∀ t, ([] : List Ty)[1]? = some t → ∀ v : Value, True → v.Stands t := by
    simp
  have hrule : (fn.rule scene args.length).Within (evalEach scene args).length := by
    rw [length_evalEach]
    exact (Builtin.meets_rule (fun _ _ => trivial) scene htakes hnone).mono fun _ _ => trivial
  funext st
  rw [evalIndexed, eval, evalEachIndexed_of_readsWithin ih hargs.each, Builtin.ruleIndexed_eq]
  exact runIndexed_lift hrule st

end Cases

/-- Evaluating a formed tree reads nothing that is not there. -/
theorem readsWithin (e : Expr) : ReadsWithin scene e := by
  induction e using tree_induction with
  | literal p t v => exact fun _ => rfl
  | coalesce p t args ih => exact readsWithin_coalesce ih
  | select p t inputTy input table labels outputs otherwise ihinput ihoutputs ihotherwise =>
      exact readsWithin_select ihinput ihoutputs ihotherwise
  | curve p t kind input labels outputs ihinput ihoutputs =>
      exact readsWithin_curve ihinput ihoutputs
  | letIn p names values body ihvalues ihbody => exact readsWithin_letIn ihvalues ihbody
  | var p t name => exact fun _ => rfl
  | assertion p t inputs ih => exact readsWithin_assertion ih
  | call p t fn args ih => exact readsWithin_call ih

end Expr

/-! ## Compiled expressions -/

/-- The outcome for a zoom level and the properties of a feature, with all lists read by index. -/
def Compiled.evaluateIndexed (c : Compiled) (easings : EasingCache) (zoom : Float)
    (properties : Properties) : Option (Outcome Value × EasingCache) := do
  let (outcome, st) ← c.root.evalIndexed ⟨zoom, properties, c.interpolators⟩ ⟨[], easings⟩
  some (outcome, st.easings)

/-- No list is read out of its bounds, neither when any document at all is compiled nor when what
has compiled is evaluated, whatever the zoom level, the properties and the easings at hand. -/
theorem reads_within_bounds (j : Json) (expected : Option Ty) (interpolators : Interpolators) :
    compileIndexed j expected interpolators = some (compile j expected interpolators) ∧
      ∀ c, compile j expected interpolators = .ok c → ∀ easings zoom properties,
        c.evaluateIndexed easings zoom properties =
          some (c.evaluate easings zoom properties) := by
  refine ⟨compileIndexed_eq j expected interpolators, ?_⟩
  intro c h easings zoom properties
  obtain ⟨rfl, hformed, _⟩ := formed_of_compile h
  have hroot : c.root.evalIndexed ⟨zoom, properties, c.interpolators⟩ = _ :=
    Expr.readsWithin c.root hformed
  rw [Compiled.evaluateIndexed, hroot]
  rfl

/-- An item of an array, at an index that a curve over the zoom level yields. -/
def itemByZoom : Json :=
  .call "at" [.call "curve" [.call "step" [], .call "zoom" [], .ofNat 0, .ofNat 0, .ofNat 5,
    .ofNat 1], .call "literal" [.arr [.str "a", .str "b"]]]

theorem evaluateIndexed_itemByZoom :
    ∃ c, compile itemByZoom none .standard = .ok c ∧
      compileIndexed itemByZoom none .standard = some (.ok c) ∧
      (∀ easings zoom properties, c.evaluateIndexed easings zoom properties =
        some (c.evaluate easings zoom properties)) ∧
      (c.evaluate .empty 7 []).1 = .ok (.string "b") := by
  obtain ⟨c, h, hseven⟩ : ∃ c, compile itemByZoom none .standard = .ok c ∧
      (c.evaluate .empty 7 []).1 = .ok (.string "b") := ⟨_, rfl, rfl⟩
  obtain ⟨hcompile, hevaluate⟩ := reads_within_bounds itemByZoom none .standard
  exact ⟨c, h, h ▸ hcompile, hevaluate c h, hseven⟩

end MapStyle

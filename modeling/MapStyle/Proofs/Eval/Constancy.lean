/-
# `MapStyle.Proofs.Eval.Constancy` — what a constant tree does not look at

An expression counts as constant in the feature, or in the zoom level, when no node of its tree is a
call that reads it.  That is a statement about names of functions; here it is shown to be one about
values.  Two scenes that agree on everything that the nodes of a tree read are indistinguishable to
the tree: the evaluations are equal, with their errors and all that they leave behind
(`Expr.eval_congr`).

It rests on one fact about the built-in functions: the rule of a call is the same in two scenes that
agree on what the function reads (`Builtin.rule_congr`).
-/
import MapStyle.Proofs.Eval.Lexical

namespace MapStyle

/-! ## Scenes that look alike -/

/-- Two scenes agree on everything that a node itself looks at. -/
structure Scene.AlikeFor (s s' : Scene) (n : Expr) : Prop where
  interpolators : s.interpolators = s'.interpolators
  properties : n.readsFeature = true → s.properties = s'.properties
  zoom : n.readsZoom = true → s.zoom = s'.zoom

/-- A call with arguments has one rule in two scenes that agree on what the function reads. -/
theorem Builtin.rule_congr {s s' : Scene} {count : Nat} (hcount : count ≠ 0) (fn : Builtin)
    (hproperties : fn.readsFeature count = true → s.properties = s'.properties)
    (hzoom : fn.readsZoom = true → s.zoom = s'.zoom) : fn.rule s count = fn.rule s' count := by
  -- only a property that is looked up in the feature itself depends on the number of arguments
  have hlookup : (count == 1) = true ∨ 1 < count := by
    rw [beq_iff_eq]
    omega
  cases fn with
  | zoom => simp only [rule, hzoom rfl]
  | properties => simp only [rule, hproperties rfl]
  | get =>
      rcases hlookup with h | h
      · simp only [rule, Rules.get, hproperties h]
      · simp only [rule, Rules.get, if_pos h]
  | has =>
      rcases hlookup with h | h
      · simp only [rule, Rules.has, hproperties h]
      · simp only [rule, Rules.has, if_pos h]
  | _ => rfl

namespace Expr

variable {s s' : Scene}

/-- A call evaluates alike in two scenes that agree on what the function reads, provided that its
arguments do. -/
theorem eval_call_congr {p : Path} {t : Ty} {fn : Builtin} {args : List Expr}
    (h : s.AlikeFor s' (.call p t fn args)) (hargs : evalEach s args = evalEach s' args) :
    eval s (.call p t fn args) = eval s' (.call p t fn args) := by
  simp only [eval]
  rw [hargs]
  by_cases hcount : args.length = 0
  · -- without arguments there is no name to look up
    rw [List.eq_nil_of_length_eq_zero hcount]
    cases fn with
    | zoom => simp only [Builtin.rule, h.zoom rfl]
    | properties => simp only [Builtin.rule, h.properties rfl]
    | _ => rfl
  · rw [fn.rule_congr hcount h.properties h.zoom]

theorem evalEach_congr {es : List Expr} (h : ∀ e ∈ es, eval s e = eval s' e) :
    evalEach s es = evalEach s' es := by
  rw [evalEach_eq_map, evalEach_eq_map]
  exact List.map_congr_left h

theorem eval_congr (e : Expr) (h : ∀ n ∈ e.nodes, s.AlikeFor s' n) : eval s e = eval s' e := by
  induction e using children_induction with
  | node e ih =>
  have hself := h e (mem_nodes_self e)
  have hchild : ∀ d ∈ e.children, eval s d = eval s' d := fun d hd =>
    ih d hd fun n hn => h n (mem_nodes_of_child hd hn)
  cases e with
  | literal p t v => rfl
  | coalesce p t args =>
      have hargs : evalEach s args = evalEach s' args := evalEach_congr hchild
      simp only [eval, hargs]
  | select p t inputTy input table labels outputs otherwise =>
      obtain ⟨hinput, hrest⟩ := List.forall_mem_cons.1 hchild
      obtain ⟨houtputs, hotherwise⟩ := List.forall_mem_append.1 hrest
      simp only [eval, hinput, evalEach_congr houtputs, List.forall_mem_singleton.1 hotherwise]
  | curve p t kind input labels outputs =>
      obtain ⟨hinput, houtputs⟩ := List.forall_mem_cons.1 hchild
      simp only [eval, hinput, evalEach_congr houtputs, hself.interpolators]
  | letIn p names values body =>
      obtain ⟨hvalues, hbody⟩ := List.forall_mem_append.1 hchild
      simp only [eval, evalEach_congr hvalues, List.forall_mem_singleton.1 hbody]
  | var p t name => rfl
  | assertion p t inputs =>
      have hinputs : evalEach s inputs = evalEach s' inputs := evalEach_congr hchild
      simp only [eval, hinputs]
  | call p t fn args => exact eval_call_congr hself (evalEach_congr hchild)

theorem isFeatureConstant_iff {e : Expr} :
    e.isFeatureConstant = true ↔ ∀ n ∈ e.nodes, n.readsFeature = false := by
  simp [isFeatureConstant]

theorem isZoomConstant_iff {e : Expr} :
    e.isZoomConstant = true ↔ ∀ n ∈ e.nodes, n.readsZoom = false := by
  simp [isZoomConstant]

end Expr

/-! ## Compiled expressions -/

variable {j : Json} {expected : Option Ty} {interpolators : Interpolators} {c : Compiled}
  {easings easings' : EasingCache}

/-- Scenes in which the tree of a compiled expression evaluates alike give one outcome, whatever was
evaluated before each of them. -/
theorem evaluate_eq_of_eval (h : compile j expected interpolators = .ok c)
    (hleaves : c.Leaves easings) (hleaves' : c.Leaves easings') {zoom zoom' : Float}
    {properties properties' : Properties}
    (heval : c.root.eval ⟨zoom, properties, c.interpolators⟩ =
      c.root.eval ⟨zoom', properties', c.interpolators⟩) :
    (c.evaluate easings zoom properties).1 = (c.evaluate easings' zoom' properties').1 := by
  have hanswers := answers_root h zoom properties
  have hfirst := (hanswers ⟨[], easings⟩ rfl (hleaves.sound h)).1
  have hsecond := (hanswers ⟨[], easings'⟩ rfl (hleaves'.sound h)).1
  rw [heval] at hsecond
  exact hfirst.trans hsecond.symm

theorem evaluate_eq_of_alike (h : compile j expected interpolators = .ok c)
    (hleaves : c.Leaves easings) (hleaves' : c.Leaves easings') {zoom zoom' : Float}
    {properties properties' : Properties}
    (halike : ∀ n ∈ c.root.nodes, Scene.AlikeFor ⟨zoom, properties, c.interpolators⟩
      ⟨zoom', properties', c.interpolators⟩ n) :
    (c.evaluate easings zoom properties).1 = (c.evaluate easings' zoom' properties').1 :=
  evaluate_eq_of_eval h hleaves hleaves' (Expr.eval_congr c.root halike)

/-- What counts as constant is constant.  An expression that compiled and that no node reads the
feature in has one outcome, a value or an error, for all features at a zoom level; one that no node
reads the zoom level in has one for all zoom levels of a feature; and with neither there is a single
outcome.  Earlier evaluations do not matter. -/
theorem evaluate_eq_of_isConstant (h : compile j expected interpolators = .ok c)
    (hleaves : c.Leaves easings) (hleaves' : c.Leaves easings') :
    (c.isFeatureConstant = true → ∀ zoom properties properties',
      (c.evaluate easings zoom properties).1 = (c.evaluate easings' zoom properties').1) ∧
    (c.isZoomConstant = true → ∀ zoom zoom' properties,
      (c.evaluate easings zoom properties).1 = (c.evaluate easings' zoom' properties).1) ∧
    (c.isFeatureConstant = true → c.isZoomConstant = true → ∀ zoom zoom' properties properties',
      (c.evaluate easings zoom properties).1 = (c.evaluate easings' zoom' properties').1) := by
  refine ⟨fun hfeature zoom properties properties' => ?_, fun hzoom zoom zoom' properties => ?_,
    fun hfeature hzoom zoom zoom' properties properties' => ?_⟩
  · refine evaluate_eq_of_alike h hleaves hleaves' fun n hn => ⟨rfl, fun hreads => ?_, fun _ => rfl⟩
    exact absurd (Expr.isFeatureConstant_iff.1 hfeature n hn) (ne_false_of_eq_true hreads)
  · refine evaluate_eq_of_alike h hleaves hleaves' fun n hn => ⟨rfl, fun _ => rfl, fun hreads => ?_⟩
    exact absurd (Expr.isZoomConstant_iff.1 hzoom n hn) (ne_false_of_eq_true hreads)
  · refine evaluate_eq_of_alike h hleaves hleaves' fun n hn =>
      ⟨rfl, fun hreads => ?_, fun hreads => ?_⟩
    · exact absurd (Expr.isFeatureConstant_iff.1 hfeature n hn) (ne_false_of_eq_true hreads)
    · exact absurd (Expr.isZoomConstant_iff.1 hzoom n hn) (ne_false_of_eq_true hreads)

/-- A property of an object that is written down: `get`, but not of the feature. -/
def writtenDown : Compiled :=
  ⟨.letIn [] ["a"] [.literal [2] .object (.object [("k", .string "x")])]
    (.call [3] .value .get [.literal [3, 1] .string (.string "k"), .var [3, 2] .object "a"]),
    .standard⟩

theorem evaluate_writtenDown :
    compile (.call "let" [.str "a", .call "literal" [.obj [("k", .str "x")]],
        .call "get" [.str "k", .call "var" [.str "a"]]]) none .standard = .ok writtenDown ∧
      writtenDown.isFeatureConstant = true ∧ writtenDown.isZoomConstant = true ∧
      ∀ zoom zoom' properties properties', (writtenDown.evaluate .empty zoom properties).1 =
        (writtenDown.evaluate (writtenDown.evaluate .empty 0 []).2 zoom' properties').1 := by
  have h : compile (.call "let" [.str "a", .call "literal" [.obj [("k", .str "x")]],
      .call "get" [.str "k", .call "var" [.str "a"]]]) none .standard = .ok writtenDown := rfl
  exact ⟨h, rfl, rfl, (evaluate_eq_of_isConstant h .start (.again 0 [] .start)).2.2 rfl rfl⟩

end MapStyle

/-
# `MapStyle.Proofs.Style.ZoomCurve` — how the zoom level enters a style function

A style function that depends on the zoom level has exactly one curve over it along the arguments of
`coalesce` and the bodies of `let` (`ZoomCurve.find_eq_ok`).  That is all that creation checks: the
zoom level may be read beside the curve as well, so the zoom stops need not determine the function
(`evaluate_zoomBesideCurve`).

Where it is read nowhere else, they do.  Two zooms that stand at the same place among the labels
cannot be told apart, whatever the rest of the expression is (`Expr.eval_eq_of_samePlace`).
-/
import MapStyle.Proofs.Curve.Places
import MapStyle.Proofs.Eval.Constancy
import MapStyle.Proofs.Style.Create

namespace MapStyle

/-! ## Rules that ask for some operands only -/

namespace Rule

variable {α β : Type} {P : Nat → Prop}

theorem pure_bind (a : α) (f : α → Rule β) : (pure a >>= f) = f a := rfl

theorem fail_bind (e : EvalError) (f : α → Rule β) : (fail e >>= f) = fail e := rfl

/-- A rule asks for operands in `P` only. -/
def Asks (P : Nat → Prop) : Rule α → Prop
  | done _ => True
  | ask i next => P i ∧ ∀ r, Asks P (next r)
  | ease _ next => ∀ easing, Asks P (next easing)

theorem Asks.bind {rule : Rule α} {f : α → Rule β} (h : rule.Asks P) (hf : ∀ a, (f a).Asks P) :
    (rule >>= f).Asks P := by
  induction rule with
  | done r =>
      cases r with
      | ok a => exact hf a
      | error e => trivial
  | ask i next ih => exact ⟨h.1, fun r => ih r (h.2 r)⟩
  | ease p next ih => exact fun easing => ih easing (h easing)

theorem asks_operand {i : Nat} (h : P i) : (operand i).Asks P := ⟨h, fun _ => trivial⟩

theorem asks_progress (kind : Interpolation) (input lower upper : Float) :
    (Curve.progress kind input lower upper).Asks P := by
  cases kind with
  | cubicBezier p => exact fun _ => trivial
  | _ => trivial

theorem asks_label (labels : List Float) (i : Nat) : (Curve.label labels i).Asks P := by
  rw [Curve.label]
  split <;> trivial

theorem asks_value (interpolators : Interpolators) (labels : List Float) (kind : Interpolation)
    (t : Ty) {output : Nat → Rule Value} (h : ∀ i, (output i).Asks P) (input : Float) :
    (Curve.value interpolators labels kind t output input).Asks P := by
  rw [Curve.value]
  split
  · trivial
  · exact h _
  · split
    · exact h _
    · refine (asks_label labels _).bind fun lower => (asks_label labels _).bind fun upper => ?_
      refine (asks_progress kind input lower upper).bind fun x => ?_
      exact (h _).bind fun a => (h _).bind fun b => trivial

/-- Operands that a rule does not ask for do not matter. -/
theorem Asks.run_congr {rule : Rule α} (h : rule.Asks P)
    {operands operands' : List (Evaluation Value)}
    (hoperands : ∀ i, P i → operands[i]? = operands'[i]?) :
    rule.run operands = rule.run operands' := by
  funext st
  induction rule generalizing st with
  | done r => rfl
  | ask i next ih =>
      rw [run, run, ← hoperands i h.1]
      split
      · exact ih _ (h.2 _) _
      · rfl
  | ease p next ih => exact ih _ (h _) _

end Rule

/-! ## The search -/

namespace ZoomCurve

mutual

/-- The curves over the zoom level along an expression: the expression itself, or those along the
arguments of a `coalesce` or the body of a `let`. -/
def along : Expr → List ZoomCurve
  | .curve p t interpolation input labels outputs =>
    if input.isCallOf .zoom then [⟨p, t, interpolation, labels, outputs⟩] else []
  | .letIn _ _ _ body => along body
  | .coalesce _ _ args => alongEach args
  | _ => []

/-- The curves over the zoom level along some expressions, in order. -/
def alongEach : List Expr → List ZoomCurve
  | [] => []
  | e :: es => along e ++ alongEach es

end

theorem pure_eq_ok {o r : Option ZoomCurve} :
    (pure o : Except ConfigError (Option ZoomCurve)) = .ok r ↔ o.toList = r.toList := by
  cases o <;> cases r <;> simp [pure, Except.pure]

theorem merge_eq_ok {found next r : Option ZoomCurve} :
    merge found next = .ok r ↔ found.toList ++ next.toList = r.toList := by
  cases found with
  | none => exact pure_eq_ok
  | some c =>
      cases next with
      | none => exact pure_eq_ok
      | some d => cases r <;> exact iff_of_false (fun h => nomatch h) (fun h => by simp at h)

theorem exists_toList {α : Type} {l : List α} (h : l.length ≤ 1) :
    ∃ o : Option α, l = o.toList := by
  match l with
  | [] => exact ⟨none, rfl⟩
  | [a] => exact ⟨some a, rfl⟩
  | a :: b :: l => simp at h

theorem findAmong_eq_ok {es : List Expr}
    (ih : ∀ e ∈ es, ∀ r, find e = .ok r ↔ along e = r.toList) {found r : Option ZoomCurve} :
    findAmong found es = .ok r ↔ found.toList ++ alongEach es = r.toList := by
  induction es generalizing found with
  | nil =>
      rw [findAmong, alongEach, List.append_nil]
      exact pure_eq_ok
  | cons e es ihes =>
      obtain ⟨ihe, ihrest⟩ := List.forall_mem_cons.1 ih
      rw [findAmong, alongEach, Except.bind_eq_ok]
      constructor
      · rintro ⟨next, hnext, hrest⟩
        obtain ⟨both, hboth, hrest⟩ := Except.bind_eq_ok.1 hrest
        rw [(ihe next).1 hnext, ← List.append_assoc, merge_eq_ok.1 hboth]
        exact (ihes ihrest).1 hrest
      · intro h
        have hlen := congrArg List.length h
        have hone : r.toList.length ≤ 1 := by cases r <;> simp
        simp only [List.length_append] at hlen
        obtain ⟨next, hnext⟩ := exists_toList (l := along e) (by omega)
        obtain ⟨both, hboth⟩ := exists_toList (l := found.toList ++ along e) (by
          rw [List.length_append]
          omega)
        refine ⟨next, (ihe next).2 hnext, Except.bind_eq_ok.2 ⟨both, ?_, ?_⟩⟩
        · rw [merge_eq_ok, ← hnext, hboth]
        · rw [ihes ihrest, ← hboth, List.append_assoc, h]

/-- A search succeeds when there is at most one curve along the expression, with that curve. -/
theorem find_eq_ok (e : Expr) : ∀ r, find e = .ok r ↔ along e = r.toList := by
  induction e using Expr.tree_induction with
  | coalesce p t args ih =>
      intro r
      rw [find, along, findAmong_eq_ok ih]
      rfl
  | curve p t kind input labels outputs _ _ =>
      intro r
      rw [find, along, pure_eq_ok]
      split <;> rfl
  | letIn p names values body _ ihbody => exact ihbody
  | _ => exact fun r => pure_eq_ok

theorem alongEach_eq_flatMap (es : List Expr) : alongEach es = es.flatMap along := by
  induction es with
  | nil => rfl
  | cons e es ih => rw [alongEach, ih, List.flatMap_cons]

/-- The node of a zoom curve with an input. -/
def node (curve : ZoomCurve) (input : Expr) : Expr :=
  .curve curve.path curve.ty curve.interpolation input curve.labels curve.outputs

theorem formed_of_along {interpolators : Interpolators} (e : Expr) {types : List (String × Ty)}
    {expected : Option Ty} (h : e.Formed interpolators types expected) :
    ∀ curve ∈ along e, ∃ input types expected, input.isCallOf .zoom = true ∧
      curve.node input ∈ e.nodes ∧ (curve.node input).Formed interpolators types expected := by
  induction e using Expr.tree_induction generalizing types expected with
  | coalesce p t args ih =>
      intro curve hcurve
      rw [along, alongEach_eq_flatMap] at hcurve
      obtain ⟨a, ha, hcurve⟩ := List.mem_flatMap.1 hcurve
      obtain ⟨_, hformed⟩ := h.1.each a ha
      obtain ⟨input, types, expected, hinput, hnode, hformed⟩ := ih a ha hformed curve hcurve
      exact ⟨input, types, expected, hinput, Expr.mem_nodes_of_child ha hnode, hformed⟩
  | curve p t kind input labels outputs _ _ =>
      intro curve hcurve
      rw [along] at hcurve
      split at hcurve
      · rename_i hinput
        cases List.mem_singleton.1 hcurve
        exact ⟨input, types, expected, hinput, Expr.mem_nodes_self _, h⟩
      · cases hcurve
  | letIn p names values body _ ihbody =>
      intro curve hcurve
      obtain ⟨input, types, expected, hinput, hnode, hformed⟩ := ihbody h.2.1 curve hcurve
      have hbody : body ∈ (Expr.letIn p names values body).children :=
        List.mem_append_right _ (List.mem_singleton_self body)
      exact ⟨input, types, expected, hinput, Expr.mem_nodes_of_child hbody hnode, hformed⟩
  | _ =>
      intro curve hcurve
      cases hcurve

theorem labels_of_along {interpolators : Interpolators} (e : Expr) {types : List (String × Ty)}
    {expected : Option Ty} (h : e.Formed interpolators types expected) :
    ∀ curve ∈ along e, StopsFollow none curve.labels ∧ curve.labels ≠ [] := by
  intro curve hcurve
  obtain ⟨_, _, _, _, _, _, _, _, _, hne, hlabels, _⟩ := formed_of_along e h curve hcurve
  exact ⟨hlabels, hne⟩

/-! ## Places -/

/-- Two zoom levels stand at the same place of a curve: at the same stop, and, where outputs are
blended, at the same fraction towards the next one. -/
structure SamePlace (curve : ZoomCurve) (zoom zoom' : Float) : Prop where
  index : stopIndex curve.labels zoom = stopIndex curve.labels zoom'
  place : curve.interpolation.isStep = false →
    Curve.locate curve.labels zoom = Curve.locate curve.labels zoom'
  progress : curve.interpolation.isStep = false → ∀ lower upper,
    curve.labels[stopIndex curve.labels zoom]? = some lower →
    curve.labels[stopIndex curve.labels zoom + 1]? = some upper →
    Curve.progress curve.interpolation zoom lower upper =
      Curve.progress curve.interpolation zoom' lower upper

variable {curve : ZoomCurve} {zoom zoom' : Float}

/-- A curve asks the same of its outputs at zoom levels that stand at the same place. -/
theorem SamePlace.value (h : curve.SamePlace zoom zoom') (hlabels : StopsFollow none curve.labels)
    (hne : curve.labels ≠ []) (interpolators : Interpolators) (output : Nat → Rule Value) :
    Curve.value interpolators curve.labels curve.interpolation curve.ty output zoom =
      Curve.value interpolators curve.labels curve.interpolation curve.ty output zoom' := by
  cases hstep : curve.interpolation.isStep with
  | true =>
      have hkind : curve.interpolation = .step := by
        cases hkind : curve.interpolation with
        | step => rfl
        | _ => rw [hkind] at hstep; cases hstep
      rw [hkind, Curve.value_step _ _ _ hlabels hne, Curve.value_step _ _ _ hlabels hne, h.index]
  | false =>
      rw [Curve.value, Curve.value, ← h.place hstep]
      rcases Curve.locate_eq hlabels hne zoom with hplace | hplace
      · rw [hplace]
      · rw [hplace, hstep]
        simp only [Curve.label]
        cases hlower : curve.labels[stopIndex curve.labels zoom]? with
        | none => simp only [Rule.fail_bind]
        | some lower =>
            cases hupper : curve.labels[stopIndex curve.labels zoom + 1]? with
            | none => simp only [Rule.pure_bind, Rule.fail_bind]
            | some upper => simp only [Rule.pure_bind, h.progress hstep lower upper hlower hupper]

/-- At a curve that does not blend, every zoom level stands at the place of one of the labels. -/
theorem samePlace_label (hkind : curve.interpolation = .step)
    (hlabels : StopsFollow none curve.labels) {label : Float}
    (hlabel : curve.labels[stopIndex curve.labels zoom]? = some label) :
    curve.SamePlace zoom label := by
  refine ⟨(hlabels.stopIndex_label hlabel).symm, fun hstep => ?_, fun hstep => ?_⟩
  · rw [hkind] at hstep
    cases hstep
  · rw [hkind] at hstep
    cases hstep

end ZoomCurve

/-! ## Expressions that read the zoom level once -/

namespace Expr

/-- How often the nodes of some trees look at the zoom level. -/
def zoomReads (es : List Expr) : Nat := (nodesOf es).countP readsZoom

theorem zoomReads_cons (e : Expr) (es : List Expr) :
    zoomReads (e :: es) = zoomReads [e] + zoomReads es := by
  simp [zoomReads, nodesOf_eq_flatMap]

theorem zoomReads_append (es ds : List Expr) :
    zoomReads (es ++ ds) = zoomReads es + zoomReads ds := by
  simp [zoomReads, nodesOf_eq_flatMap]

/-- What the nodes of a tree read is what the root and the nodes below it read. -/
theorem zoomReads_node (e : Expr) :
    zoomReads [e] = zoomReads e.children + if e.readsZoom then 1 else 0 := by
  rw [zoomReads, nodesOf, nodesOf, List.append_nil, nodes_eq, List.countP_cons]
  rfl

variable {zoom zoom' : Float} {properties : Properties} {interpolators : Interpolators}

/-- Trees that do not read the zoom level evaluate alike at all zoom levels. -/
theorem eval_eq_of_zoomReads {es : List Expr} (h : zoomReads es = 0) :
    ∀ e ∈ es, eval ⟨zoom, properties, interpolators⟩ e =
      eval ⟨zoom', properties, interpolators⟩ e := by
  intro e he
  refine eval_congr e fun n hn => ⟨rfl, fun _ => rfl, fun hreads => ?_⟩
  exact absurd hreads (List.countP_eq_zero.1 h n (mem_nodesOf he hn))

theorem eq_call_of_isCallOf {e : Expr} {fn : Builtin} (h : e.isCallOf fn = true) :
    ∃ p t args, e = .call p t fn args := by
  cases e with
  | call p t g args =>
      cases beq_iff_eq.1 h
      exact ⟨p, t, args, rfl⟩
  | _ => cases h

theorem zoomReads_of_isCallOf {e : Expr} (h : e.isCallOf .zoom = true) : 1 ≤ zoomReads [e] := by
  obtain ⟨p, t, args, rfl⟩ := eq_call_of_isCallOf h
  rw [zoomReads_node]
  exact Nat.le_add_left _ _

theorem zoomReads_of_alongEach {es : List Expr}
    (h : ∀ e ∈ es, (ZoomCurve.along e).length ≤ zoomReads [e]) :
    (ZoomCurve.alongEach es).length ≤ zoomReads es := by
  induction es with
  | nil => exact Nat.le_refl 0
  | cons e es ih =>
      obtain ⟨he, hes⟩ := List.forall_mem_cons.1 h
      rw [ZoomCurve.alongEach, List.length_append, zoomReads_cons]
      exact Nat.add_le_add he (ih hes)

theorem zoomReads_of_along (e : Expr) :
    (ZoomCurve.along e).length ≤ zoomReads [e] := by
  induction e using tree_induction with
  | coalesce p t args ih =>
      rw [ZoomCurve.along, zoomReads_node]
      exact zoomReads_of_alongEach ih
  | curve p t kind input labels outputs _ _ =>
      rw [ZoomCurve.along, zoomReads_node]
      split
      · rename_i hzoom
        have := zoomReads_of_isCallOf hzoom
        rw [children, zoomReads_cons, List.length_singleton]
        omega
      · exact Nat.zero_le _
  | letIn p names values body _ ihbody =>
      rw [ZoomCurve.along, zoomReads_node, children, zoomReads_append]
      omega
  | _ => exact Nat.zero_le _

/-- The zoom level decides only what a curve over it asks of its outputs. -/
theorem eval_curve {p : Path} {t : Ty} {kind : Interpolation} {input : Expr} {labels : List Float}
    {outputs : List Expr} (hinput : input.isCallOf .zoom = true) (scene : Scene) :
    eval scene (.curve p t kind input labels outputs) =
      (Curve.value scene.interpolators labels kind t (fun i => Rule.operand (i + 1))
        scene.zoom).run (eval scene input :: evalEach scene outputs) := by
  obtain ⟨p', t', args, rfl⟩ := eq_call_of_isCallOf hinput
  rfl

/-- Of some trees that read the zoom level once, only the one with the curve along it does. -/
theorem eval_eq_of_alongEach {curve : ZoomCurve} {es : List Expr}
    (ih : ∀ e ∈ es, ZoomCurve.along e = [curve] → zoomReads [e] = 1 →
      eval ⟨zoom, properties, interpolators⟩ e = eval ⟨zoom', properties, interpolators⟩ e)
    (halong : ZoomCurve.alongEach es = [curve]) (hone : zoomReads es = 1) :
    ∀ e ∈ es, eval ⟨zoom, properties, interpolators⟩ e =
      eval ⟨zoom', properties, interpolators⟩ e := by
  induction es with
  | nil => cases halong
  | cons e es ihes =>
      obtain ⟨ihe, ihrest⟩ := List.forall_mem_cons.1 ih
      have hfirst := zoomReads_of_along e
      have hrest := zoomReads_of_alongEach fun d (_ : d ∈ es) => zoomReads_of_along d
      rw [zoomReads_cons] at hone
      rcases List.append_eq_singleton_iff.1 halong with ⟨_, hcurve⟩ | ⟨hcurve, _⟩
      · rw [hcurve, List.length_singleton] at hrest
        have hnone : zoomReads [e] = 0 := by omega
        refine List.forall_mem_cons.2 ⟨?_, ihes ihrest hcurve (by omega)⟩
        exact eval_eq_of_zoomReads hnone e List.mem_cons_self
      · rw [hcurve, List.length_singleton] at hfirst
        have hnone : zoomReads es = 0 := by omega
        exact List.forall_mem_cons.2 ⟨ihe hcurve (by omega), eval_eq_of_zoomReads hnone⟩

/-- Where a curve along a tree has the only input that reads the zoom level, two zoom levels at the
same place of the curve make no difference. -/
theorem eval_eq_of_samePlace {curve : ZoomCurve} (hplace : curve.SamePlace zoom zoom')
    (hlabels : StopsFollow none curve.labels) (hne : curve.labels ≠ []) (e : Expr)
    (halong : ZoomCurve.along e = [curve]) (hone : zoomReads [e] = 1) :
    eval ⟨zoom, properties, interpolators⟩ e = eval ⟨zoom', properties, interpolators⟩ e := by
  induction e using tree_induction with
  | coalesce p t args ih =>
      rw [ZoomCurve.along] at halong
      rw [zoomReads_node] at hone
      have hargs := eval_eq_of_alongEach ih halong hone
      rw [eval, eval, evalEach_congr hargs]
  | curve p t kind input labels outputs _ _ =>
      rw [ZoomCurve.along] at halong
      split at halong
      · rename_i hinput
        cases halong
        rw [zoomReads_node, children, zoomReads_cons] at hone
        have hreads := zoomReads_of_isCallOf hinput
        have houtputs : zoomReads outputs = 0 := by omega
        rw [eval_curve hinput, eval_curve hinput, hplace.value hlabels hne,
          evalEach_congr (eval_eq_of_zoomReads houtputs)]
        have hasks := Rule.asks_value (P := (0 < ·)) interpolators labels kind t
          (fun i => Rule.asks_operand i.succ_pos) zoom'
        -- the inputs differ, but a curve whose zoom level is known asks for outputs only
        refine hasks.run_congr fun i hi => ?_
        cases i with
        | zero => exact absurd hi (Nat.lt_irrefl 0)
        | succ i => rfl
      · cases halong
  | letIn p names values body _ ihbody =>
      rw [ZoomCurve.along] at halong
      rw [zoomReads_node, children, zoomReads_append] at hone
      have hbody := zoomReads_of_along body
      rw [halong, List.length_singleton] at hbody
      -- the one node that reads the zoom level is in the body, so the values read none
      have hvalues : zoomReads values = 0 := by omega
      rw [eval, eval, evalEach_congr (eval_eq_of_zoomReads hvalues), ihbody halong (by omega)]
  | _ => cases halong

end Expr

/-! ## Style functions -/

namespace StyleFunction

variable {definition : Json} {spec : PropertySpec} {interpolators : Interpolators}
  {f : StyleFunction}

theorem labels_of_compile {j : Json} {expected : Option Ty} {curve : ZoomCurve}
    (h : compile j expected interpolators = .ok f.compiled)
    (halong : ZoomCurve.along f.compiled.root = [curve]) :
    StopsFollow none curve.labels ∧ curve.labels ≠ [] := by
  obtain ⟨_, hformed, _⟩ := formed_of_compile h
  refine ZoomCurve.labels_of_along _ hformed curve ?_
  rw [halong]
  exact List.mem_singleton_self curve

/-- Zoom levels at the same place of the curve that is all that reads the zoom level have one
outcome, whatever was evaluated before. -/
theorem evaluate_eq_of_samePlace {j : Json} {expected : Option Ty} {curve : ZoomCurve}
    (h : compile j expected interpolators = .ok f.compiled)
    (halong : ZoomCurve.along f.compiled.root = [curve])
    (hone : Expr.zoomReads [f.compiled.root] = 1) {easings easings' : EasingCache}
    (hleaves : f.compiled.Leaves easings) (hleaves' : f.compiled.Leaves easings')
    {zoom zoom' : Float} (hplace : curve.SamePlace zoom zoom') (properties : Properties) :
    (f.evaluate easings zoom properties).1 = (f.evaluate easings' zoom' properties).1 := by
  obtain ⟨hlabels, hne⟩ := labels_of_compile h halong
  have heval : f.compiled.root.eval ⟨zoom, properties, f.compiled.interpolators⟩ =
      f.compiled.root.eval ⟨zoom', properties, f.compiled.interpolators⟩ :=
    Expr.eval_eq_of_samePlace hplace hlabels hne _ halong hone
  have houtcome := evaluate_eq_of_eval h hleaves hleaves' heval
  exact congrArg (Except.map fun v : Value => if v.isNull then none else some v) houtcome

/-- A style function that depends on the zoom level has one zoom curve, whose labels are its stops;
where that curve is all that reads the zoom level, nothing but the place of a zoom level along it
matters, and for a curve that does not blend the function is known from its values at the stops. -/
theorem zoomCurve_of_create (h : create definition spec interpolators = .ok f)
    (hzoom : f.compiled.isZoomConstant = false) :
    ∃ curve sampling, ZoomCurve.find f.compiled.root = .ok (some curve) ∧
      ZoomCurve.along f.compiled.root = [curve] ∧ f.sampling = some sampling ∧
      sampling.stops = curve.labels ∧
      (Expr.zoomReads [f.compiled.root] = 1 → ∀ easings easings', f.compiled.Leaves easings →
        f.compiled.Leaves easings' → ∀ zoom properties,
        (∀ zoom', curve.SamePlace zoom zoom' → (f.evaluate easings zoom properties).1 =
          (f.evaluate easings' zoom' properties).1) ∧
        (curve.interpolation = .step → ∃ stop ∈ sampling.stops,
          (f.evaluate easings zoom properties).1 =
            (f.evaluate easings' stop properties).1)) := by
  obtain ⟨j, _, hcompile, ⟨hconstant, _⟩ | ⟨_, s, hs, hsampling⟩⟩ := create_eq_ok.1 h
  · rw [hzoom] at hconstant
    cases hconstant
  obtain ⟨curve, hfind, hstops, _⟩ := sample_eq_ok.1 hs
  have halong : ZoomCurve.along f.compiled.root = [curve] := (ZoomCurve.find_eq_ok _ _).1 hfind
  refine ⟨curve, s, hfind, halong, hsampling, hstops, ?_⟩
  intro hone easings easings' hleaves hleaves' zoom properties
  refine ⟨fun zoom' hplace => ?_, fun hkind => ?_⟩
  · exact evaluate_eq_of_samePlace hcompile halong hone hleaves hleaves' hplace properties
  · obtain ⟨hlabels, hne⟩ := labels_of_compile hcompile halong
    have hlabel := List.getElem?_eq_getElem (hlabels.stopIndex_lt hne zoom)
    -- the label of the stop that the zoom level stands at is at the same place
    have hplace := ZoomCurve.samePlace_label hkind hlabels hlabel
    rw [hstops]
    refine ⟨_, List.mem_of_getElem? hlabel, ?_⟩
    exact evaluate_eq_of_samePlace hcompile halong hone hleaves hleaves' hplace properties

/-- Two steps over the zoom level. -/
def twoSteps : Json := .ofMembers [("expression",
  .call "curve" [.call "step" [], .call "zoom" [], .ofNat 0, .ofNat 1, .ofNat 10, .ofNat 5])]

theorem evaluate_twoSteps :
    ∃ f sampling, create twoSteps ⟨.number, none⟩ .standard = .ok f ∧
      f.compiled.isZoomConstant = false ∧ f.sampling = some sampling ∧
      ∀ zoom properties, ∃ stop ∈ sampling.stops,
        (f.evaluate .empty zoom properties).1 = (f.evaluate .empty stop properties).1 := by
  obtain ⟨f, h, hzoom, hone, halong⟩ : ∃ f, create twoSteps ⟨.number, none⟩ .standard = .ok f ∧
      f.compiled.isZoomConstant = false ∧ Expr.zoomReads [f.compiled.root] = 1 ∧
      (ZoomCurve.along f.compiled.root).map (·.interpolation) = [.step] :=
    ⟨_, rfl, rfl, rfl, rfl⟩
  obtain ⟨curve, sampling, _, hcurve, hsampling, _, hvalues⟩ := zoomCurve_of_create h hzoom
  rw [hcurve] at halong
  refine ⟨f, sampling, h, hzoom, hsampling, fun zoom properties => ?_⟩
  exact (hvalues hone _ _ .start .start zoom properties).2 (List.singleton_inj.1 halong)

/-- The zoom level itself, and else a curve over it. -/
def zoomBesideCurve : Json := .ofMembers [("expression", .call "coalesce" [.call "zoom" [],
  .call "curve" [.call "step" [], .call "zoom" [], .ofNat 0, .ofNat 1, .ofNat 10, .ofNat 5]])]

/-- A zoom curve does not keep the zoom level from being read beside it: here two stops are
announced, and the function is the zoom level itself. -/
theorem evaluate_zoomBesideCurve :
    ∃ f curve, create zoomBesideCurve ⟨.number, none⟩ .standard = .ok f ∧
      f.compiled.isZoomConstant = false ∧
      ZoomCurve.find f.compiled.root = .ok (some curve) ∧
      Expr.zoomReads [f.compiled.root] = 2 ∧ f.sampling.map (·.stops) = some [0, 10] ∧
      ∀ zoom, (f.evaluate .empty zoom []).1 = .ok (some (.number zoom)) := by
  refine ⟨_, _, rfl, rfl, rfl, rfl, ?_, fun zoom => rfl⟩
  decide

end StyleFunction
end MapStyle

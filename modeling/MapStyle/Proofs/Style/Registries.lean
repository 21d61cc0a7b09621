/-
# `MapStyle.Proofs.Style.Registries` — what the registry decides about the zoom level

A document may check to different trees for different interpolators: a call takes the first
signature that its arguments fit, and what fits depends on what can be blended.  How the trees read
the zoom level does not depend on that.  Whatever a document checks to, in whatever context, has the
same number of zoom reads and the same zoom curves along it, types and outputs aside (`Twins`).

The position along a zoom curve is an expression of numbers that is checked for the same registry.
So the registry decides after all whether there is a style function, and what positions it gives:
by its blend of numbers, even where numbers are none of the outputs
(`StyleFunction.not_created_without_numbers`).
-/
import MapStyle.Proofs.Style.Position
import MapStyle.Proofs.Wire.Parts

namespace MapStyle

open Reporting Typing

/-! ## Trees of one document -/

/-- What the registry does not change about a zoom curve. -/
def ZoomCurve.frame (curve : ZoomCurve) : Interpolation × List Float :=
  (curve.interpolation, curve.labels)

namespace Expr

/-- Two trees read the zoom level equally often, and the zoom curves along them have the same labels
and interpolations. -/
structure Twins (e e' : Expr) : Prop where
  reads : zoomReads [e] = zoomReads [e']
  curves : (ZoomCurve.along e).map ZoomCurve.frame = (ZoomCurve.along e').map ZoomCurve.frame

variable {expected : Option Ty} {d e e' : Expr} {es es' : List Expr}

theorem zoomReads_of_twins (h : List.Forall₂ Twins es es') : zoomReads es = zoomReads es' := by
  induction h with
  | nil => rfl
  | @cons e e' es es' he _ ih => rw [zoomReads_cons e es, zoomReads_cons e' es', he.reads, ih]

theorem along_of_twins (h : List.Forall₂ Twins es es') :
    (ZoomCurve.alongEach es).map ZoomCurve.frame =
      (ZoomCurve.alongEach es').map ZoomCurve.frame := by
  induction h with
  | nil => rfl
  | cons he _ ih =>
      rw [ZoomCurve.alongEach, ZoomCurve.alongEach, List.map_append, List.map_append, he.curves, ih]

/-- Nodes that no zoom curve lies along are twins if they read the zoom level alike, themselves and
below. -/
theorem twins_of_children (hroot : e.readsZoom = e'.readsZoom)
    (hchildren : List.Forall₂ Twins e.children e'.children) (h : ZoomCurve.along e = [])
    (h' : ZoomCurve.along e' = []) : e.Twins e' := by
  refine ⟨?_, by rw [h, h']⟩
  rw [zoomReads_node, zoomReads_node e', hroot, zoomReads_of_twins hchildren]

theorem zoomReads_of_conforms (h : Conforms expected d e) : zoomReads [e] = zoomReads [d] := by
  cases h with
  | kept => rfl
  | colored =>
      rw [zoomReads_node]
      rfl
  | asserted =>
      rw [zoomReads_node]
      rfl

/-- A tree with a zoom curve along it is of the right type, so nothing is put around it. -/
theorem along_of_conforms (h : Conforms expected d e)
    (hd : ZoomCurve.along d = [] ∨ Admits expected d.ty) :
    ZoomCurve.along e = ZoomCurve.along d := by
  rcases hd with hd | hd
  · cases h with
    | kept => rfl
    | colored => rw [hd]; rfl
    | asserted => rw [hd]; rfl
  · rw [h.eq_of_admits hd]

theorem Twins.conforms {d' : Expr} {expected' : Option Ty} (h : d.Twins d')
    (he : Conforms expected d e) (he' : Conforms expected' d' e')
    (hd : ZoomCurve.along d = [] ∨ Admits expected d.ty)
    (hd' : ZoomCurve.along d' = [] ∨ Admits expected' d'.ty) : e.Twins e' := by
  constructor
  · rw [zoomReads_of_conforms he, zoomReads_of_conforms he', h.reads]
  · rw [along_of_conforms he hd, along_of_conforms he' hd', h.curves]

end Expr

/-! ## Parts of documents -/

namespace Typing

/-- In some context, a document checks to a tree. -/
def Checks (j : Json) (e : Expr) : Prop := ∃ ctx, Elaborates ctx j e

variable {ctx ctx' : Context} {js : List Json} {es : List Expr}

theorem checks_of_each {param : Nat → Option Ty} {i : Nat} (h : Each ctx param i js es) :
    List.Forall₂ Checks js es := by
  induction h with
  | nil => exact .nil
  | cons hj _ ih => exact .cons ⟨_, hj⟩ ih

theorem checks_of_outputs {shared last : Option Ty} {k : Nat}
    (h : Steps (fun shared (arg, i) => Arg.checkOutput arg ctx i shared) shared
      ((js.map argOf).zipIdx k) last es) : List.Forall₂ Checks js es := by
  induction js generalizing k shared es with
  | nil =>
      cases h
      exact .nil
  | cons j js ih =>
      rcases h with _ | ⟨hstep, hsteps⟩
      exact .cons ⟨_, (clean_checkOutput.1 hstep).1⟩ (ih hsteps)

theorem checks_of_branches {seen last : BranchesSeen} {branches : List (Json × Json)}
    {checked : List (List Label × Expr)} {k : Nat}
    (h : Steps (nextBranch ctx) seen ((argPairs branches).zipIdx k) last checked) :
    List.Forall₂ Checks (branches.map (·.2)) (checked.map (·.2)) := by
  induction branches generalizing k seen checked with
  | nil =>
      cases h
      exact .nil
  | cons branch branches ih =>
      rcases h with _ | ⟨hstep, hsteps⟩
      obtain ⟨_, _, _, houtput, _⟩ := clean_nextBranch.1 hstep
      exact .cons ⟨_, houtput⟩ (ih hsteps)

theorem checks_of_stops {seen last : StopsSeen} {stops : List (Json × Json)}
    {checked : List (Float × Expr)} {k : Nat}
    (h : Steps (nextStop ctx) seen ((argPairs stops).zipIdx k) last checked) :
    stops.map (fun stop => stop.1.num?) = (checked.map (·.1)).map some ∧
      List.Forall₂ Checks (stops.map (·.2)) (checked.map (·.2)) := by
  induction stops generalizing k seen checked with
  | nil =>
      cases h
      exact ⟨rfl, .nil⟩
  | cons stop stops ih =>
      rcases h with _ | ⟨hstep, hsteps⟩
      obtain ⟨hlabel, _, houtput, _⟩ := clean_nextStop.1 hstep
      obtain ⟨hlabels, houtputs⟩ := ih hsteps
      exact ⟨List.cons_eq_cons.2 ⟨hlabel, hlabels⟩, .cons ⟨_, houtput⟩ houtputs⟩

theorem checks_of_bindings {bindings : List (Json × Json)} {bound : List (String × Expr)} {k : Nat}
    (h : Steps (bindIn ctx) () ((argPairs bindings).zipIdx k) () bound) :
    List.Forall₂ Checks (bindings.map (·.2)) (bound.map (·.2)) := by
  induction bindings generalizing k bound with
  | nil =>
      cases h
      exact .nil
  | cons binding bindings ih =>
      rcases h with _ | ⟨hstep, hsteps⟩
      obtain ⟨_, _, hvalue⟩ := clean_bindIn.1 hstep
      exact .cons ⟨_, hvalue⟩ (ih hsteps)

end Typing

/-! ## Two trees of one document -/

/-- All trees of a document are twins, and where a number is expected of both, they are the zoom
level itself or not together. -/
def Json.Twins (j : Json) : Prop :=
  ∀ ctx ctx' e e', Elaborates ctx j e → Elaborates ctx' j e' →
    e.Twins e' ∧ (ctx.expected = some .number → ctx'.expected = some .number →
      e.isCallOf .zoom = e'.isCallOf .zoom)

namespace Typing

variable {ctx ctx' : Context} {js : List Json} {es es' : List Expr} {d d' : Expr}

theorem twins_of_checks (h : List.Forall₂ Checks js es) (h' : List.Forall₂ Checks js es')
    (hjs : ∀ j ∈ js, j.Twins) : List.Forall₂ Expr.Twins es es' := by
  induction h generalizing es' with
  | nil =>
      cases h'
      exact .nil
  | cons hj _ ih =>
      obtain ⟨_, hj⟩ := hj
      obtain _ | ⟨⟨_, hj'⟩, hrest⟩ := h'
      obtain ⟨htwins, hjs⟩ := List.forall_mem_cons.1 hjs
      exact .cons (htwins _ _ _ _ hj hj').1 (ih hrest hjs)

theorem twins_of_pairs {α : Type} {rest : List Json} {pairs : List (Json × Json)}
    {extra : Option Json} (hpairs : inPairs rest = (pairs, extra)) (hrest : ∀ j ∈ rest, j.Twins)
    {checked checked' : List (α × Expr)}
    (h : List.Forall₂ Checks (pairs.map (·.2)) (checked.map (·.2)))
    (h' : List.Forall₂ Checks (pairs.map (·.2)) (checked'.map (·.2))) :
    List.Forall₂ Expr.Twins (checked.map (·.2)) (checked'.map (·.2)) := by
  refine twins_of_checks h h' fun j hj => ?_
  obtain ⟨p, hp, rfl⟩ := List.mem_map.1 hj
  exact hrest _ ((mem_of_inPairs hpairs).1 p hp).2

theorem forall₂_append_singleton (h : List.Forall₂ Expr.Twins es es') (hd : d.Twins d') :
    List.Forall₂ Expr.Twins (es ++ [d]) (es' ++ [d']) :=
  List.rel_append h (.cons hd .nil)

/-- Whether the input of a curve is the zoom level is settled by the document: where a number is
expected, nothing is put around the zoom level. -/
theorem isCallOf_zoom_of_conforms {e : Expr} (h : Conforms (some .number) d e)
    (hd : d.isCallOf .zoom = true → d.ty = .number) : e.isCallOf .zoom = d.isCallOf .zoom := by
  cases h with
  | kept => rfl
  | colored hcolor => cases hcolor
  | asserted _ hnot =>
      cases hzoom : d.isCallOf .zoom with
      | false => rfl
      | true =>
          refine absurd ?_ hnot
          rw [hd hzoom]
          exact admits_self .number

/-- What two runs of a form yield, before it is brought in line with the expected types. -/
def FormTwins (form : Form) : Prop :=
  ∀ (js : List Json) (ctx ctx' : Context) (d d' : Expr), (∀ j ∈ js, j.Twins) →
    Clean (form (js.map argOf) ctx) (some d) → Clean (form (js.map argOf) ctx') (some d') →
      d.Twins d' ∧ d.isCallOf .zoom = d'.isCallOf .zoom

theorem ty_of_isCallOf_zoom {form : Form} (hform : IsForm form)
    (h : Clean (form (js.map argOf) ctx) (some d)) (hzoom : d.isCallOf .zoom = true) :
    d.ty = .number := by
  obtain ⟨p, t, args, rfl⟩ := Expr.eq_call_of_isCallOf hzoom
  have hforms : ∀ j ∈ js, Forms j := fun j _ => Elaborates.formed j
  rcases hform.stands _ _ _ hforms h with ⟨_, rfl, _⟩ | ⟨_, _, rfl, _⟩ <;> rfl

theorem literal_twins : FormTwins literal := by
  intro js ctx ctx' d d' _ h h'
  obtain ⟨_, _, h⟩ := clean_literal.1 h
  obtain ⟨_, _, h'⟩ := clean_literal.1 h'
  obtain ⟨_, rfl⟩ := clean_literalOf.1 h
  obtain ⟨_, rfl⟩ := clean_literalOf.1 h'
  exact ⟨Expr.twins_of_children rfl .nil rfl rfl, rfl⟩

theorem coalesce_twins : FormTwins coalesce := by
  intro js ctx ctx' d d' ih h h'
  obtain ⟨_, es, hes, rfl⟩ := clean_coalesce.1 h
  obtain ⟨_, es', hes', rfl⟩ := clean_coalesce.1 h'
  have htwins := twins_of_checks (checks_of_outputs hes) (checks_of_outputs hes') ih
  refine ⟨⟨?_, Expr.along_of_twins htwins⟩, rfl⟩
  rw [Expr.zoomReads_node, Expr.zoomReads_node (.coalesce ..)]
  exact Expr.zoomReads_of_twins htwins

theorem select_twins : FormTwins select := by
  intro js ctx ctx' d d' ih h h'
  obtain ⟨_, input, rest, branches, last, rfl, hpairs, _, checked, e, otherwise, _, hbranches, _,
    he, hotherwise, rfl⟩ := clean_select.1 h
  obtain ⟨_, _, _, _, _, heq, hpairs', _, checked', e', otherwise', _, hbranches', _, he',
    hotherwise', rfl⟩ := clean_select.1 h'
  cases heq
  cases hpairs.symm.trans hpairs'
  obtain ⟨ihinput, ihrest⟩ := List.forall_mem_cons.1 ih
  have houtputs := twins_of_pairs hpairs ihrest (checks_of_branches hbranches)
    (checks_of_branches hbranches')
  have hlast := (ihrest _ ((mem_of_inPairs hpairs).2 _ rfl) _ _ _ _ hotherwise hotherwise').1
  refine ⟨Expr.twins_of_children rfl ?_ rfl rfl, rfl⟩
  exact .cons (ihinput _ _ _ _ he he').1 (forall₂_append_singleton houtputs hlast)

theorem curve_twins : FormTwins curve := by
  intro js ctx ctx' d d' ih h h'
  obtain ⟨_, description, input, rest, stops, rfl, hpairs, kind, e, _, checked, hkind, he, hstops,
    _, rfl⟩ := clean_curve.1 h
  obtain ⟨_, _, _, _, _, heq, hpairs', kind', e', _, checked', hkind', he', hstops', _, rfl⟩ :=
    clean_curve.1 h'
  cases heq
  cases hpairs.symm.trans hpairs'
  cases hkind.unique hkind'
  obtain ⟨_, ih⟩ := List.forall_mem_cons.1 ih
  obtain ⟨ihinput, ihrest⟩ := List.forall_mem_cons.1 ih
  obtain ⟨hlabels, houtputs⟩ := checks_of_stops hstops
  obtain ⟨hlabels', houtputs'⟩ := checks_of_stops hstops'
  have hsame : checked.map (·.1) = checked'.map (·.1) :=
    List.map_injective_iff.2 (Option.some_injective _) (hlabels.symm.trans hlabels')
  obtain ⟨hinput, hzoom⟩ := ihinput _ _ _ _ he he'
  have houtputs := twins_of_pairs hpairs ihrest houtputs houtputs'
  refine ⟨⟨?_, ?_⟩, rfl⟩
  · rw [Expr.zoomReads_node, Expr.zoomReads_node (.curve ..)]
    exact Expr.zoomReads_of_twins (.cons hinput houtputs)
  · rw [ZoomCurve.along, ZoomCurve.along, hzoom rfl rfl]
    split
    · simp only [List.map_cons, List.map_nil, ZoomCurve.frame, hsame]
    · rfl

theorem letIn_twins : FormTwins letIn := by
  intro js ctx ctx' d d' ih h h'
  obtain ⟨_, bindings, last, hpairs, bound, body, hbound, hbody, rfl⟩ := clean_letIn.1 h
  obtain ⟨_, _, _, hpairs', bound', body', hbound', hbody', rfl⟩ := clean_letIn.1 h'
  cases hpairs.symm.trans hpairs'
  have hvalues := twins_of_pairs hpairs ih (checks_of_bindings hbound) (checks_of_bindings hbound')
  have hbodies := (ih _ ((mem_of_inPairs hpairs).2 _ rfl) _ _ _ _ hbody hbody').1
  refine ⟨⟨?_, hbodies.curves⟩, rfl⟩
  rw [Expr.zoomReads_node, Expr.zoomReads_node (.letIn ..)]
  exact Expr.zoomReads_of_twins (forall₂_append_singleton hvalues hbodies)

theorem var_twins : FormTwins var := by
  intro js ctx ctx' d d' _ h h'
  obtain ⟨_, _, _, _, rfl⟩ := clean_var.1 h
  obtain ⟨_, _, _, _, rfl⟩ := clean_var.1 h'
  exact ⟨Expr.twins_of_children rfl .nil rfl rfl, rfl⟩

theorem assertion_twins (t : Ty) : FormTwins (assertion t) := by
  intro js ctx ctx' d d' ih h h'
  obtain ⟨_, es, hes, rfl⟩ := clean_assertion.1 h
  obtain ⟨_, es', hes', rfl⟩ := clean_assertion.1 h'
  have htwins := twins_of_checks (checks_of_each hes) (checks_of_each hes') ih
  exact ⟨Expr.twins_of_children rfl htwins rfl rfl, rfl⟩

theorem arrayAssertion_twins : FormTwins arrayAssertion := by
  intro js ctx ctx' d d' ih h h'
  obtain ⟨_, _, input, hparts, e, he, rfl⟩ := clean_arrayAssertion.1 h
  obtain ⟨_, _, _, hparts', e', he', rfl⟩ := clean_arrayAssertion.1 h'
  cases hparts.symm.trans hparts'
  have htwins := (ih input (mem_of_arrayParts? hparts) _ _ _ _ he he').1
  exact ⟨Expr.twins_of_children rfl (.cons htwins .nil) rfl rfl, rfl⟩

theorem call_twins (fn : Builtin) : FormTwins (call fn) := by
  intro js ctx ctx' d d' ih h h'
  obtain ⟨_, es, ⟨_, _, _, _, _, hes⟩, rfl⟩ := clean_call.1 h
  obtain ⟨_, es', ⟨_, _, _, _, _, hes'⟩, rfl⟩ := clean_call.1 h'
  have htwins := twins_of_checks (checks_of_each hes) (checks_of_each hes') ih
  exact ⟨Expr.twins_of_children rfl htwins rfl rfl, rfl⟩

theorem IsForm.twins {form : Form} (h : IsForm form) : FormTwins form := by
  cases h with
  | literal => exact literal_twins
  | coalesce => exact coalesce_twins
  | select => exact select_twins
  | curve => exact curve_twins
  | letIn => exact letIn_twins
  | var => exact var_twins
  | assertion _ => exact assertion_twins _
  | arrayAssertion => exact arrayAssertion_twins
  | call fn => exact call_twins fn

/-- Forms that a zoom curve can lie along are of the expected type by themselves. -/
theorem IsForm.along_or_admits {form : Form} (hform : IsForm form)
    (h : Clean (form (js.map argOf) ctx) (some d)) :
    ZoomCurve.along d = [] ∨ Admits ctx.expected d.ty := by
  have hforms : ∀ j ∈ js, Forms j := fun j _ => Elaborates.formed j
  cases hform with
  | literal =>
      obtain ⟨_, _, h⟩ := clean_literal.1 h
      obtain ⟨_, rfl⟩ := clean_literalOf.1 h
      exact .inl rfl
  | coalesce => exact .inr (coalesce_forms _ _ _ hforms h).admits
  | select => exact .inr (select_forms _ _ _ hforms h).admits
  | curve => exact .inr (curve_forms _ _ _ hforms h).admits
  | letIn => exact .inr (letIn_forms _ _ _ hforms h).admits
  | var =>
      obtain ⟨_, _, _, _, rfl⟩ := clean_var.1 h
      exact .inl rfl
  | assertion _ =>
      obtain ⟨_, _, _, rfl⟩ := clean_assertion.1 h
      exact .inl rfl
  | arrayAssertion =>
      obtain ⟨_, _, _, _, _, _, rfl⟩ := clean_arrayAssertion.1 h
      exact .inl rfl
  | call fn =>
      obtain ⟨_, _, _, rfl⟩ := clean_call.1 h
      exact .inl rfl

end Typing

/-- All trees that a document checks to, in any contexts, are twins. -/
theorem Json.twins (j : Json) : j.Twins := by
  induction j using json_induction with
  | scalar j hj =>
      intro ctx ctx' e e' h h'
      obtain ⟨d, hd, hconforms⟩ := (elaborates_scalar hj).1 h
      obtain ⟨d', hd', hconforms'⟩ := (elaborates_scalar hj).1 h'
      obtain ⟨t, v, rfl⟩ := literal_of_scalar hd
      obtain ⟨t', v', rfl⟩ := literal_of_scalar hd'
      have htwins : (Expr.literal ctx.path t v).Twins (.literal ctx'.path t' v') :=
        Expr.twins_of_children rfl .nil rfl rfl
      refine ⟨htwins.conforms hconforms hconforms' (.inl rfl) (.inl rfl), fun hctx hctx' => ?_⟩
      rw [hctx] at hconforms
      rw [hctx'] at hconforms'
      rw [isCallOf_zoom_of_conforms hconforms nofun, isCallOf_zoom_of_conforms hconforms' nofun]
      rfl
  | arr items ih =>
      intro ctx ctx' e e' h h'
      obtain ⟨name, js, form, d, rfl, hsome, hd, hconforms⟩ := elaborates_arr.1 h
      obtain ⟨_, _, _, d', heq, hsome', hd', hconforms'⟩ := elaborates_arr.1 h'
      cases heq
      -- one name begins one form, whatever the registry
      cases hsome.symm.trans hsome'
      have hform := isForm hsome
      obtain ⟨htwins, hzoom⟩ := hform.twins js ctx ctx' d d'
        (fun j hj => ih j (List.mem_cons_of_mem _ hj)) hd hd'
      refine ⟨htwins.conforms hconforms hconforms' (hform.along_or_admits hd)
        (hform.along_or_admits hd'), fun hctx hctx' => ?_⟩
      rw [hctx] at hconforms
      rw [hctx'] at hconforms'
      rw [isCallOf_zoom_of_conforms hconforms (ty_of_isCallOf_zoom hform hd),
        isCallOf_zoom_of_conforms hconforms' (ty_of_isCallOf_zoom hform hd'), hzoom]
  | obj fields =>
      intro ctx ctx' e e' h
      exact absurd h not_elaborates_obj

/-! ## When there is a position -/

namespace ZoomCurve

variable {r : Interpolators} {curve : ZoomCurve}

theorem elaborates_index (ctx : Context) (hexpected : ctx.expected = some .number) (i : Nat) :
    ∃ e, Elaborates ctx (.ofNat i) e := by
  refine ⟨_, elaborates_data (j := .ofNat i) trivial ?_⟩
  rw [hexpected]
  exact admits_self .number

theorem elaborates_zoom (ctx : Context) (hexpected : ctx.expected = some .number) :
    ∃ e, Elaborates ctx Conversion.zoom e := by
  have hfirst : FirstSignature ctx [] Builtin.zoom.signatures (.exactly []) [] :=
    ⟨[], [], rfl, nofun, rfl, .nil 0⟩
  refine ⟨_, (elaborates_named (form?_name .zoom)).2
    ⟨_, clean_call.2 ⟨_, _, hfirst, rfl⟩, .kept ?_⟩⟩
  rw [hexpected]
  exact admits_self .number

/-- Ascending labels beside their indices check as stops of numbers. -/
theorem steps_indexed (ctx : Context) {labels : List Float} {before : Option Float}
    (hlabels : StopsFollow before labels) (i k : Nat) :
    ∃ last checked, Steps (nextStop ctx) ⟨some .number, before⟩
      ((argPairs ((labels.zipIdx i).map fun (x, i) => (.double x, .ofNat i))).zipIdx k)
      ⟨some .number, last⟩ checked := by
  induction labels generalizing before i k with
  | nil => exact ⟨before, [], .nil _⟩
  | cons x labels ih =>
      obtain ⟨hfinite, hfollows, hrest⟩ := hlabels
      obtain ⟨e, he⟩ := elaborates_index (ctx.child (2 * k + 4) (some .number)) rfl i
      obtain ⟨last, checked, hsteps⟩ := ih hrest (i + 1) (k + 1)
      refine ⟨last, _ :: checked, .cons (b := (x, e)) (clean_nextStop.2
        ⟨num?_double hfinite, hfollows, he, rfl⟩) hsteps⟩

theorem exists_position (hlabels : StopsFollow none curve.labels) (hne : curve.labels ≠ [])
    (hkind : curve.interpolation.WellFormed)
    (hblend : (curve.interpolation.isStep || r.supports .number) = true) :
    ∃ c, compile curve.positionJson (some .number) r = .ok c := by
  let ctx : Context := .root (some .number) r
  let inner : Context := ctx.child 1 (some .number)
  obtain ⟨input, hinput⟩ := elaborates_zoom (inner.child 2 (some .number)) rfl
  obtain ⟨zero, hzero⟩ := elaborates_index (ctx.child 2 (some .number)) rfl 0
  obtain ⟨last, checked, hsteps⟩ := steps_indexed inner hlabels 0 0
  have hpairs : inPairs (positions curve.labels) = (indexed curve.labels, none) := by
    have hwritten := inPairs_written (indexed curve.labels) []
    rw [List.append_nil, ← positions_eq] at hwritten
    rw [hwritten]
    exact congrArg (·, none) (List.append_nil _)
  have hlength : 4 ≤ (curve.interpolation.toJson :: Conversion.zoom ::
      positions curve.labels).length := by
    obtain ⟨x, xs, hxs⟩ := List.exists_cons_of_ne_nil hne
    rw [hxs]
    simp [positions]
  have hcurve : ∃ d, Elaborates inner (.call "curve" (curve.interpolation.toJson ::
      Conversion.zoom :: positions curve.labels)) d := by
    refine ⟨_, (elaborates_named rfl).2 ⟨_, clean_curve.2 ⟨hlength, _, _, _, _, rfl, hpairs, _, _,
      _, _, describes_toJson hkind, hinput, hsteps, ?_, rfl⟩, .kept (admits_self .number)⟩⟩
    rw [Interpolation.isStep_unsigned]
    exact hblend
  obtain ⟨d, hd⟩ := hcurve
  have hroot : Elaborates ctx curve.positionJson (.coalesce ctx.path .number [d, zero]) := by
    refine (elaborates_named rfl).2 ⟨_, clean_coalesce.2 ⟨some .number, [d, zero], ?_, rfl⟩,
      .kept (admits_self .number)⟩
    exact .cons (clean_checkOutput.2 ⟨hd, rfl⟩) (.cons (clean_checkOutput.2 ⟨hzero, rfl⟩) (.nil _))
  exact ⟨_, compile_of_elaborates hroot⟩

/-- There is a position along a zoom curve, unless numbers would have to be blended and cannot
be. -/
theorem exists_position_iff (hlabels : StopsFollow none curve.labels) (hne : curve.labels ≠ [])
    (hkind : curve.interpolation.WellFormed) :
    (∃ c, compile curve.positionJson (some .number) r = .ok c) ↔
      curve.interpolation.isStep = true ∨ r.supports .number = true := by
  rw [← Bool.or_eq_true_iff]
  refine ⟨fun ⟨c, hc⟩ => ?_, exists_position hlabels hne hkind⟩
  obtain ⟨p, p', q, q', outputs, hroot, _⟩ := isPosition_of_compile hlabels.isFinite hkind hc
  obtain ⟨_, hformed, _⟩ := formed_of_compile hc
  rw [hroot] at hformed
  obtain ⟨⟨⟨_, _, _, _, _, _, _, hblend⟩, _⟩, _⟩ := hformed
  rw [← Interpolation.isStep_unsigned]
  exact hblend

/-- What checking ensures of the zoom curve of a compiled expression. -/
theorem parts_of_compile {j : Json} {expected : Option Ty} {c : Compiled}
    (h : compile j expected r = .ok c) (halong : along c.root = [curve]) :
    StopsFollow none curve.labels ∧ curve.labels ≠ [] ∧ curve.interpolation.WellFormed := by
  obtain ⟨_, hformed, _⟩ := formed_of_compile h
  obtain ⟨_, _, _, _, _, _, _, _, _, hne, hlabels, hkind, _⟩ :=
    formed_of_along _ hformed curve (halong ▸ List.mem_singleton_self curve)
  exact ⟨hlabels, hne, hkind⟩

end ZoomCurve

/-! ## Style functions -/

theorem Expr.isZoomConstant_iff_zoomReads {e : Expr} :
    e.isZoomConstant = true ↔ zoomReads [e] = 0 := by
  rw [isZoomConstant_iff, zoomReads, nodesOf, nodesOf, List.append_nil, List.countP_eq_zero]
  simp only [Bool.not_eq_true]

namespace StyleFunction

variable {definition : Json} {spec : PropertySpec} {r r' : Interpolators} {f f' : StyleFunction}
  {j : Json} {c c' : Compiled}

/-- A definition whose expression checks makes a style function where it does not depend on the zoom
level, or through one zoom curve only; and where that has a position. -/
theorem exists_create_iff (hj : expression definition spec = .ok j)
    (hc : compile j (some spec.expectedTy) r = .ok c) :
    (∃ f, create definition spec r = .ok f) ↔ c.isZoomConstant = true ∨
      ∃ curve, ZoomCurve.find c.root = .ok (some curve) ∧
        (curve.interpolation.isStep = true ∨ r.supports .number = true) := by
  obtain ⟨hr, _, _⟩ := formed_of_compile hc
  constructor
  · rintro ⟨f, hf⟩
    obtain ⟨_, hj', hc', ⟨hconstant, _⟩ | ⟨_, s, hs, _⟩⟩ := create_eq_ok.1 hf
    · cases hj.symm.trans hj'
      cases hc.symm.trans hc'
      exact .inl hconstant
    · cases hj.symm.trans hj'
      cases hc.symm.trans hc'
      obtain ⟨curve, hfind, _, hposition⟩ := sample_eq_ok.1 hs
      obtain ⟨hlabels, hne, hkind⟩ :=
        ZoomCurve.parts_of_compile hc ((ZoomCurve.find_eq_ok _ _).1 hfind)
      rw [hr] at hposition
      exact .inr ⟨curve, hfind, (ZoomCurve.exists_position_iff hlabels hne hkind).1 ⟨_, hposition⟩⟩
  · intro h
    cases hconstant : c.isZoomConstant with
    | true => exact ⟨⟨c, none⟩, create_eq_ok.2 ⟨j, hj, hc, .inl ⟨hconstant, rfl⟩⟩⟩
    | false =>
        rcases h with h | ⟨curve, hfind, hblend⟩
        · cases hconstant.symm.trans h
        obtain ⟨hlabels, hne, hkind⟩ :=
          ZoomCurve.parts_of_compile hc ((ZoomCurve.find_eq_ok _ _).1 hfind)
        obtain ⟨position, hposition⟩ :=
          (ZoomCurve.exists_position_iff hlabels hne hkind).2 hblend
        rw [← hr] at hposition
        have hs : sample c = .ok ⟨curve.labels, position⟩ :=
          sample_eq_ok.2 ⟨curve, hfind, rfl, hposition⟩
        exact ⟨⟨c, some _⟩, create_eq_ok.2 ⟨j, hj, hc, .inr ⟨hconstant, _, hs, rfl⟩⟩⟩

/-- Two trees of one document have the same zoom curve, types and outputs aside. -/
theorem find_of_compile (hc : compile j (some spec.expectedTy) r = .ok c)
    (hc' : compile j (some spec.expectedTy) r' = .ok c') {curve : ZoomCurve}
    (h : ZoomCurve.find c.root = .ok (some curve)) :
    ∃ curve', ZoomCurve.find c'.root = .ok (some curve') ∧ curve'.frame = curve.frame := by
  have htwins := (j.twins _ _ _ _ (formed_of_compile hc).2.2 (formed_of_compile hc').2.2).1
  have hcurves := htwins.curves
  rw [(ZoomCurve.find_eq_ok _ _).1 h] at hcurves
  obtain ⟨curve', halong, hframe⟩ := List.map_eq_singleton_iff.1 hcurves.symm
  exact ⟨curve', (ZoomCurve.find_eq_ok _ _).2 halong, hframe⟩

theorem isZoomConstant_of_compile (hc : compile j (some spec.expectedTy) r = .ok c)
    (hc' : compile j (some spec.expectedTy) r' = .ok c') :
    c.isZoomConstant = c'.isZoomConstant := by
  have htwins := (j.twins _ _ _ _ (formed_of_compile hc).2.2 (formed_of_compile hc').2.2).1
  rw [Bool.eq_iff_iff, Compiled.isZoomConstant, Compiled.isZoomConstant,
    Expr.isZoomConstant_iff_zoomReads, Expr.isZoomConstant_iff_zoomReads, htwins.reads]

/-- What makes the position of a style function. -/
theorem sampling_of_create (hj : expression definition spec = .ok j)
    (hc : compile j (some spec.expectedTy) r = .ok c) (h : create definition spec r = .ok f) :
    (c.isZoomConstant = true ∧ f.sampling = none) ∨
      ∃ curve s, c.isZoomConstant = false ∧ ZoomCurve.find c.root = .ok (some curve) ∧
        f.sampling = some s ∧ s.stops = curve.labels ∧
        compile curve.positionJson (some .number) r = .ok s.position := by
  obtain ⟨_, hj', hc', hsampling⟩ := create_eq_ok.1 h
  cases hj.symm.trans hj'
  cases hc.symm.trans hc'
  rcases hsampling with hconstant | ⟨hconstant, s, hs, hsampling⟩
  · exact .inl hconstant
  · obtain ⟨curve, hfind, hstops, hposition⟩ := sample_eq_ok.1 hs
    obtain ⟨hr, _, _⟩ := formed_of_compile hc
    rw [hr] at hposition
    exact .inr ⟨curve, s, hconstant, hfind, hsampling, hstops, hposition⟩

/-- The position is made of what the registry does not change. -/
theorem positionJson_congr {curve curve' : ZoomCurve} (h : curve'.frame = curve.frame) :
    curve'.positionJson = curve.positionJson := by
  obtain ⟨hinterpolation, hlabels⟩ := Prod.mk.inj h
  rw [ZoomCurve.positionJson, ZoomCurve.positionJson, hinterpolation, hlabels]

/-- Of a registry, only the blend of numbers has a part in positions. -/
theorem positionOf_congr (h : r.blends.get? "Number" = r'.blends.get? "Number")
    (reading : Reading) : ZoomCurve.positionOf r reading = ZoomCurve.positionOf r' reading := by
  cases reading with
  | one k => rfl
  | two k u =>
      have hblend : ∀ a b, r.blend .number a b u = r'.blend .number a b u := by
        intro a b
        simp only [Interpolators.blend, Ty.kindName, h]
      exact congrArg (Outcome.orValue · _) (hblend _ _)

theorem supports_number_congr (h : r.blends.get? "Number" = r'.blends.get? "Number") :
    r.supports .number = r'.supports .number := by
  simp only [Interpolators.supports, Dict.has, Ty.kindName, h]

/-- The parts of two registries in a position are the same: they blend numbers alike, or nothing is
blended. -/
def SamePositions (r r' : Interpolators) (c : Compiled) : Prop :=
  r.blends.get? "Number" = r'.blends.get? "Number" ∨
    ∃ curve, ZoomCurve.find c.root = .ok (some curve) ∧ curve.interpolation = .step

section Both

variable (hj : expression definition spec = .ok j)
  (hc : compile j (some spec.expectedTy) r = .ok c)
  (hc' : compile j (some spec.expectedTy) r' = .ok c')

include hc hc' in
theorem SamePositions.symm (h : SamePositions r r' c) : SamePositions r' r c' := by
  refine h.imp Eq.symm fun ⟨curve, hfind, hstep⟩ => ?_
  obtain ⟨curve', hfind', hframe⟩ := find_of_compile hc hc' hfind
  exact ⟨curve', hfind', (Prod.mk.inj hframe).1.trans hstep⟩

include hj hc hc' in
theorem exists_create_of_samePositions (hsame : SamePositions r r' c)
    (h : ∃ f, create definition spec r = .ok f) : ∃ f', create definition spec r' = .ok f' := by
  rw [exists_create_iff hj hc] at h
  rw [exists_create_iff hj hc', ← isZoomConstant_of_compile hc hc']
  refine h.imp_right fun ⟨curve, hfind, hblend⟩ => ?_
  obtain ⟨curve', hfind', hframe⟩ := find_of_compile hc hc' hfind
  refine ⟨curve', hfind', ?_⟩
  rw [(Prod.mk.inj hframe).1]
  rcases hsame with hsame | ⟨_, hcurve, hstep⟩
  · rw [← supports_number_congr hsame]
    exact hblend
  · cases hfind.symm.trans hcurve
    rw [hstep]
    exact .inl rfl

include hj hc hc' in
/-- Two style functions of one definition have no position, or positions along one zoom curve. -/
theorem samplings_of_create (h : create definition spec r = .ok f)
    (h' : create definition spec r' = .ok f') :
    (f.sampling = none ∧ f'.sampling = none) ∨
      ∃ curve s s', ZoomCurve.find c.root = .ok (some curve) ∧
        (f.sampling = some s ∧ s.stops = curve.labels ∧
          compile curve.positionJson (some .number) r = .ok s.position) ∧
        (f'.sampling = some s' ∧ s'.stops = curve.labels ∧
          compile curve.positionJson (some .number) r' = .ok s'.position) := by
  have hconstancy := isZoomConstant_of_compile hc hc'
  rcases sampling_of_create hj hc h with
    ⟨hconstant, hnone⟩ | ⟨curve, s, hconstant, hfind, hs⟩
  · rcases sampling_of_create hj hc' h' with ⟨_, hnone'⟩ | ⟨_, _, hconstant', _⟩
    · exact .inl ⟨hnone, hnone'⟩
    · rw [hconstant, hconstant'] at hconstancy
      cases hconstancy
  · rcases sampling_of_create hj hc' h' with
      ⟨hconstant', _⟩ | ⟨curve', s', _, hfind', hsampling', hstops', hposition'⟩
    · rw [hconstant, hconstant'] at hconstancy
      cases hconstancy
    obtain ⟨_, hcurve, hframe⟩ := find_of_compile hc hc' hfind
    cases hfind'.symm.trans hcurve
    rw [positionJson_congr hframe] at hposition'
    rw [(Prod.mk.inj hframe).2] at hstops'
    exact .inr ⟨curve, s, s', hfind, hs, hsampling', hstops', hposition'⟩

include hj hc hc' in
theorem stops_of_create (h : create definition spec r = .ok f)
    (h' : create definition spec r' = .ok f') :
    f.sampling.map (·.stops) = f'.sampling.map (·.stops) := by
  rcases samplings_of_create hj hc hc' h h' with
    ⟨hnone, hnone'⟩ | ⟨curve, s, s', _, ⟨hs, hstops, _⟩, hs', hstops', _⟩
  · rw [hnone, hnone']
  · rw [hs, hs', Option.map_some, Option.map_some, hstops, hstops']

include hj hc hc' in
theorem position_of_samePositions (hsame : SamePositions r r' c)
    (h : create definition spec r = .ok f) (h' : create definition spec r' = .ok f')
    (zoom : Float) : f.position zoom = f'.position zoom := by
  rcases samplings_of_create hj hc hc' h h' with
    ⟨hnone, hnone'⟩ | ⟨curve, s, s', hfind, ⟨hs, _, hposition⟩, hs', _, hposition'⟩
  · rw [position, position, hnone, hnone']
  · obtain ⟨hlabels, hne, hkind⟩ :=
      ZoomCurve.parts_of_compile hc ((ZoomCurve.find_eq_ok _ _).1 hfind)
    have hboth : ∀ reading : Reading,
        reading.IsAt curve.labels curve.interpolation.unsigned zoom →
        ZoomCurve.positionOf r reading = ZoomCurve.positionOf r' reading →
        f.position zoom = f'.position zoom := by
      intro reading hreading hpositions
      rw [position_eq hs hposition hlabels hkind hreading, hpositions,
        position_eq hs' hposition' hlabels hkind hreading]
    rcases hsame with hsame | ⟨_, hcurve, hstep⟩
    · obtain ⟨reading, _, hreading⟩ :=
        exists_reading hlabels hne curve.interpolation.unsigned zoom
      exact hboth reading hreading (positionOf_congr hsame reading)
    · cases hfind.symm.trans hcurve
      refine hboth (.one (stopIndex curve.labels zoom)) ?_ rfl
      rw [hstep]
      exact isAt_stopIndex hlabels hne zoom

end Both

/-- Two registries under both of which the expression of a definition checks agree on whether it
depends on the zoom level, and on its stops where it makes a style function under both.  It makes
one under a registry where its position can be checked, which is up to the blend of numbers; and
where the registries blend numbers alike, or nothing is blended, it makes one under both or neither,
with the same position at every zoom level. -/
theorem position_of_registries (hj : expression definition spec = .ok j)
    (hc : compile j (some spec.expectedTy) r = .ok c)
    (hc' : compile j (some spec.expectedTy) r' = .ok c') :
    c.isZoomConstant = c'.isZoomConstant ∧
      ((∃ f, create definition spec r = .ok f) ↔ c.isZoomConstant = true ∨
        ∃ curve, ZoomCurve.find c.root = .ok (some curve) ∧
          (curve.interpolation.isStep = true ∨ r.supports .number = true)) ∧
      (∀ f f', create definition spec r = .ok f → create definition spec r' = .ok f' →
        f.sampling.map (·.stops) = f'.sampling.map (·.stops)) ∧
      (SamePositions r r' c →
        ((∃ f, create definition spec r = .ok f) ↔ ∃ f', create definition spec r' = .ok f') ∧
        ∀ f f', create definition spec r = .ok f → create definition spec r' = .ok f' →
          ∀ zoom, f.position zoom = f'.position zoom) := by
  refine ⟨isZoomConstant_of_compile hc hc', exists_create_iff hj hc,
    fun f f' h h' => stops_of_create hj hc hc' h h', fun hsame => ⟨⟨?_, ?_⟩, ?_⟩⟩
  · exact exists_create_of_samePositions hj hc hc' hsame
  · exact exists_create_of_samePositions hj hc' hc (hsame.symm hc hc')
  · exact fun f f' h h' zoom => position_of_samePositions hj hc hc' hsame h h' zoom

/-- Black and white, and what is between. -/
def fadingColor : Json := .ofMembers [("expression",
  .call "curve" [.call "linear" [], .call "zoom" [],
    .ofNat 0, .call "rgba" [.ofNat 0, .ofNat 0, .ofNat 0, .ofNat 1],
    .ofNat 10, .call "rgba" [.ofNat 255, .ofNat 255, .ofNat 255, .ofNat 1]])]

/-- A registry in which colors do not fade. -/
def abrupt : Interpolators := Interpolators.standard.register "Color" fun a _ _ => pure a

theorem position_fadingColor :
    ∃ f f', create fadingColor ⟨.color, none⟩ .standard = .ok f ∧
      create fadingColor ⟨.color, none⟩ abrupt = .ok f' ∧
      f.compiled.isZoomConstant = false ∧ ∀ zoom, f.position zoom = f'.position zoom := by
  have hok : ((create fadingColor ⟨.color, none⟩ .standard).toOption.any fun f =>
      !f.compiled.isZoomConstant) = true := by decide +kernel
  have hok' : ((create fadingColor ⟨.color, none⟩ abrupt).toOption.any fun _ => true) = true := by
    decide +kernel
  obtain ⟨f, h, hzoom⟩ := Except.exists_of_any hok
  obtain ⟨f', h', _⟩ := Except.exists_of_any hok'
  obtain ⟨j, hj, hc, _⟩ := create_eq_ok.1 h
  obtain ⟨j', hj', hc', _⟩ := create_eq_ok.1 h'
  cases hj.symm.trans hj'
  obtain ⟨_, _, _, hsame⟩ := position_of_registries hj hc hc'
  have hnumbers : SamePositions .standard abrupt f.compiled := .inl rfl
  rw [Bool.not_eq_true'] at hzoom
  exact ⟨f, f', h, h', hzoom, (hsame hnumbers).2 f f' h h'⟩

/-- A registry that knows colors only. -/
def colorsOnly : Interpolators := Interpolators.empty.register "Color" Blend.color

/-- Where nothing but colors can be blended, the expression checks all the same, but the position of
a zoom level is a number, and no style function is made. -/
theorem not_created_without_numbers :
    ∃ j c c' f, expression fadingColor ⟨.color, none⟩ = .ok j ∧
      compile j (some .color) .standard = .ok c ∧ compile j (some .color) colorsOnly = .ok c' ∧
      create fadingColor ⟨.color, none⟩ .standard = .ok f ∧
      ∀ f', create fadingColor ⟨.color, none⟩ colorsOnly ≠ .ok f' := by
  have hok : ((create fadingColor ⟨.color, none⟩ .standard).toOption.any fun _ => true) = true := by
    decide +kernel
  have hok' : ((expression fadingColor ⟨.color, none⟩).toOption.any fun j =>
      (compile j (some .color) colorsOnly).toOption.any fun _ => true) = true := by
    decide +kernel
  have hfails : (create fadingColor ⟨.color, none⟩ colorsOnly).toOption.isNone = true := by
    decide +kernel
  obtain ⟨f, h, _⟩ := Except.exists_of_any hok
  obtain ⟨j, hj, hc, _⟩ := create_eq_ok.1 h
  obtain ⟨j', hj', hok'⟩ := Except.exists_of_any hok'
  cases hj.symm.trans hj'
  obtain ⟨c', hc', _⟩ := Except.exists_of_any hok'
  refine ⟨j, f.compiled, c', f, hj, hc, hc', h, fun f' hf' => ?_⟩
  rw [hf'] at hfails
  cases hfails

end StyleFunction
end MapStyle

/-
# `MapStyle.Proofs.Style.Data` — the data of a style is never run

Constants and stop functions are data.  Conversion quotes arrays and objects, but it puts the inputs
of stops where labels are read, and texts that are no colors where a color is expected, as they are.
Nothing of this is ever taken for a call (`StyleFunction.quiet_of_noExpression`): the calls in the
tree of a constant or a stop function are those that conversion wrote itself, and they read nothing
but the one property and, as the input of the outermost curve, the zoom level.

The documents that conversion makes are followed from the inside out: a document is `Quiet` when all
trees that it checks to are, against whatever type.
-/
import MapStyle.Proofs.Style.StepLike
import MapStyle.Proofs.Style.ZoomCurve

namespace MapStyle

open Typing

/-! ## Trees -/

namespace Expr

/-- A node calls nothing but the functions that make a color and the look-up of a property. -/
def CallsOnly (property : Option String) : Expr → Prop
  | .call _ _ .rgba _ => True
  | .call _ _ .toColor _ => True
  | .call _ _ .get args => ∃ key q, property = some key ∧ args = [.literal q .string (.string key)]
  | .call _ _ _ _ => False
  | _ => True

/-- No node calls anything else. -/
def Quiet (property : Option String) (e : Expr) : Prop := ∀ n ∈ e.nodes, n.CallsOnly property

variable {property : Option String} {e : Expr}

theorem quiet_of_children (h : e.CallsOnly property)
    (hchildren : ∀ d ∈ e.children, d.Quiet property) : e.Quiet property := by
  intro n hn
  rw [nodes_eq, nodesOf_eq_flatMap] at hn
  rcases List.mem_cons.1 hn with rfl | hn
  · exact h
  · obtain ⟨d, hd, hn⟩ := List.mem_flatMap.1 hn
    exact hchildren d hd n hn

theorem quiet_literal (p : Path) (t : Ty) (v : Value) : (Expr.literal p t v).Quiet property :=
  quiet_of_children trivial nofun

theorem quiet_propertyAt (p q : Path) (key : String) : (propertyAt p q key).Quiet (some key) :=
  quiet_of_children ⟨key, q, rfl, rfl⟩ (List.forall_mem_singleton.2 (quiet_literal q _ _))

theorem quiet_assertion {p : Path} {t : Ty} {inputs : List Expr}
    (h : ∀ d ∈ inputs, d.Quiet property) : (Expr.assertion p t inputs).Quiet property :=
  quiet_of_children trivial h

/-- What is put around a tree to bring it in line with an expected type calls no more. -/
theorem Quiet.conforms {expected : Option Ty} {d : Expr} (h : d.Quiet property)
    (hconforms : Conforms expected d e) : e.Quiet property := by
  cases hconforms with
  | kept => exact h
  | colored => exact quiet_of_children trivial (List.forall_mem_singleton.2 h)
  | asserted => exact quiet_assertion (List.forall_mem_singleton.2 h)

theorem CallsOnly.readsZoom (h : e.CallsOnly property) : e.readsZoom = false := by
  cases e with
  | call p t fn args => cases fn <;> first | rfl | cases h
  | _ => rfl

theorem CallsOnly.readsFeature (h : e.CallsOnly none) : e.readsFeature = false := by
  cases e with
  | call p t fn args =>
      cases fn with
      | get =>
          obtain ⟨_, _, hkey, _⟩ := h
          cases hkey
      | _ => first | rfl | cases h
  | _ => rfl

theorem Quiet.isZoomConstant (h : e.Quiet property) : e.isZoomConstant = true :=
  isZoomConstant_iff.2 fun n hn => (h n hn).readsZoom

theorem Quiet.isFeatureConstant (h : e.Quiet none) : e.isFeatureConstant = true :=
  isFeatureConstant_iff.2 fun n hn => (h n hn).readsFeature

/-- A tree reads the zoom level as the input of the outermost curve, and is quiet below it. -/
def QuietBelowZoom (property : Option String) (e : Expr) : Prop :=
  ∃ p t p' t' kind q labels outputs default,
    e = .coalesce p t [.curve p' t' kind (.call q .number .zoom []) labels outputs, default] ∧
      (∀ d ∈ outputs, d.Quiet property) ∧ default.Quiet property

theorem QuietBelowZoom.nodes (h : e.QuietBelowZoom property) :
    ∀ n ∈ e.nodes, n.isCallOf .zoom = true ∨ n.CallsOnly property := by
  obtain ⟨p, t, p', t', kind, q, labels, outputs, default, rfl, houtputs, hdefault⟩ := h
  intro n hn
  simp only [Expr.nodes, nodesOf, List.mem_cons, List.mem_append, List.append_nil,
    List.not_mem_nil, or_false] at hn
  rcases hn with rfl | (rfl | rfl | hn) | hn
  · exact .inr trivial
  · exact .inr trivial
  · exact .inl rfl
  · rw [nodesOf_eq_flatMap] at hn
    obtain ⟨d, hd, hn⟩ := List.mem_flatMap.1 hn
    exact .inr (houtputs d hd n hn)
  · exact .inr (hdefault n hn)

theorem QuietBelowZoom.isFeatureConstant (h : e.QuietBelowZoom none) :
    e.isFeatureConstant = true := by
  refine isFeatureConstant_iff.2 fun n hn => ?_
  rcases h.nodes n hn with hzoom | hn
  · obtain ⟨p, t, args, rfl⟩ := eq_call_of_isCallOf hzoom
    rfl
  · exact hn.readsFeature

theorem Quiet.zoomReads (h : e.Quiet property) : zoomReads [e] = 0 := by
  rw [Expr.zoomReads, nodesOf, nodesOf, List.append_nil, List.countP_eq_zero]
  intro n hn
  rw [(h n hn).readsZoom]
  exact Bool.false_ne_true

/-- The search finds the outermost curve, and nothing else. -/
theorem QuietBelowZoom.find (h : e.QuietBelowZoom property) :
    ∃ curve, ZoomCurve.find e = .ok (some curve) := by
  obtain ⟨p, t, p', t', kind, q, labels, outputs, default, rfl, _, hdefault⟩ := h
  have hnone : ZoomCurve.along default = [] := by
    have hreads := zoomReads_of_along default
    rw [hdefault.zoomReads] at hreads
    exact List.eq_nil_of_length_eq_zero (Nat.le_zero.1 hreads)
  refine ⟨⟨p', t', kind, labels, outputs⟩, (ZoomCurve.find_eq_ok _ _).2 ?_⟩
  simp [ZoomCurve.along, ZoomCurve.alongEach, hnone, isCallOf]

end Expr

/-! ## Documents -/

/-- Whatever a document checks to is quiet. -/
def Json.Quiet (property : Option String) (j : Json) : Prop :=
  ∀ r t e, ChecksTo r t j e → e.Quiet property

section Documents

variable {property : Option String} {j : Json}

theorem quiet_of_checked {r : Interpolators} {t : Ty} {α β : Type} {R : α → β → Prop}
    {document : α → Json} {output : β → Expr}
    (hR : ∀ a b, R a b → ChecksTo r t (document a) (output b)) {as : List α} {bs : List β}
    (h : List.Forall₂ R as bs) (has : ∀ a ∈ as, (document a).Quiet property) :
    ∀ d ∈ bs.map output, d.Quiet property := by
  induction h with
  | nil => nofun
  | cons hab _ ih =>
      obtain ⟨ha, has⟩ := List.forall_mem_cons.1 has
      exact List.forall_mem_cons.2 ⟨ha _ _ _ (hR _ _ hab), ih has⟩

theorem quiet_of_each {ctx : Context} (hscope : ctx.scope = []) {param : Nat → Ty} {i : Nat}
    {js : List Json} {es : List Expr} (h : Each ctx (fun i => some (param i)) i js es)
    (hjs : ∀ j ∈ js, j.Quiet property) : ∀ d ∈ es, d.Quiet property := by
  obtain ⟨path, expected, scope, r⟩ := ctx
  cases hscope
  induction h with
  | nil => nofun
  | cons hj _ ih =>
      obtain ⟨hquiet, hrest⟩ := List.forall_mem_cons.1 hjs
      exact List.forall_mem_cons.2 ⟨hquiet _ _ _ ⟨_, hj⟩, ih hrest⟩

theorem Json.quiet_scalar (hj : IsScalar j) : j.Quiet property := by
  rintro r t e ⟨path, h⟩
  obtain ⟨d, hd, hconforms⟩ := (elaborates_scalar hj).1 h
  obtain ⟨_, _, rfl⟩ := literal_of_scalar hd
  exact (Expr.quiet_literal _ _ _).conforms hconforms

/-- What is quoted is data, whatever it looks like. -/
theorem Json.quiet_literal (j : Json) : (Json.call "literal" [j]).Quiet property := by
  rintro r t e ⟨path, h⟩
  obtain ⟨d, hd, hconforms⟩ := (elaborates_named rfl).1 h
  obtain ⟨_, _, hd⟩ := clean_literal.1 hd
  obtain ⟨_, rfl⟩ := clean_literalOf.1 hd
  exact (Expr.quiet_literal _ _ _).conforms hconforms

theorem Json.quiet_call (fn : Builtin) (hfn : fn = .rgba ∨ fn = .toColor) {js : List Json}
    (hjs : ∀ j ∈ js, j.Quiet property) : (Json.call fn.name js).Quiet property := by
  intro r t e h
  obtain ⟨p, signature, es, _, heach, _, hconforms⟩ := h.call
  refine Expr.Quiet.conforms (Expr.quiet_of_children ?_ (quiet_of_each rfl heach hjs)) hconforms
  rcases hfn with rfl | rfl <;> trivial

theorem Json.quiet_lookUp (key : String) : (Conversion.lookUp key).Quiet (some key) := by
  intro r t e h
  obtain ⟨p, q, hconforms⟩ := h.propertyAt
  exact (Expr.quiet_propertyAt p q key).conforms hconforms

theorem Json.quiet_assertion {name : String} {asserted : Ty}
    (hform : form? name = some (assertion asserted)) (hj : j.Quiet property) :
    (Json.call name [j]).Quiet property := by
  rintro r t e ⟨path, h⟩
  obtain ⟨d, hd, hconforms⟩ := (elaborates_named hform).1 h
  obtain ⟨_, es, heach, rfl⟩ := clean_assertion.1 hd
  have hinputs := quiet_of_each rfl heach (List.forall_mem_singleton.2 hj)
  exact (Expr.quiet_assertion hinputs).conforms hconforms

theorem Json.quiet_arrayAssertion {js : List Json}
    (hjs : ∀ item len input, arrayParts? js = some (item, len, input) → input.Quiet property) :
    (Json.call "array" js).Quiet property := by
  intro r t e h
  obtain ⟨p, item, len, input, d, hparts, hinput, hconforms⟩ := h.arrayAssertion
  have hd := hjs _ _ _ hparts _ _ _ hinput
  exact (Expr.quiet_assertion (List.forall_mem_singleton.2 hd)).conforms hconforms

theorem Json.quiet_coalesce {js : List Json} (hjs : ∀ j ∈ js, j.Quiet property) :
    (Json.call "coalesce" js).Quiet property := by
  intro r t e h
  obtain ⟨p, es, rfl, hes⟩ := h.coalesce
  have hargs : ∀ d ∈ es.map id, d.Quiet property := quiet_of_checked (fun _ _ h => h) hes hjs
  rw [List.map_id] at hargs
  exact Expr.quiet_of_children trivial hargs

/-- A curve whose labels are read as numbers, or not at all. -/
theorem Json.quiet_curve {description input : Json} {stops : List (Json × Json)}
    (hinput : input.Quiet property) (hstops : ∀ stop ∈ stops, stop.2.Quiet property) :
    (Json.call "curve" (description :: input :: written stops)).Quiet property := by
  intro r t e h
  obtain ⟨p, kind, d, checked, rfl, _, hd, hchecked⟩ := h.curve
  refine Expr.quiet_of_children trivial (List.forall_mem_cons.2 ⟨hinput _ _ _ hd, ?_⟩)
  exact quiet_of_checked (fun _ _ h => h.2) hchecked hstops

theorem Json.quiet_select {input last : Json} {branches : List (Json × Json)}
    (hinput : input.Quiet property) (hbranches : ∀ branch ∈ branches, branch.2.Quiet property)
    (hlast : last.Quiet property) :
    (Json.call "match" (input :: (written branches ++ [last]))).Quiet property := by
  intro r t e h
  obtain ⟨p, inputTy, d, table, checked, otherwise, rfl, hd, hchecked, hotherwise⟩ := h.select
  refine Expr.quiet_of_children trivial (List.forall_mem_cons.2 ⟨hinput _ _ _ hd, ?_⟩)
  refine List.forall_mem_append.2 ⟨quiet_of_checked (fun _ _ h => h.2) hchecked hbranches, ?_⟩
  exact List.forall_mem_singleton.2 (hlast _ _ _ hotherwise)

end Documents

/-! ## Conversion -/

namespace Conversion

variable {spec : PropertySpec} {property : Option String} {f : StopFunction} {kind : StopKind}
  {default : Json}

theorem quiet_constant (spec : PropertySpec) (j : Json) : (constant spec j).Quiet property := by
  obtain ⟨kind, _⟩ := spec
  cases j with
  | str s =>
      cases kind with
      | color =>
          simp only [constant]
          split
          · refine Json.quiet_call .rgba (.inl rfl) fun j hj => ?_
            obtain ⟨x, _, rfl⟩ := List.mem_map.1 hj
            refine Json.quiet_scalar ?_
            rw [Json.ofFloat]
            split <;> trivial
          · exact Json.quiet_scalar trivial
      | _ => exact Json.quiet_scalar trivial
  | arr items => exact Json.quiet_literal _
  | obj fields => exact Json.quiet_literal _
  | _ => exact Json.quiet_scalar trivial

theorem quiet_defaultOf (spec : PropertySpec) (default : Option Json) :
    (defaultOf spec default).Quiet property := by
  cases default with
  | none => exact Json.quiet_scalar trivial
  | some j => exact quiet_constant spec j

theorem quiet_outputs (spec : PropertySpec) (stops : List (Json × Json)) :
    ∀ stop ∈ outputs spec stops, stop.2.Quiet property := by
  intro stop hstop
  obtain ⟨_, _, rfl⟩ := List.mem_map.1 hstop
  exact quiet_constant spec _

theorem quiet_typedLookUp (spec : PropertySpec) (key : String) :
    (typedLookUp spec key).Quiet (some key) := by
  have hkey := Json.quiet_lookUp key
  obtain ⟨kind, _⟩ := spec
  cases kind with
  | number => exact Json.quiet_assertion rfl hkey
  | string => exact Json.quiet_assertion rfl hkey
  | boolean => exact Json.quiet_assertion rfl hkey
  | enum values => exact Json.quiet_assertion rfl hkey
  | color => exact Json.quiet_call .toColor (.inr rfl) (List.forall_mem_singleton.2 hkey)
  | array item length =>
      simp only [typedLookUp]
      split
      · refine Json.quiet_arrayAssertion fun _ _ _ hparts => ?_
        cases length with
        | none =>
            obtain ⟨_, _, heq⟩ := Option.map_eq_some_iff.1 hparts
            cases heq
            exact hkey
        | some n =>
            obtain ⟨_, _, heq⟩ := Option.bind_eq_some_iff.1 hparts
            obtain ⟨_, _, heq⟩ := Option.map_eq_some_iff.1 heq
            cases heq
            exact hkey
      · refine Json.quiet_arrayAssertion fun _ _ _ hparts => ?_
        cases hparts
        exact hkey

theorem quiet_ofProperty (hdefault : ∀ property, default.Quiet property) (key : String)
    (stops : List (Json × Json)) : (ofProperty f kind spec default key stops).Quiet (some key) := by
  have hkey := Json.quiet_lookUp key
  have hnumber : (Json.call "number" [lookUp key]).Quiet (some key) :=
    Json.quiet_assertion rfl hkey
  cases kind with
  | identity => exact quiet_typedLookUp spec key
  | categorical => exact Json.quiet_select hkey (quiet_outputs spec stops) (hdefault _)
  | exponential => exact Json.quiet_curve hnumber (quiet_outputs spec stops)
  | interval => exact Json.quiet_curve hnumber (quiet_outputs spec stops)

/-- Stops that can be grouped have both a zoom and a value. -/
theorem zooms_of_groups {stops : List (Json × Json)} {done gs : List (Float × List (Json × Json))}
    (h : groups done stops = .ok gs) : ∀ stop ∈ stops, zoomAndValue? stop.1 ≠ none := by
  induction stops generalizing done with
  | nil => nofun
  | cons stop stops ih =>
      obtain ⟨z, v, hstop, hrest⟩ := groups_cons h
      refine List.forall_mem_cons.2 ⟨?_, ih hrest⟩
      rw [hstop]
      exact Option.some_ne_none _

/-- A curve over the zoom level between quiet documents. -/
def IsZoomCurve (property : Option String) (j : Json) : Prop :=
  ∃ f kind stops, j = curve f kind zoom stops ∧ ∀ stop ∈ stops, stop.2.Quiet property

/-- A stop function without its default is quiet, or a curve over the zoom level; if it is one of a
property, the latter only where all stops have a zoom. -/
theorem quiet_body (hdefault : ∀ property, default.Quiet property) {j : Json}
    (h : body f kind spec default = .ok j) :
    j.Quiet f.property ∨ IsZoomCurve f.property j ∧
      (f.property ≠ none → f.stops ≠ [] ∧ ∀ stop ∈ f.stops, zoomAndValue? stop.1 ≠ none) := by
  rw [body] at h
  cases hproperty : f.property with
  | none =>
      rw [hproperty] at h
      dsimp only at h
      split at h
      · cases h
      · cases h
        exact .inr ⟨⟨f, kind, _, rfl, quiet_outputs spec _⟩, fun hnot => absurd rfl hnot⟩
  | some key =>
      rw [hproperty] at h
      dsimp only at h
      split at h
      · rename_i hobject
        obtain ⟨gs, hgs, h⟩ := Except.bind_eq_ok.1 h
        cases h
        refine .inr ⟨⟨f, kind, _, rfl, fun stop hstop => ?_⟩, fun _ => ⟨?_, zooms_of_groups hgs⟩⟩
        · obtain ⟨_, _, rfl⟩ := List.mem_map.1 hstop
          exact quiet_ofProperty hdefault key _
        · intro hnil
          rw [hnil] at hobject
          cases hobject
      · cases h
        exact .inl (quiet_ofProperty hdefault key _)

theorem quietBelowZoom_of_checks {j : Json} (hj : IsZoomCurve property j) {default : Json}
    (hdefault : default.Quiet property) {r : Interpolators} {t : Ty} {e : Expr}
    (h : ChecksTo r t (.call "coalesce" [j, default]) e) : e.QuietBelowZoom property := by
  obtain ⟨f, kind, stops, rfl, hstops⟩ := hj
  obtain ⟨p, es, rfl, hes⟩ := h.coalesce
  obtain _ | ⟨hcurve, _ | ⟨hd, _ | _⟩⟩ := hes
  obtain ⟨p', kind', input, checked, rfl, _, hinput, hchecked⟩ := ChecksTo.curve hcurve
  obtain ⟨q, rfl⟩ := hinput.zoom
  refine ⟨p, t, p', t, kind', q, _, _, _, rfl, ?_, hdefault _ _ _ hd⟩
  exact quiet_of_checked (fun _ _ h => h.2) hchecked hstops

theorem quiet_ofStops {j : Json} (h : ofStops f spec = .ok j) {r : Interpolators} {t : Ty}
    {e : Expr} (he : ChecksTo r t j e) :
    e.Quiet f.property ∨ e.QuietBelowZoom f.property ∧
      (f.property ≠ none → f.stops ≠ [] ∧ ∀ stop ∈ f.stops, zoomAndValue? stop.1 ≠ none) := by
  obtain ⟨inner, hinner, h⟩ := Except.bind_eq_ok.1 h
  cases h
  have hdefault : ∀ property, (defaultOf spec (f.default.or spec.default)).Quiet property :=
    fun _ => quiet_defaultOf spec _
  rcases quiet_body hdefault hinner with hbody | ⟨hbody, hzooms⟩
  · refine .inl (Json.quiet_coalesce ?_ _ _ _ he)
    exact List.forall_mem_cons.2 ⟨hbody, List.forall_mem_singleton.2 (hdefault _)⟩
  · exact .inr ⟨quietBelowZoom_of_checks hbody (hdefault _) he, hzooms⟩

/-- What is wrong with a stop function is its shape. -/
def OfShape : ConfigError → Prop
  | .identityWithoutProperty => True
  | .stopShape _ => True
  | .zoomOutsideCurve => False
  | .severalZoomCurves _ => False

theorem ofShape_of_groups {stops : List (Json × Json)} {done : List (Float × List (Json × Json))}
    {err : ConfigError} (h : groups done stops = .error err) : OfShape err := by
  induction stops generalizing done with
  | nil => cases h
  | cons stop stops ih =>
      rw [groups] at h
      split at h
      · exact ih h
      · cases h
        trivial

theorem ofShape_of_ofStops {err : ConfigError} (h : ofStops f spec = .error err) :
    OfShape err := by
  rcases Except.bind_eq_error.1 h with h | ⟨_, _, h⟩
  · rw [body] at h
    split at h
    · split at h
      · cases h
        trivial
      · cases h
    · split at h
      · rcases Except.bind_eq_error.1 h with h | ⟨_, _, h⟩
        · exact ofShape_of_groups h
        · cases h
      · cases h
  · cases h

end Conversion

/-! ## Style functions -/

namespace StyleFunction

variable {definition : Json} {spec : PropertySpec}

/-- The property that a definition reads if it is a stop function. -/
def propertyOf (definition : Json) : Option String :=
  if isFunction definition then (StopFunction.ofJson? definition).bind (·.property) else none

theorem propertyOf_of_isStops {s : StopFunction} (h : IsStops definition s) :
    propertyOf definition = s.property := by
  rw [propertyOf, if_pos h.isFunction, h.reads]
  rfl

/-- A definition that makes an expression is a constant, a stop function or an expression. -/
theorem constant_or_isStops (hdata : isFunction definition = false ∨
    definition.get? "expression" = none) {j : Json} (h : expression definition spec = .ok j) :
    (isFunction definition = false ∧ j = Conversion.constant spec definition) ∨
      ∃ s, IsStops definition s ∧ Conversion.ofStops s spec = .ok j := by
  cases hfunction : isFunction definition with
  | false =>
      rw [expression, hfunction] at h
      cases h
      exact .inl ⟨rfl, rfl⟩
  | true =>
      have hnone : definition.get? "expression" = none := by
        rcases hdata with hfalse | hnone
        · rw [hfunction] at hfalse
          cases hfalse
        · exact hnone
      cases hreads : StopFunction.ofJson? definition with
      | none =>
          rw [expression, hfunction, hnone, hreads] at h
          cases h
      | some s =>
          have hstops : IsStops definition s := ⟨hfunction, hnone, hreads⟩
          rw [expression_of_isStops hstops] at h
          exact .inr ⟨s, hstops, Except.mapError_eq_ok.1 h⟩

theorem ofShape_of_expression (hnone : definition.get? "expression" = none) {err : ConfigError}
    (h : expression definition spec = .error (.config err)) : Conversion.OfShape err := by
  rw [expression, hnone] at h
  split at h
  · cases h
  · dsimp only at h
    split at h
    · cases h
    · obtain ⟨_, h, heq⟩ := Except.mapError_eq_error.1 h
      cases heq
      exact Conversion.ofShape_of_ofStops h

variable {r : Interpolators} {j : Json} {c : Compiled}

/-- The tree of a constant or a stop function is quiet, but for the zoom level on top. -/
theorem quiet_of_compile (hdata : isFunction definition = false ∨
    definition.get? "expression" = none) (hj : expression definition spec = .ok j)
    (hc : compile j (some spec.expectedTy) r = .ok c) :
    c.root.Quiet (propertyOf definition) ∨
      c.root.QuietBelowZoom (propertyOf definition) ∧ ∃ s, IsStops definition s ∧
        (s.property ≠ none → s.stops ≠ [] ∧
          ∀ stop ∈ s.stops, Conversion.zoomAndValue? stop.1 ≠ none) := by
  have hchecks := checksTo_of_compile hc
  rcases constant_or_isStops hdata hj with ⟨_, rfl⟩ | ⟨s, hstops, hj⟩
  · exact .inl (Conversion.quiet_constant spec definition _ _ _ hchecks)
  · rw [propertyOf_of_isStops hstops]
    rcases Conversion.quiet_ofStops hj hchecks with hquiet | ⟨hbelow, hzooms⟩
    · exact .inl hquiet
    · exact .inr ⟨hbelow, s, hstops, hzooms⟩

/-- Where data are not accepted, it is not for their use of the zoom level. -/
theorem ofShape_of_create (hdata : isFunction definition = false ∨
    definition.get? "expression" = none) {err : ConfigError}
    (herr : create definition spec r = .error (.config err)) : Conversion.OfShape err := by
  rcases config_of_create herr with herr | ⟨j, c, hj, hc, hzoom, hfind⟩
  · rcases hdata with hconstant | hnone
    · rw [expression, hconstant] at herr
      cases herr
    · exact ofShape_of_expression hnone herr
  · rcases quiet_of_compile hdata hj hc with hquiet | ⟨hbelow, _⟩
    · cases hzoom.symm.trans hquiet.isZoomConstant
    · obtain ⟨curve, hcurve⟩ := hbelow.find
      rw [hcurve] at hfind
      rcases hfind with hfind | ⟨hfind, _⟩ <;> cases hfind

/-- Constants and stop functions are never run, whatever stands in their stops and defaults.  The
calls in their trees make colors or look up the property of the function, or are the zoom level as
the input of the outermost curve.  So they depend on what they say they depend on, and no definition
of data is refused for its use of the zoom level. -/
theorem quiet_of_noExpression (hdata : isFunction definition = false ∨
    definition.get? "expression" = none) :
    (∀ j c, expression definition spec = .ok j → compile j (some spec.expectedTy) r = .ok c →
      (c.root.Quiet (propertyOf definition) ∨ c.root.QuietBelowZoom (propertyOf definition)) ∧
      (isFunction definition = false → c.isFeatureConstant = true ∧ c.isZoomConstant = true) ∧
      (propertyOf definition = none → c.isFeatureConstant = true) ∧
      (∀ s, IsStops definition s → s.property ≠ none →
        (s.stops = [] ∨ ∃ stop ∈ s.stops, Conversion.zoomAndValue? stop.1 = none) →
        c.isZoomConstant = true)) ∧
    ∀ err, create definition spec r = .error (.config err) →
      err ≠ .zoomOutsideCurve ∧ ∀ path, err ≠ .severalZoomCurves path := by
  refine ⟨fun j c hj hc => ?_, fun err herr => ?_⟩
  · have hquiet := quiet_of_compile hdata hj hc
    have hfeature : propertyOf definition = none → c.isFeatureConstant = true := by
      intro hnone
      rw [hnone] at hquiet
      rcases hquiet with hquiet | ⟨hbelow, _⟩
      · exact hquiet.isFeatureConstant
      · exact hbelow.isFeatureConstant
    refine ⟨hquiet.imp_right And.left, fun hconstant => ⟨hfeature ?_, ?_⟩, hfeature, ?_⟩
    · rw [propertyOf, hconstant]
      rfl
    · rcases hquiet with hquiet | ⟨_, s, hstops, _⟩
      · exact hquiet.isZoomConstant
      · cases hconstant.symm.trans hstops.isFunction
    · intro s hstops hproperty hwithout
      rcases hquiet with hquiet | ⟨_, s', hstops', hzooms⟩
      · exact hquiet.isZoomConstant
      · cases hstops.reads.symm.trans hstops'.reads
        obtain ⟨hne, hall⟩ := hzooms hproperty
        rcases hwithout with hnil | ⟨stop, hstop, hnone⟩
        · exact absurd hnil hne
        · exact absurd hnone (hall stop hstop)
  · have hshape := ofShape_of_create hdata herr
    constructor
    · rintro rfl
      exact hshape
    · rintro path rfl
      exact hshape

/-- Outputs and a default that look like calls. -/
def callsAsData : Json := .ofMembers [("property", .str "kind"), ("type", .str "categorical"),
  ("stops", .arr [.arr [.str "a", .call "get" [.str "name"]]]), ("default", .call "zoom" [])]

theorem quiet_callsAsData :
    ∃ j c, expression callsAsData ⟨.array "string" none, none⟩ = .ok j ∧
      compile j (some (.array .string none)) .standard = .ok c ∧
      (c.root.Quiet (some "kind") ∨ c.root.QuietBelowZoom (some "kind")) ∧
      c.isZoomConstant = true ∧ c.isFeatureConstant = false ∧
      (c.evaluate .empty 0 [("kind", .string "a")]).1 =
        .ok (.array [.string "get", .string "name"]) ∧
      (c.evaluate .empty 0 []).1 = .ok (.array [.string "zoom"]) := by
  obtain ⟨j, c, hj, hc, hfeature, hget, hzoom⟩ : ∃ j c,
      expression callsAsData ⟨.array "string" none, none⟩ = .ok j ∧
      compile j (some (.array .string none)) .standard = .ok c ∧ c.isFeatureConstant = false ∧
      (c.evaluate .empty 0 [("kind", .string "a")]).1 =
        .ok (.array [.string "get", .string "name"]) ∧
      (c.evaluate .empty 0 []).1 = .ok (.array [.string "zoom"]) :=
    ⟨_, _, rfl, rfl, rfl, rfl, rfl⟩
  have hstops : IsStops callsAsData ⟨some .categorical, some "kind", none,
      [(.str "a", .call "get" [.str "name"])], some (.call "zoom" [])⟩ := ⟨rfl, rfl, rfl⟩
  obtain ⟨hquiet, _, _, hconstant⟩ := (quiet_of_noExpression (.inr rfl)).1 j c hj hc
  refine ⟨j, c, hj, hc, hquiet, ?_, hfeature, hget, hzoom⟩
  exact hconstant _ hstops nofun (.inr ⟨_, List.mem_cons_self, rfl⟩)

end StyleFunction
end MapStyle

/-
# `MapStyle.Proofs.Style.StepLike` — conversion keeps what a stop function says

The values of a style function that was made of a stop function by steps or by categories are those
that the reading of the stop function prescribes (`StyleFunction.evaluate_eq_reading`).

A stop function is converted to one of three shapes: a curve over the zoom level, a curve or `match`
over a property, and the second inside the first.  For each shape the tree comes to the output that
is selected, or to something in whose place the default is put (`Conversion.Comes`).
-/
import MapStyle.Proofs.Style.Constants
import MapStyle.Proofs.Style.Create
import MapStyle.Proofs.Style.Reading

namespace MapStyle

open Typing

/-! ## Lists side by side -/

section Forall₂

variable {α β : Type} {R : α → β → Prop} {as : List α} {bs : List β}

theorem getElem?_of_forall₂ (h : List.Forall₂ R as bs) {i : Nat} {b : β} (hb : bs[i]? = some b) :
    ∃ a, as[i]? = some a ∧ R a b := by
  induction h generalizing i with
  | nil => cases hb
  | cons hab _ ih =>
      cases i with
      | zero =>
          cases hb
          exact ⟨_, rfl, hab⟩
      | succ i => exact ih hb

theorem exists_of_forall₂ (h : List.Forall₂ R as bs) {a : α} (ha : a ∈ as) : ∃ b, R a b := by
  induction h with
  | nil => cases ha
  | cons hab _ ih =>
      rcases List.mem_cons.1 ha with rfl | ha
      · exact ⟨_, hab⟩
      · exact ih ha

/-- A search on one side finds what the search for the index finds on the other. -/
theorem find?_of_forall₂ {p : α → Bool} {q : β → Bool} (hpq : ∀ a b, R a b → p a = q b)
    (h : List.Forall₂ R as bs) :
    (as.find? p = none ∧ bs.findIdx? q = none) ∨
      ∃ i a b, as.find? p = some a ∧ bs.findIdx? q = some i ∧ bs[i]? = some b ∧ R a b := by
  induction h with
  | nil => exact .inl ⟨rfl, rfl⟩
  | @cons a b as bs hab _ ih =>
      rw [List.find?_cons, List.findIdx?_cons, hpq a b hab]
      cases q b with
      | true => exact .inr ⟨0, a, b, rfl, rfl, rfl, hab⟩
      | false =>
          rcases ih with ⟨hnone, hnone'⟩ | ⟨i, a', b', ha', hi, hb', hab'⟩
          · rw [hnone, hnone']
            exact .inl ⟨rfl, rfl⟩
          · rw [ha', hi]
            exact .inr ⟨i + 1, a', b', rfl, rfl, hb', hab'⟩

theorem forall₂_and_right {p : β → Prop} (h : List.Forall₂ R as bs) (hp : ∀ b ∈ bs, p b) :
    List.Forall₂ (fun a b => R a b ∧ p b) as bs := by
  induction h with
  | nil => exact .nil
  | cons hab _ ih =>
      obtain ⟨hb, hbs⟩ := List.forall_mem_cons.1 hp
      exact .cons ⟨hab, hb⟩ (ih hbs)

end Forall₂

/-! ## Inputs -/

namespace Value

/-- A value is what is demanded, or the demand fails for its data. -/
theorem asType_cases (v : Value) (t : Ty) :
    (v.asType t = .ok v ∧ fits t v = true) ∨ ∃ err, v.asType t = .error err ∧
      err.isFault = false := by
  rw [asType]
  split
  · exact .inr ⟨_, rfl, rfl⟩
  · split
    · rename_i hfits
      exact .inl ⟨rfl, hfits⟩
    · exact .inr ⟨_, rfl, rfl⟩

end Value

variable {scene : Scene} {r : Interpolators} {t : Ty} {e : Expr}

theorem Typing.denote_asserted (scene : Scene) (p p' q : Path) (t : Ty) (key : String) :
    let e := Expr.assertion p t [propertyAt p' q key]
    (∃ v, scene.properties.get? key = some v ∧ v.asType t = .ok v ∧ Value.fits t v = true ∧
        e.denote scene .empty = .ok v) ∨
      ((∀ v, scene.properties.get? key = some v → v.asType t ≠ .ok v) ∧
        ∃ err, e.denote scene .empty = .error err ∧ err.isFault = false) := by
  intro e
  have he : e.denote scene .empty = scene.properties.get key >>= fun v => v.asType t :=
    Expr.denote_assertion
  rw [he, Properties.get]
  cases hv : scene.properties.get? key with
  | none =>
      refine .inr ⟨?_, _, rfl, rfl⟩
      intro v hv
      cases hv
  | some v =>
      rcases v.asType_cases t with ⟨hok, hfits⟩ | ⟨err, herr, hfault⟩
      · exact .inl ⟨v, rfl, hok, hfits, hok⟩
      · refine .inr ⟨?_, err, herr, hfault⟩
        intro w hw hok
        cases hw
        cases herr.symm.trans hok

namespace Typing

/-! ## Steps -/

/-- A curve that does not blend has ascending labels, at least one, and a number as its input. -/
theorem ChecksTo.step {input : Json} {stops : List (Json × Json)}
    (h : ChecksTo r t (.call "curve" (.call "step" [] :: input :: written stops)) e) :
    ∃ p d checked, e = .curve p t .step d (checked.map (·.1)) (checked.map (·.2)) ∧
      ChecksTo r .number input d ∧ List.Forall₂ (ChecksStop r t) stops checked ∧
      StopsFollow none (checked.map (·.1)) ∧ checked.map (·.1) ≠ [] := by
  have hformed := h.formed
  obtain ⟨p, kind, d, checked, rfl, hkind, hinput, hchecked⟩ := h.curve
  cases hkind.unique (.step [])
  obtain ⟨_, _, _, _, hne, hlabels, _⟩ := hformed
  exact ⟨p, d, checked, rfl, hinput, hchecked, hlabels, hne⟩

variable {stops : List (Json × Json)} {checked : List (Float × Expr)}

theorem num?_of_checked (h : List.Forall₂ (ChecksStop r t) stops checked) :
    stops.map (fun stop => stop.1.num?) = (checked.map (·.1)).map some := by
  induction h with
  | nil => rfl
  | cons hstop _ ih => rw [List.map_cons, List.map_cons, List.map_cons, hstop.1, ih]

/-- A curve that does not blend has the outcome of the stop that its input stands at. -/
theorem denote_step {p : Path} {d : Expr} (h : List.Forall₂ (ChecksStop r t) stops checked)
    (hlabels : StopsFollow none (checked.map (·.1))) (hne : checked.map (·.1) ≠ []) {x : Float}
    (hinput : d.denote scene .empty = .ok (.number x)) :
    ∃ stop o, stops[stopIndex (checked.map (·.1)) x]? = some stop ∧ ChecksTo r t stop.2 o ∧
      Expr.denote scene (.curve p t .step d (checked.map (·.1)) (checked.map (·.2))) .empty =
        o.denote scene .empty := by
  have hlt := hlabels.stopIndex_lt hne x
  rw [List.length_map] at hlt
  have hc := List.getElem?_eq_getElem hlt
  obtain ⟨stop, hstop, _, ho⟩ := getElem?_of_forall₂ h hc
  refine ⟨stop, _, hstop, ho, Expr.denote_curve_step hlabels hne hinput ?_⟩
  rw [List.getElem?_map, hc]
  rfl

/-! ## Categories -/

/-- A branch checks to labels of a type and an output. -/
def ChecksCategory (r : Interpolators) (t labelTy : Ty) (branch : Json × Json)
    (c : List Label × Expr) : Prop :=
  ChecksBranch r t branch c ∧ ∀ l ∈ c.1, l.ty = labelTy

/-- The labels of a `match` are all numbers or all strings, as is demanded of its input, and the
table has the branches of their texts. -/
theorem ChecksTo.categories {input last : Json} {branches : List (Json × Json)}
    (h : ChecksTo r t (.call "match" (input :: (written branches ++ [last]))) e) :
    ∃ p inputTy d table checked otherwise, e = .select p t inputTy d table (checked.map (·.1))
        (checked.map (·.2)) otherwise ∧
      ChecksTo r inputTy input d ∧ ChecksTo r t last otherwise ∧
      List.Forall₂ (ChecksCategory r t inputTy) branches checked ∧
      (inputTy = .number ∨ inputTy = .string) ∧
      ∀ text, table.get? text = checked.findIdx? fun c => LabelsSeen.Names text c.1 := by
  have hformed := h.formed
  obtain ⟨p, inputTy, d, table, checked, otherwise, rfl, hinput, hchecked, hotherwise⟩ := h.select
  obtain ⟨_, _, _, _, _, _, htakes, hadd⟩ := hformed
  obtain ⟨hlabelTy, hty⟩ := LabelsSeen.ty_of_table htakes hadd
  refine ⟨p, inputTy, d, table, checked, otherwise, rfl, hinput, hotherwise, ?_, hlabelTy,
    fun text => ?_⟩
  · exact forall₂_and_right hchecked fun c hc => hty c.1 (List.mem_map_of_mem hc)
  · rw [LabelsSeen.get?_table htakes hadd, List.findIdx?_map]
    rfl

theorem asType_of_isAmong {labelTy : Ty} {branch : Json × Json} {c : List Label × Expr}
    (h : ChecksCategory r t labelTy branch c) {v : Value}
    (hv : StopFunction.isAmong v branch.1 = true) : v.asType labelTy = .ok v := by
  obtain ⟨⟨hlabels, _⟩, hty⟩ := h
  obtain ⟨j, hj, hsame⟩ := List.any_eq_true.1 hv
  have hmem : labelOf? j ∈ c.1.map some := hlabels ▸ List.mem_map_of_mem hj
  obtain ⟨l, hl, hlabel⟩ := List.mem_map.1 hmem
  rw [← hty l hl]
  exact asType_of_same hlabel.symm hsame

end Typing

/-! ## Constants -/

/-- Whether a kind is of scalars other than colors. -/
def PropertyKind.isScalar : PropertyKind → Bool
  | number => true
  | string => true
  | boolean => true
  | enum _ => true
  | color => false
  | array _ _ => false

namespace Conversion

open StopFunction

variable {spec : PropertySpec} {stops : List (Json × Json)} {default : Option Json}

theorem constantOutcome_of_scalar (hspec : spec.kind.isScalar = true) (j : Json) :
    constantOutcome spec j = .ok (.ofJson j) := by
  obtain ⟨kind, _⟩ := spec
  cases kind with
  | color => cases hspec
  | array item len => cases hspec
  | _ => cases j <;> rfl

theorem denote_scalarConstant (hspec : spec.kind.isScalar = true) {j : Json}
    (h : ChecksTo r spec.expectedTy (constant spec j) e) :
    e.denote scene .empty = .ok (Value.ofJson j) := by
  rw [denote_constant h, constantOutcome_of_scalar hspec]

def defaultValue (default : Option Json) : Value := (default.map Value.ofJson).getD .null

theorem optional?_eq_defaultValue (default : Option Json) :
    (PropertySpec.optional? default).map Value.ofJson =
      if (defaultValue default).isNull then none else some (defaultValue default) := by
  cases default with
  | none => rfl
  | some j => cases j <;> rfl

theorem denote_scalarDefault (hspec : spec.kind.isScalar = true)
    (h : ChecksTo r spec.expectedTy (defaultOf spec default) e) :
    e.denote scene .empty = .ok (defaultValue default) := by
  rw [denote_defaultOf h, constantOutcome_of_scalar hspec]
  cases default <;> rfl

/-! ## Shapes -/

/-- With a value in place of null and of errors, a tree comes to the output that is selected, or to
that value if none is. -/
def Comes (scene : Scene) (e : Expr) (selected : Option Json) (d : Value) : Prop :=
  (e.denote scene .empty).orValue d =
    .ok (((PropertySpec.optional? selected).map Value.ofJson).getD d)

variable {selected : Option Json} {d : Value}

theorem comes_of_value {j : Json} (h : e.denote scene .empty = .ok (Value.ofJson j)) :
    Comes scene e (some j) d := by
  rw [Comes, h]
  cases j <;> rfl

theorem comes_of_default (h : e.denote scene .empty = .ok d) : Comes scene e none d := by
  rw [Comes, h, Outcome.orValue, ite_self]
  rfl

theorem comes_of_error {err : EvalError} (h : e.denote scene .empty = .error err)
    (hfault : err.isFault = false) : Comes scene e none d := by
  rw [Comes, h, Outcome.orValue, hfault]
  rfl

theorem comes_congr {e' : Expr} (h : e.denote scene .empty = e'.denote scene .empty)
    (he' : Comes scene e' selected d) : Comes scene e selected d := by
  rw [Comes, h]
  exact he'

theorem comes_step {p : Path} {input : Expr} {checked : List (Float × Expr)}
    (hspec : spec.kind.isScalar = true)
    (h : List.Forall₂ (ChecksStop r spec.expectedTy) (outputs spec stops) checked)
    (hlabels : StopsFollow none (checked.map (·.1))) (hne : checked.map (·.1) ≠ []) {x : Float}
    (hinput : input.denote scene .empty = .ok (.number x)) :
    Comes scene (.curve p spec.expectedTy .step input (checked.map (·.1)) (checked.map (·.2)))
      (outputAt x stops) d := by
  obtain ⟨stop', o, hstop', ho, heq⟩ := denote_step h hlabels hne hinput (p := p)
  rw [outputs, List.getElem?_map] at hstop'
  obtain ⟨stop, hstop, rfl⟩ := Option.map_eq_some_iff.1 hstop'
  have hread : stops.map (fun stop => stop.1.num?) = (checked.map (·.1)).map some := by
    rw [← num?_of_checked h, outputs, List.map_map]
    rfl
  rw [outputAt, hlabels.getLast?_filter_of_map hread, hstop]
  exact comes_of_value (heq.trans (denote_scalarConstant hspec ho))

/-- Functions by steps and by categories take steps over the zoom level. -/
theorem checksTo_zoomCurve {f : StopFunction} {kind : StopKind}
    (hkind : kind = .interval ∨ kind = .categorical)
    (h : ChecksTo r t (curve f kind zoom stops) e) :
    ∃ p q checked, e = .curve p t .step (.call q .number .zoom []) (checked.map (·.1))
        (checked.map (·.2)) ∧ List.Forall₂ (ChecksStop r t) stops checked ∧
      StopsFollow none (checked.map (·.1)) ∧ checked.map (·.1) ≠ [] := by
  have hstep : interpolation kind f.base = .call "step" [] := by rcases hkind with rfl | rfl <;> rfl
  rw [curve, hstep] at h
  obtain ⟨p, input, checked, rfl, hinput, hchecked, hlabels, hne⟩ := ChecksTo.step h
  obtain ⟨q, rfl⟩ := hinput.zoom
  exact ⟨p, q, checked, rfl, hchecked, hlabels, hne⟩

theorem comes_zoom {f : StopFunction} {kind : StopKind} (hspec : spec.kind.isScalar = true)
    (hkind : kind = .interval ∨ kind = .categorical)
    (h : ChecksTo r spec.expectedTy (curve f kind zoom (outputs spec stops)) e) :
    Comes scene e (outputAt scene.zoom stops) d := by
  obtain ⟨p, q, checked, rfl, hchecked, hlabels, hne⟩ := checksTo_zoomCurve hkind h
  exact comes_step hspec hchecked hlabels hne rfl

theorem comes_interval {f : StopFunction} {property : String} (hspec : spec.kind.isScalar = true)
    (h : ChecksTo r spec.expectedTy
      (curve f .interval (.call "number" [lookUp property]) (outputs spec stops)) e) :
    Comes scene e (outputOf .interval (scene.properties.get? property) stops) d := by
  obtain ⟨p, input, checked, rfl, hinput, hchecked, hlabels, hne⟩ := ChecksTo.step h
  obtain ⟨p', asserted, hasserted, rfl⟩ := ChecksTo.assertion rfl hinput
  have hcolor : Ty.value ≠ .color := nofun
  obtain ⟨p'', q, ⟨_, rfl⟩ | ⟨hvalue, _⟩⟩ := ChecksTo.get hcolor hasserted
  · rcases denote_asserted scene p' p'' q .number property with
      ⟨v, hv, _, hfits, hinput⟩ | ⟨hnot, err, hinput, hfault⟩
    · obtain ⟨x, rfl⟩ := Value.inhabits_of_fits hfits
      rw [hv]
      exact comes_step hspec hchecked hlabels hne hinput
    · rw [outputOf_interval_eq_none fun x hx => hnot _ hx rfl]
      exact comes_of_error (Expr.denote_curve_error hinput) hfault
  · exact absurd rfl hvalue

theorem comes_outputFor {p : Path} {inputTy : Ty} {input otherwise : Expr} {table : Dict Nat}
    {checked : List (List Label × Expr)} (hspec : spec.kind.isScalar = true)
    (h : List.Forall₂ (fun stop c =>
      ChecksCategory r spec.expectedTy inputTy (stop.1, constant spec stop.2) c) stops checked)
    (htable : ∀ text, table.get? text = checked.findIdx? fun c => LabelsSeen.Names text c.1)
    (hotherwise : ChecksTo r spec.expectedTy (defaultOf spec default) otherwise) {v : Value}
    (hinput : input.denote scene .empty = .ok v) (hv : v.asType inputTy = .ok v)
    (hinhabits : v.Inhabits inputTy) {text : String} (htext : v.toText = .ok text) :
    Comes scene (.select p spec.expectedTy inputTy input table (checked.map (·.1))
      (checked.map (·.2)) otherwise) (outputFor v stops) (defaultValue default) := by
  have hsame : ∀ (stop : Json × Json) (c : List Label × Expr),
      ChecksCategory r spec.expectedTy inputTy (stop.1, constant spec stop.2) c →
      isAmong v stop.1 = LabelsSeen.Names text c.1 := by
    intro stop c hstop
    exact any_same_eq_names hstop.1.1 hstop.2 hinhabits htext
  rw [outputFor]
  rcases find?_of_forall₂ hsame h with
    ⟨hfind, hindex⟩ | ⟨i, stop, c, hfind, hindex, hc, hstop, _⟩
  · rw [hfind]
    refine comes_of_default ?_
    rw [Expr.denote_select_none hinput hv htext ((htable text).trans hindex)]
    exact denote_scalarDefault hspec hotherwise
  · rw [hfind]
    have houtput : (checked.map (·.2))[i]? = some c.2 := by
      rw [List.getElem?_map, hc]
      rfl
    refine comes_of_value ?_
    rw [Expr.denote_select_some hinput hv htext ((htable text).trans hindex) houtput]
    exact denote_scalarConstant hspec hstop.2

theorem comes_categorical {property : String} (hspec : spec.kind.isScalar = true)
    (h : ChecksTo r spec.expectedTy (.call "match"
      (lookUp property :: (flatten (outputs spec stops) ++ [defaultOf spec default]))) e) :
    Comes scene e (outputOf .categorical (scene.properties.get? property) stops)
      (defaultValue default) := by
  obtain ⟨p, inputTy, input, table, checked, otherwise, rfl, hinput, hotherwise, hchecked, hlabelTy,
    htable⟩ := ChecksTo.categories h
  rw [outputs, List.forall₂_map_left_iff] at hchecked
  have hcolor : inputTy ≠ .color := by rcases hlabelTy with rfl | rfl <;> nofun
  obtain ⟨p', q, ⟨hvalue, _⟩ | ⟨_, rfl⟩⟩ := ChecksTo.get hcolor hinput
  · rcases hlabelTy with hty | hty <;> cases hvalue.symm.trans hty
  rcases denote_asserted scene p' p' q inputTy property with
    ⟨v, hv, hok, hfits, hinput⟩ | ⟨hnot, err, hinput, hfault⟩
  · have hinhabits := Value.inhabits_of_fits hfits
    obtain ⟨text, htext⟩ := toText_of_inhabits hlabelTy hinhabits
    rw [hv]
    exact comes_outputFor hspec hchecked htable hotherwise hinput hok hinhabits htext
  · have hnone : outputOf .categorical (scene.properties.get? property) stops = none := by
      refine outputOf_categorical_eq_none fun v hv stop hstop => ?_
      obtain ⟨c, hc⟩ := exists_of_forall₂ hchecked hstop
      rw [Bool.eq_false_iff]
      intro hamong
      exact hnot v hv (asType_of_isAmong hc hamong)
    rw [hnone]
    exact comes_of_error (Expr.denote_select_error hinput) hfault

variable {f : StopFunction} {kind : StopKind} {property : String}

theorem comes_ofProperty (hspec : spec.kind.isScalar = true)
    (hkind : kind = .interval ∨ kind = .categorical)
    (h : ChecksTo r spec.expectedTy
      (ofProperty f kind spec (defaultOf spec default) property stops) e) :
    Comes scene e (outputOf kind (scene.properties.get? property) stops)
      (defaultValue default) := by
  rcases hkind with rfl | rfl
  · exact comes_interval hspec h
  · exact comes_categorical hspec h

theorem eq_unsigned_of_ofFloat {z x : Float} (h : (Json.ofFloat z).num? = some x) :
    x = unsigned z := by
  cases hz : z.isFinite with
  | true =>
      rw [num?_ofFloat hz] at h
      exact (Option.some.inj h).symm
  | false =>
      have hnone : Number.ofFloat? z = none := dif_neg (by rw [hz]; exact Bool.false_ne_true)
      rw [Json.ofFloat, hnone] at h
      cases h

/-- The labels of a curve between groups are the zooms of the groups. -/
theorem labels_of_groups {gs : List (Float × List (Json × Json))}
    {document : List (Json × Json) → Json} {checked : List (Float × Expr)}
    (h : List.Forall₂ (ChecksStop r t) (gs.map fun (z, stops) => (.ofFloat z, document stops))
      checked) : checked.map (·.1) = gs.map fun g => unsigned g.1 := by
  rw [List.forall₂_map_left_iff] at h
  induction h with
  | nil => rfl
  | cons hstop _ ih =>
      rw [List.map_cons, List.map_cons, ih, eq_unsigned_of_ofFloat hstop.1]

/-- A curve that takes steps over the zoom level between functions of a property. -/
theorem comes_ofZoomAndProperty (hspec : spec.kind.isScalar = true)
    (hkind : kind = .interval ∨ kind = .categorical) {j : Json}
    (hj : ofZoomAndProperty f kind spec (defaultOf spec default) property = .ok j)
    (h : ChecksTo r spec.expectedTy j e) :
    Comes scene e
      ((level scene.zoom f.stops).bind fun z =>
        outputOf kind (scene.properties.get? property) (ofZoom z f.stops))
      (defaultValue default) := by
  obtain ⟨gs, hgs, hj⟩ := Except.bind_eq_ok.1 hj
  cases hj
  obtain ⟨p, q, checked, rfl, hchecked, hlabels, hne⟩ := checksTo_zoomCurve hkind h
  have hzoom : Expr.denote scene (.call q .number .zoom []) .empty = .ok (.number scene.zoom) := rfl
  obtain ⟨stop, o, hstop, ho, heq⟩ := denote_step hchecked hlabels hne hzoom (p := p)
  -- the stop at the zoom level is a group, and the level is the zoom of this group
  rw [labels_of_groups hchecked] at hlabels hstop
  rw [List.getElem?_map] at hstop
  obtain ⟨g, hg, rfl⟩ := Option.map_eq_some_iff.1 hstop
  obtain ⟨z, hz, hmembers⟩ := ofZoom_level hgs hlabels hg
  rw [hz, Option.bind_some, hmembers]
  exact comes_congr heq (comes_ofProperty hspec hkind ho)

theorem comes_body (hspec : spec.kind.isScalar = true)
    (hkind : kind = .interval ∨ kind = .categorical) {j : Json}
    (hj : body f kind spec (defaultOf spec default) = .ok j)
    (h : ChecksTo r spec.expectedTy j e) :
    Comes scene e (f.output kind scene.zoom scene.properties) (defaultValue default) := by
  rw [body] at hj
  rw [StopFunction.output]
  cases hproperty : f.property with
  | none =>
      rw [hproperty] at hj
      have hnot : kind ≠ .identity := by rcases hkind with rfl | rfl <;> nofun
      dsimp only at hj
      rw [if_neg hnot] at hj
      cases hj
      exact comes_zoom hspec hkind h
  | some property =>
      rw [hproperty] at hj
      dsimp only at hj ⊢
      by_cases hobject : startsWithObject f.stops = true
      · rw [if_pos hobject] at hj ⊢
        exact comes_ofZoomAndProperty hspec hkind hj h
      · rw [if_neg hobject] at hj ⊢
        cases hj
        exact comes_ofProperty hspec hkind h

end Conversion

/-! ## Style functions -/

namespace StyleFunction

variable {definition : Json} {spec : PropertySpec} {f : StyleFunction} {s : StopFunction}

/-- A definition is a stop function, and neither a constant nor an expression. -/
structure IsStops (definition : Json) (s : StopFunction) : Prop where
  isFunction : isFunction definition = true
  noExpression : definition.get? "expression" = none
  reads : StopFunction.ofJson? definition = some s

theorem expression_of_isStops (h : IsStops definition s) :
    expression definition spec = (Conversion.ofStops s spec).mapError .config := by
  rw [expression, h.isFunction, h.noExpression, h.reads]
  rfl

/-- The reading of a stop function is the selected output, or the default in place of null. -/
theorem reading_eq (zoom : Float) (properties : Properties) :
    s.reading spec zoom properties =
      let d := Conversion.defaultValue (s.default.or spec.default)
      let v := ((PropertySpec.optional? (s.output (Conversion.kindOf s spec) zoom properties)).map
        Value.ofJson).getD d
      if v.isNull then none else some v := by
  rw [StopFunction.reading]
  have hdefault := Conversion.optional?_eq_defaultValue (s.default.or spec.default)
  cases s.output (Conversion.kindOf s spec) zoom properties with
  | none => exact hdefault
  | some o =>
      cases o with
      | null => exact hdefault
      | _ => rfl

/-- A stop function by steps or by categories, of numbers, strings or truth values, has the values
that its stops and its default say, at every zoom level and for every feature. -/
theorem evaluate_eq_reading (h : create definition spec .standard = .ok f)
    (hstops : IsStops definition s)
    (hkind : Conversion.kindOf s spec = .interval ∨ Conversion.kindOf s spec = .categorical)
    (hspec : spec.kind.isScalar = true) {easings : EasingCache}
    (hleaves : f.compiled.Leaves easings) (zoom : Float) (properties : Properties) :
    (f.evaluate easings zoom properties).1 = .ok (s.reading spec zoom properties) := by
  obtain ⟨j, hj, hcompile, _⟩ := create_eq_ok.1 h
  rw [expression_of_isStops hstops, Except.mapError_eq_ok] at hj
  obtain ⟨inner, hinner, hj⟩ := Except.bind_eq_ok.1 hj
  cases hj
  obtain ⟨p, es, hroot, hes⟩ := (checksTo_of_compile hcompile).coalesce
  -- of the two arguments the second one is the default
  obtain _ | ⟨hinput, _ | ⟨hdefault, _ | _⟩⟩ := hes
  have hcomes : Conversion.Comes ⟨zoom, properties, .standard⟩ _ _ _ :=
    Conversion.comes_body hspec hkind hinner hinput
  have hvalue : Expr.denote ⟨zoom, properties, .standard⟩ _ .empty = .ok _ :=
    Conversion.denote_scalarDefault hspec hdefault
  rw [evaluate_eq hcompile hleaves, hroot, Expr.denote_coalesce_pair hvalue, hcomes, reading_eq]
  rfl

/-- The widths of roads by their class, from two zoom levels on. -/
def widthByClass : Json := .ofMembers [("type", .str "categorical"), ("property", .str "class"),
  ("stops", .arr [
    .arr [.ofMembers [("zoom", .ofNat 5), ("value", .str "path")], .ofNat 1],
    .arr [.ofMembers [("zoom", .ofNat 10), ("value", .arr [.str "road", .str "track"])],
      .ofNat 4]]),
  ("default", .ofNat 2)]

theorem evaluate_widthByClass :
    ∃ f s, create widthByClass ⟨.number, none⟩ .standard = .ok f ∧ IsStops widthByClass s ∧
      Conversion.kindOf s ⟨.number, none⟩ = .categorical ∧
      (f.evaluate .empty 12 [("class", .string "track")]).1 = .ok (some (.number 4)) ∧
      (f.evaluate .empty 7 [("class", .string "track")]).1 = .ok (some (.number 2)) := by
  obtain ⟨f, h⟩ : ∃ f, create widthByClass ⟨.number, none⟩ .standard = .ok f := by
    have hok : (create widthByClass ⟨.number, none⟩ .standard).toBool = true := by decide +kernel
    cases hcreate : create widthByClass ⟨.number, none⟩ .standard with
    | ok f => exact ⟨f, rfl⟩
    | error e =>
        rw [hcreate] at hok
        cases hok
  obtain ⟨s, hstops, hkind, htrack, hdefault⟩ : ∃ s, IsStops widthByClass s ∧
      Conversion.kindOf s ⟨.number, none⟩ = .categorical ∧
      s.reading ⟨.number, none⟩ 12 [("class", .string "track")] = some (.number 4) ∧
      s.reading ⟨.number, none⟩ 7 [("class", .string "track")] = some (.number 2) :=
    ⟨_, ⟨rfl, rfl, rfl⟩, rfl, rfl, rfl⟩
  refine ⟨f, s, h, hstops, hkind, ?_, ?_⟩
  · rw [evaluate_eq_reading h hstops (.inr hkind) rfl .start, htrack]
  · rw [evaluate_eq_reading h hstops (.inr hkind) rfl .start, hdefault]

end StyleFunction

end MapStyle
